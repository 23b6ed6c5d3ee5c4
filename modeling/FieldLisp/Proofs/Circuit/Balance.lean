import FieldLisp.Proofs.Circuit.FrameBuilding
import FieldLisp.Proofs.Machine.Cost

/-!
# Variables less constraints

An operation may add more to one circuit than to another, where it meets a constant or a test that it
has made before. By how many variables it adds more than constraints stays the same:

* `Circuit.Nets`: an operation that always adds so many variables more than constraints;
* `Synthesis.Spends`: what a run does to a synthesis, as far as its cost goes;
* `BuildM.costing`: rules spend in circuits what they cost.
-/

namespace FieldLisp

open EStateM (bind_eq_ok pure_eq_ok)

namespace Circuit

/-- Variables less constraints. -/
def balance (s : Circuit) : ℤ := s.assignment.size - s.constraints.size

/-- The operation adds so many variables more than constraints. -/
def Nets (x : CircuitM α) (n : ℤ) : Prop := ∀ s a t, x s = .ok a t → t.balance = s.balance + n

namespace Nets
variable {ι : Type*} {α β : Type} {n m : ℤ}

theorem cast {x : CircuitM α} (h : Nets x n) (hn : n = m) : Nets x m := hn ▸ h

theorem pure (a : α) : Nets (Pure.pure a) 0 := by
  intro s b t h
  cases h
  exact (add_zero _).symm

theorem bind {x : CircuitM α} {f : α → CircuitM β} (hx : Nets x n) (hf : ∀ a, Nets (f a) m) :
    Nets (x >>= f) (n + m) := by
  intro s b u h
  obtain ⟨a, t, hxs, hft⟩ := bind_eq_ok.1 h
  rw [hf a t b u hft, hx s a t hxs, add_assoc]

theorem mapM {f : ι → CircuitM β} (hf : ∀ a, Nets (f a) n) (xs : List ι) :
    Nets (xs.mapM f) (xs.length * n) := by
  induction xs with
  | nil => exact (pure _).cast (by simp)
  | cons x xs ih =>
    rw [List.mapM_cons]
    refine ((hf x).bind fun _ => ih.bind fun _ => pure _).cast ?_
    push_cast [List.length_cons]
    ring

theorem forM {f : ι → CircuitM Unit} (hf : ∀ a, Nets (f a) n) (xs : List ι) :
    Nets (xs.forM f) (xs.length * n) := by
  induction xs with
  | nil => exact (pure _).cast (by simp)
  | cons x xs ih =>
    refine Nets.cast (x := f x >>= fun _ => xs.forM f) ((hf x).bind fun _ => ih) ?_
    push_cast [List.length_cons]
    ring

theorem foldlM {f : β → ι → CircuitM β} (hf : ∀ b a, Nets (f b a) 0) (b : β) (xs : List ι) :
    Nets (xs.foldlM f b) 0 := by
  induction xs generalizing b with
  | nil => exact pure b
  | cons x xs ih => exact ((hf b x).bind fun _ => ih _).cast (add_zero 0)

theorem vectorMapM {k : ℕ} {f : α → CircuitM β} (hf : ∀ a, Nets (f a) n) (xs : Vector α k) :
    Nets (xs.mapM f) (k * n) := by
  intro s ys t h
  rw [mapM hf _ _ _ _ (EStateM.toList_mapM_eq_ok h), Vector.length_toList]

theorem within {x : CircuitM α} (hx : Nets x n) (name : String) : Nets (Circuit.within name x) n := by
  intro s a t h
  obtain ⟨u, hrun, rfl⟩ := within_eq_ok.1 h
  exact hx (s.enter name) a u hrun

end Nets

theorem nets_alloc (v : Int) : Nets (alloc v) 1 := by
  intro s a t h
  cases h
  simp only [balance, Array.size_push]
  push_cast
  ring

theorem nets_enforce (a b c : Combination) : Nets (enforce a b c) (-1) := by
  intro s _ t h
  unfold enforce checkRoom at h
  split at h
  · cases h
  · rename_i heq
    split at heq <;> cases heq
    cases h
    simp only [balance, Array.size_push]
    push_cast
    ring

theorem nets_mul (a b : Combination) : Nets (mul a b) 0 := by
  unfold mul
  split
  · exact .pure _
  · split
    · exact .pure _
    · exact (nets_alloc _).bind fun _ => ((nets_enforce _ _ _).bind fun _ => .pure _)

end Circuit

/-! ## Gadgets -/

namespace Gadget

open Circuit

theorem nets_allocBit (value : Bool) : Nets (allocBit value) 0 :=
  (nets_alloc _).bind fun _ => (nets_enforce _ _ _).bind fun _ => .pure _

theorem nets_isZero (x : Combination) : Nets (isZero x) 0 := by
  unfold isZero
  dsimp only
  split
  · exact .pure _
  · exact (nets_alloc _).bind fun _ => (nets_alloc _).bind fun _ => (nets_enforce _ _ _).bind fun _ =>
      (nets_enforce _ _ _).bind fun _ => .pure _

theorem nets_impliesEqual (c x y : Combination) : Nets (impliesEqual c x y) (-1) := nets_enforce _ _ _

theorem nets_bindAll (c : Combination) {xs ys : List Combination} {n : ℕ} (hxs : xs.length = n)
    (hys : ys.length = n) : Nets (bindAll c xs ys) (-n) :=
  (Nets.forM (fun _ => nets_impliesEqual _ _ _) _).cast (by simp [List.length_zip, hxs, hys])

theorem nets_select (flag x y : Combination) : Nets (select flag x y) 0 := by
  unfold select
  dsimp only
  split
  · exact .pure _
  · exact (nets_alloc _).bind fun _ => (nets_enforce _ _ _).bind fun _ => .pure _

theorem nets_bits (x : Combination) (n : ℕ) : Nets (bits x n) (-1) :=
  ((Nets.mapM (fun _ => nets_allocBit _) _).bind fun _ =>
    (nets_enforce _ _ _).bind fun _ => .pure _).cast (by simp)

theorem nets_isNegative (x : Combination) : Nets (isNegative x) (-2) :=
  (nets_allocBit _).bind fun _ => (nets_mul _ _).bind fun _ => (nets_bits _ _).bind fun _ =>
    (nets_bits _ _).bind fun _ => .pure _

theorem nets_less (x y : Combination) : Nets (less x y) (-6) :=
  (nets_isNegative _).bind fun _ => (nets_isNegative _).bind fun _ => (nets_isNegative _).bind fun _ =>
    (nets_mul _ _).bind fun _ => nets_select _ _ _

theorem nets_divRem (c x y : Combination) (n : ℕ) : Nets (divRem c x y n) (-2) :=
  (nets_alloc _).bind fun _ => (nets_alloc _).bind fun _ => (nets_bits _ _).bind fun _ =>
    (nets_bits _ _).bind fun _ => (nets_mul _ _).bind fun _ => (nets_bits _ _).bind fun _ =>
    (nets_mul _ _).bind fun _ => (nets_impliesEqual _ _ _).bind fun _ => .pure _

theorem nets_oneHot (index : Int) (count : ℕ) : Nets (oneHot index count) (-1) :=
  ((Nets.mapM (fun _ => nets_allocBit _) _).bind fun _ =>
    (nets_enforce _ _ _).bind fun _ => .pure _).cast (by simp)

theorem nets_sbox (x : Combination) : Nets (sbox x) 0 :=
  (nets_alloc _).bind fun _ => (nets_enforce _ _ _).bind fun _ => (nets_mul _ _).bind fun _ =>
    (nets_mul _ _).bind fun _ => (nets_mul _ _).bind fun _ => nets_mul _ _

theorem nets_permute (input : Permutation.Lanes Combination) : Nets (permute input) 0 := by
  have full (state : Permutation.Lanes Combination) (round : ℕ) : Nets (fullRound state round) 0 :=
    ((Nets.vectorMapM nets_sbox _).bind fun _ => .pure _).cast (by simp)
  have part (state : Permutation.Lanes Combination) (round : ℕ) : Nets (partialRound state round) 0 :=
    (nets_sbox _).bind fun _ => .pure _
  exact (Nets.foldlM full _ _).bind fun _ => (Nets.foldlM part _ _).bind fun _ => Nets.foldlM full _ _

theorem nets_sponge (elements : List Combination) : Nets (sponge elements) 0 :=
  Nets.foldlM (fun _ _ => (nets_permute _).bind fun _ => .pure _) _ _

end Gadget

/-! ## Slots -/

/-- So many slots of each number of children are passed by. -/
def SlotCursor.skip (c : SlotCursor) (slots : List ℤ) : SlotCursor :=
  { c with used := fun arity => c.used arity + slots.count arity }

/-- The slot is among the next ones. -/
def SlotCursor.Reaches (c : SlotCursor) (slots : List ℤ) (key : SlotKey) : Prop :=
  key.phase = c.phase ∧ c.used key.arity ≤ key.index ∧ key.index < (c.skip slots).used key.arity

namespace SlotCursor

theorem skip_skip (c : SlotCursor) (xs ys : List ℤ) : (c.skip xs).skip ys = c.skip (xs ++ ys) := by
  simp only [skip, List.count_append, Nat.add_assoc]

theorem next_eq_skip (c : SlotCursor) (arity : ℤ) : (c.next arity).2 = c.skip [arity] := by
  simp only [next, skip, SlotCursor.mk.injEq, true_and]
  refine ⟨funext fun n => ?_, trivial⟩
  rcases eq_or_ne n arity with rfl | h
  · simp
  · simp [h, h.symm]

theorem reaches_nil (c : SlotCursor) (key : SlotKey) : ¬c.Reaches [] key := fun h =>
  absurd h.2.1 (Nat.not_le.2 h.2.2)

theorem reaches_append (c : SlotCursor) (xs ys : List ℤ) (key : SlotKey) :
    c.Reaches (xs ++ ys) key ↔ c.Reaches xs key ∨ (c.skip xs).Reaches ys key := by
  simp only [Reaches, skip, List.count_append]
  constructor
  · rintro ⟨hphase, hfrom, hto⟩
    rcases Nat.lt_or_ge key.index (c.used key.arity + xs.count key.arity) with h | h
    · exact .inl ⟨hphase, hfrom, h⟩
    · exact .inr ⟨hphase, h, by omega⟩
  · rintro (⟨hphase, hfrom, hto⟩ | ⟨hphase, hfrom, hto⟩)
    · exact ⟨hphase, hfrom, by omega⟩
    · exact ⟨hphase, by omega, by omega⟩

theorem reaches_single (c : SlotCursor) (arity : ℤ) (key : SlotKey) :
    c.Reaches [arity] key ↔ key = (c.next arity).1 := by
  obtain ⟨phase, n, index⟩ := key
  simp only [Reaches, skip, next, SlotKey.mk.injEq]
  rcases eq_or_ne n arity with rfl | h
  · simp only [List.count_singleton_self, true_and]
    refine and_congr_right fun _ => ?_
    omega
  · have hcount : [arity].count n = 0 := List.count_eq_zero.2 (by simpa using h)
    rw [hcount]
    constructor
    · rintro ⟨-, hfrom, hto⟩
      omega
    · rintro ⟨-, heq, -⟩
      exact absurd heq h

theorem reaches_beginPhase (c : SlotCursor) (phase : Phase) (xs : List ℤ) (key : SlotKey) :
    (c.beginPhase phase).Reaches xs key ↔ key.phase = phase ∧ key.index < xs.count key.arity := by
  simp [Reaches, skip, beginPhase]

theorem reaches_beginRules (c : SlotCursor) (phase : Phase) (xs ys : List ℤ) (key : SlotKey) :
    ((c.beginPhase phase).skip xs).beginRules.rewind.Reaches ys key ↔ key.phase = phase ∧
      xs.count key.arity ≤ key.index ∧ key.index < xs.count key.arity + ys.count key.arity := by
  simp [Reaches, skip, beginPhase, beginRules, rewind]

end SlotCursor

namespace Synthesis

/-- The slots that have been built. -/
def keys (s : Synthesis) : List SlotKey := s.slots.map Prod.fst

/-- Slots are built once each, with a preimage of the right size. -/
structure Orderly (s : Synthesis) : Prop where
  nodup : s.keys.Nodup
  length : ∀ {key slot}, s.slots.lookup key = some slot →
    (slot.preimage.length : ℤ) = preimageSize key.arity

/-- Variables of slots. -/
def stock (s : Synthesis) : ℤ := (s.keys.map fun key => preimageSize key.arity).sum

/-- A run leads from the first synthesis to the second at a cost. -/
structure Spends (s t : Synthesis) (net : ℤ) (slots : List ℤ) : Prop where
  orderly : t.Orderly
  balance : t.circuit.balance - t.stock = s.circuit.balance - s.stock + net
  cursor : t.cursor = s.cursor.skip slots
  keys : ∀ key, key ∈ t.keys ↔ key ∈ s.keys ∨ s.cursor.Reaches slots key

namespace Spends
variable {s t u : Synthesis} {n m : ℤ} {xs ys : List ℤ}

theorem refl (h : s.Orderly) : Spends s s 0 [] :=
  ⟨h, (add_zero _).symm, rfl, fun key => by simp [s.cursor.reaches_nil key]⟩

theorem trans (h : Spends s t n xs) (h' : Spends t u m ys) : Spends s u (n + m) (xs ++ ys) where
  orderly := h'.orderly
  balance := by rw [h'.balance, h.balance, add_assoc]
  cursor := by rw [h'.cursor, h.cursor, SlotCursor.skip_skip]
  keys key := by rw [h'.keys, h.keys, h.cursor, SlotCursor.reaches_append, or_assoc]

theorem cast (h : Spends s t n xs) (hn : n = m) (hxs : xs = ys) : Spends s t m ys := hn ▸ hxs ▸ h

end Spends

/-- Whatever is changed beside the circuit and the slots costs nothing. -/
theorem Orderly.spends {s t : Synthesis} (h : s.Orderly) {n : ℤ}
    (hbalance : t.circuit.balance = s.circuit.balance + n) (hcursor : t.cursor = s.cursor)
    (hslots : t.slots = s.slots) : s.Spends t n [] where
  orderly := ⟨by rw [keys, hslots]; exact h.nodup, fun hslot => h.length (hslots ▸ hslot)⟩
  balance := by rw [hbalance, stock, stock, keys, keys, hslots]; ring
  cursor := hcursor
  keys key := by simp [keys, hslots, s.cursor.reaches_nil key]

theorem lookup_eq_none_iff {s : Synthesis} {key : SlotKey} :
    s.slots.lookup key = none ↔ key ∉ s.keys := by
  rw [List.lookup_eq_none_iff]
  simp only [keys, List.mem_map, not_exists, not_and, bne_iff_ne, ne_eq]
  exact forall₂_congr fun p _ => by rw [eq_comm]

theorem mem_of_lookup {s : Synthesis} {key : SlotKey} {slot : HashSlot}
    (h : s.slots.lookup key = some slot) : (key, slot) ∈ s.slots := by
  obtain ⟨_, _, heq, -⟩ := List.lookup_eq_some_iff.1 h
  simp [heq]

theorem Orderly.lookup_of_mem {s : Synthesis} (h : s.Orderly) {key : SlotKey} {slot : HashSlot}
    (hmem : (key, slot) ∈ s.slots) : s.slots.lookup key = some slot := by
  obtain ⟨before, after, hslots⟩ := List.append_of_mem hmem
  refine List.lookup_eq_some_iff.2 ⟨before, after, hslots, fun p hp => ?_⟩
  have hnodup := h.nodup
  rw [keys, hslots, List.map_append, List.map_cons, List.nodup_append] at hnodup
  exact bne_iff_ne.2 (hnodup.2.2 p.1 (List.mem_map_of_mem hp) key List.mem_cons_self).symm

end Synthesis

namespace BuildM

open Synthesis (Spends Orderly)

/-- An operation spends what another one costs. -/
def Costs (rel : α → β → Prop) (x : BuildM α) (y : CostM β) : Prop :=
  ∀ s a t, s.Orderly → x.run s = .ok a t → rel a y.value ∧ s.Spends t y.net y.slots

namespace Costs

theorem pure {rel : α → β → Prop} {a : α} {b : β} (h : rel a b) :
    Costs rel (Pure.pure a) (Pure.pure b) := by
  intro s a' t hs hx
  obtain ⟨rfl, rfl⟩ := pure_eq_ok.1 hx
  exact ⟨h, .refl hs⟩

theorem bind {rel : α → β → Prop} {rel' : γ → δ → Prop} {x : BuildM α} {y : CostM β}
    {f : α → BuildM γ} {g : β → CostM δ} (hxy : Costs rel x y)
    (hfg : ∀ a b, rel a b → Costs rel' (f a) (g b)) : Costs rel' (x >>= f) (y >>= g) := by
  intro s c u hs hx
  obtain ⟨a, t, hxs, hft⟩ := bind_eq_ok.1 hx
  obtain ⟨hab, hst⟩ := hxy s a t hs hxs
  obtain ⟨hcd, htu⟩ := hfg a _ hab t c u hst.orderly hft
  exact ⟨hcd, hst.trans htu⟩

theorem cast {rel : α → β → Prop} {x : BuildM α} {y y' : CostM β} (h : Costs rel x y)
    (hy : y = y') : Costs rel x y' := hy ▸ h

theorem ofCircuit {rel : α → β → Prop} {x : CircuitM α} {n : ℤ} (hx : Circuit.Nets x n)
    (gx : Circuit.Grows x) {b : β} (h : ∀ a, rel a b) :
    Costs rel (BuildM.ofCircuit x gx) (CostM.charge n b) := by
  intro s a t hs hrun
  obtain ⟨circuit, hcircuit, rfl⟩ := Synthesis.onCircuit_eq_ok.1 hrun
  exact ⟨h a, hs.spends (hx _ _ _ hcircuit) rfl rfl⟩

end Costs

/-! ## Operations -/

theorem costs_mul (x y : Combination) :
    Costs (fun _ _ => True) (mul x y) (Pure.pure () : CostM Unit) :=
  .ofCircuit (Circuit.nets_mul x y) _ fun _ => trivial

theorem costs_select (flag x y : Combination) :
    Costs (fun _ _ => True) (select flag x y) (Pure.pure () : CostM Unit) :=
  .ofCircuit (Gadget.nets_select flag x y) _ fun _ => trivial

theorem costs_bindAll (c : Combination) {xs ys : List Combination} {n : ℕ} (hxs : xs.length = n)
    (hys : ys.length = n) :
    Costs (fun _ _ => True) (bindAll c xs ys) (CostM.charge (-n) ()) :=
  .ofCircuit (Gadget.nets_bindAll c hxs hys) _ fun _ => trivial

theorem costs_zeroTest (x : Combination) :
    Costs (fun _ _ => True) (zeroTest x) (Pure.pure ((), ()) : CostM (Unit × Unit)) := by
  intro s test t hs hrun
  rcases Synthesis.zeroTest_eq_ok.1 hrun with ⟨-, rfl⟩ | ⟨-, circuit, hcircuit, rfl⟩
  · exact ⟨trivial, .refl hs⟩
  · exact ⟨trivial, hs.spends (Gadget.nets_isZero x _ _ _ hcircuit) rfl rfl⟩

theorem costs_isZero (x : Combination) :
    Costs (fun _ _ => True) (isZero x) (Pure.pure () : CostM Unit) :=
  (costs_zeroTest x).bind fun _ _ _ => .pure trivial

theorem costs_condition (c : Option Combination) :
    Costs (fun _ _ => True) (condition c) (Pure.pure () : CostM Unit) := by
  intro s a t hs hrun
  have hrun : Synthesis.condition c s = .ok a t := hrun
  rw [Synthesis.condition_eq] at hrun
  split at hrun
  · cases hrun
    exact ⟨trivial, .refl hs⟩
  · cases hrun
    exact ⟨trivial, .refl hs⟩
  · cases hrun
    exact ⟨trivial, .refl hs⟩
  · exact costs_mul _ _ s a t hs hrun

theorem nets_buildSlot (preimage : List Int) :
    Circuit.Nets (Synthesis.buildSlot preimage) preimage.length :=
  ((Circuit.Nets.mapM Circuit.nets_alloc _).bind fun _ =>
    (Gadget.nets_sponge _).bind fun _ => .pure _).cast (by ring)

theorem length_buildSlot {name : String} {preimage : List Int} {s t : Circuit} {slot : HashSlot}
    (h : Circuit.within name (Synthesis.buildSlot preimage) s = .ok slot t) :
    slot.preimage.length = preimage.length := by
  obtain ⟨u, hrun, rfl⟩ := Circuit.within_eq_ok.1 h
  obtain ⟨xs, _, hxs, h⟩ := bind_eq_ok.1 hrun
  obtain ⟨image, _, -, h⟩ := bind_eq_ok.1 h
  cases h
  exact EStateM.length_mapM_eq_ok hxs

theorem costs_nextSlot (arity : ℕ) :
    Costs (fun slot _ => slot.preimage.length = 1 + 5 * arity) (nextSlot arity)
      (⟨(), 0, [(arity : ℤ)]⟩ : CostM Unit) := by
  intro s slot t hs hrun
  have hsize {n : ℕ} (h : (n : ℤ) = preimageSize arity) : n = 1 + 5 * arity := by
    rw [preimageSize] at h
    omega
  rcases Synthesis.nextSlot_eq_ok.1 hrun with ⟨hlookup, rfl⟩ | ⟨hlookup, hlength, circuit, hcircuit, rfl⟩
  · refine ⟨hsize (hs.length hlookup), ⟨hs.nodup, hs.length⟩, (add_zero _).symm,
      s.cursor.next_eq_skip arity, fun key => ?_⟩
    rw [SlotCursor.reaches_single]
    refine (or_iff_left_of_imp ?_).symm
    rintro rfl
    by_contra h
    rw [Synthesis.lookup_eq_none_iff.2 h] at hlookup
    cases hlookup
  · have hpreimage := (length_buildSlot hcircuit).trans (hsize hlength)
    have hnets : circuit.balance = s.circuit.balance + preimageSize arity := by
      rw [← hlength]
      exact (nets_buildSlot _).within _ _ _ _ hcircuit
    have hnew : (s.cursor.next arity).1 ∉ s.keys := Synthesis.lookup_eq_none_iff.1 hlookup
    refine ⟨hpreimage, ⟨List.nodup_cons.2 ⟨hnew, hs.nodup⟩, fun {key slot} hslot => ?_⟩, ?_,
      s.cursor.next_eq_skip arity, fun key => ?_⟩
    · rw [List.lookup_cons] at hslot
      split at hslot
      · rename_i heq
        obtain rfl := beq_iff_eq.1 heq
        cases hslot
        rw [hpreimage, preimageSize]
        rfl
      · exact hs.length hslot
    · change circuit.balance - (preimageSize arity + s.stock) = s.circuit.balance - s.stock + 0
      rw [hnets]
      ring
    · rw [SlotCursor.reaches_single]
      exact List.mem_cons.trans or_comm

theorem costs_hash (tag : Combination) (children : List Wire) (c : Option Combination) :
    Costs (fun _ _ => True) (hash tag children c)
      (CostM.slot children.length (1 + 5 * children.length) () : CostM Unit) := by
  have hcost : (CostM.slot children.length (1 + 5 * children.length) () : CostM Unit) =
      (⟨(), 0, [(children.length : ℤ)]⟩ : CostM Unit) >>= fun _ => (Pure.pure () : CostM Unit) >>=
      fun _ => CostM.charge (-(1 + 5 * children.length : ℕ)) () >>= fun _ => Pure.pure () :=
    CostM.ext rfl (by simp [CostM.net_bind, CostM.slot, CostM.charge, Pure.pure]) rfl
  rw [hcost]
  refine (costs_nextSlot _).bind fun slot _ hslot => ?_
  refine (costs_condition c).bind fun c _ _ => ?_
  have helements : (tag :: children.flatMap Wire.elements).length = 1 + 5 * children.length := by
    simp [List.length_flatMap, Wire.elements, Digest.toList]
    ring
  exact (costs_bindAll c hslot helements).bind fun _ _ _ => .pure trivial

theorem costs_unhash (p : Wire) (arity : ℕ) (c : Option Combination) :
    Costs (List.Forall₂ fun _ _ => True) (unhash p arity c)
      (CostM.slot arity 5 (List.replicate arity ()) : CostM (List Unit)) := by
  have hcost : (CostM.slot arity 5 (List.replicate arity ()) : CostM (List Unit)) =
      (⟨(), 0, [(arity : ℤ)]⟩ : CostM Unit) >>= fun _ => (Pure.pure () : CostM Unit) >>=
      fun _ => CostM.charge (-(1 : ℕ)) () >>= fun _ => CostM.charge (-(4 : ℕ)) () >>=
      fun _ => Pure.pure (List.replicate arity ()) :=
    CostM.ext rfl (by simp [CostM.net_bind, CostM.slot, CostM.charge, Pure.pure]) rfl
  rw [hcost]
  refine (costs_nextSlot arity).bind fun slot _ hslot => ?_
  refine (costs_condition c).bind fun c _ _ => ?_
  have htag : (slot.preimage.take 1).length = 1 := by
    rw [List.length_take, hslot]
    omega
  refine (costs_bindAll c htag rfl).bind fun _ _ _ => ?_
  refine (costs_bindAll (n := 4) c rfl rfl).bind fun _ _ _ => .pure ?_
  have hlength : (Wire.ofElements slot.preimage.tail).length = arity := by
    rw [Wire.length_ofElements, List.length_tail, hslot]
    omega
  rw [List.forall₂_iff_get]
  exact ⟨by simp [hlength], fun _ _ _ => trivial⟩

/-- Rules spend in circuits what they cost. -/
def costing : Simulation BuildM CostM Combination Unit Wire Unit where
  elem _ _ := True
  pointer _ _ := True
  run := Costs
  pure := .pure
  bind := .bind
  lit _ := trivial
  add _ _ := trivial
  sub _ _ := trivial
  ptr _ := trivial
  makePointer _ _ := .pure trivial
  payload _ := .pure trivial
  mul _ _ := costs_mul _ _
  div _ _ := (costs_zeroTest _).bind fun _ _ _ => (costs_mul _ _).bind fun _ _ _ =>
    .pure ⟨trivial, trivial⟩
  isZero _ := costs_isZero _
  isNegative _ := .ofCircuit (Gadget.nets_isNegative _) _ fun _ => trivial
  less _ _ := .ofCircuit (Gadget.nets_less _ _) _ fun _ => trivial
  divRem _ _ _ := (costs_condition _).bind fun _ _ _ =>
    .ofCircuit (Gadget.nets_divRem _ _ _ _) _ fun _ => ⟨trivial, trivial⟩
  select _ _ _ := costs_select _ _ _
  selectPointer _ _ _ := (costs_select _ _ _).bind fun _ _ _ => (costs_select _ _ _).bind fun _ _ _ =>
    (costs_select _ _ _).bind fun _ _ _ => (costs_select _ _ _).bind fun _ _ _ =>
    (costs_select _ _ _).bind fun _ _ _ => .pure trivial
  tagIs _ _ := costs_isZero _
  pointerEq _ _ := (costs_isZero _).bind fun _ _ _ => (costs_isZero _).bind fun _ _ _ =>
    (costs_isZero _).bind fun _ _ _ => (costs_isZero _).bind fun _ _ _ =>
    (costs_isZero _).bind fun _ _ _ => (costs_mul _ _).bind fun _ _ _ =>
    (costs_mul _ _).bind fun _ _ _ => (costs_mul _ _).bind fun _ _ _ => costs_mul _ _
  hash {_ _ ps qs c _} _ hs _ := by
    change Costs _ _ (CostM.slot qs.length (1 + 5 * qs.length) ())
    exact hs.length_eq ▸ costs_hash _ ps c
  unhash {_ _} arity {_ _} _ _ := costs_unhash _ arity _
  emit _ _ := .pure trivial

end BuildM

end FieldLisp
