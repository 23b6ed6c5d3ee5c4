import FieldLisp.Proofs.Circuit.Growth
import FieldLisp.Proofs.Permutation.Layers
import FieldLisp.Proofs.PrimeField

/-!
# Combinations of variables that exist

A combination is in scope of a circuit if it is made of its variables, with coefficients that are
canonical and not zero. Operations keep this up, whether there is a limit or not:

* `InScope.add`, `InScope.scale`: sums drop what cancels, and a field has no zero divisors;
* `Yields`: an operation that succeeds does what it would do without a limit, and its result is good
  for the variables that there are then;
* `yields_less`, `yields_divRem`, `yields_sponge`: what gadgets give is in scope.
-/

namespace FieldLisp

namespace Combination

/-- A term over the first `size` variables, with a canonical coefficient that is not zero. -/
def ProperTerm (size : ℕ) (t : Term) : Prop := t.1 < size ∧ Field.Canonical t.2 ∧ t.2 ≠ 0

/-- All terms are proper ones over the first `size` variables. -/
def InScope (size : ℕ) (x : Combination) : Prop := ∀ t ∈ x.terms, ProperTerm size t

theorem ProperTerm.mono {m n : ℕ} {t : Term} (h : ProperTerm m t) (hmn : m ≤ n) : ProperTerm n t :=
  ⟨h.1.trans_le hmn, h.2⟩

theorem forall_mem_put {size i : ℕ} {c : Int} {rest : List Term} (hi : i < size)
    (hc : Field.Canonical c) (hrest : ∀ t ∈ rest, ProperTerm size t) :
    ∀ t ∈ put i c rest, ProperTerm size t := by
  intro t ht
  unfold put at ht
  split at ht
  · exact hrest t ht
  · rename_i hne
    rcases List.mem_cons.1 ht with rfl | ht
    · exact ⟨hi, hc, hne⟩
    · exact hrest t ht

theorem forall_mem_mergeTerm {size i : ℕ} {c : Int} {rest : List Term → List Term}
    (hterm : ProperTerm size (i, c))
    (hrest : ∀ ys, (∀ t ∈ ys, ProperTerm size t) → ∀ t ∈ rest ys, ProperTerm size t)
    {ys : List Term} (hys : ∀ t ∈ ys, ProperTerm size t) :
    ∀ t ∈ mergeTerm i c rest ys, ProperTerm size t := by
  induction ys with
  | nil =>
    rw [mergeTerm]
    exact List.forall_mem_cons.2 ⟨hterm, hrest [] hys⟩
  | cons y ys ih =>
    obtain ⟨j, d⟩ := y
    obtain ⟨hy, htail⟩ := List.forall_mem_cons.1 hys
    rw [mergeTerm]
    split
    · exact List.forall_mem_cons.2 ⟨hy, ih htail⟩
    · split
      · exact List.forall_mem_cons.2 ⟨hterm, hrest _ hys⟩
      · exact forall_mem_put hterm.1 (Field.reduce_canonical _) (hrest ys htail)

theorem forall_mem_mergeTerms {size : ℕ} {xs ys : List Term} (hxs : ∀ t ∈ xs, ProperTerm size t)
    (hys : ∀ t ∈ ys, ProperTerm size t) : ∀ t ∈ mergeTerms xs ys, ProperTerm size t := by
  induction xs generalizing ys with
  | nil => simpa [mergeTerms] using hys
  | cons x xs ih =>
    obtain ⟨hx, htail⟩ := List.forall_mem_cons.1 hxs
    rw [mergeTerms]
    exact forall_mem_mergeTerm hx (fun _ => ih htail) hys

namespace InScope
variable {m n : ℕ} {x y : Combination}

theorem mono (h : x.InScope m) (hmn : m ≤ n) : x.InScope n := fun t ht => (h t ht).mono hmn

theorem zero : (0 : Combination).InScope n := fun _ ht => by cases ht

theorem constant (v : Int) (hn : 0 < n) : (Combination.constant v).InScope n := by
  intro t ht
  simp only [Combination.constant] at ht
  split at ht
  · cases ht
  · rename_i hne
    rw [List.mem_singleton] at ht
    subst ht
    exact ⟨hn, Field.reduce_canonical v, hne⟩

theorem one (hn : 0 < n) : (1 : Combination).InScope n := constant 1 hn

theorem ofVariable {i : ℕ} (v : Int) (hi : i < n) : (Combination.ofVariable i v).InScope n := by
  intro t ht
  obtain rfl := List.mem_singleton.1 ht
  exact ⟨hi, Field.canonical_one, one_ne_zero⟩

theorem add (hx : x.InScope n) (hy : y.InScope n) : (x + y).InScope n :=
  forall_mem_mergeTerms hx hy

/-- A multiple by an integer that is not zero in the field drops no term. -/
theorem scale (hx : x.InScope n) (k : Int) : (x * k).InScope n := by
  change (x.scale k).InScope n
  unfold Combination.scale
  dsimp only
  split
  · exact zero
  · rename_i hk
    intro t ht
    obtain ⟨t, hmem, rfl⟩ := List.mem_map.1 ht
    obtain ⟨hlt, hcanonical, hne⟩ := hx t hmem
    refine ⟨hlt, Field.reduce_canonical _, fun hzero => ?_⟩
    have hproduct : (t.2 : Field.Element) * (k : Field.Element) = 0 := by
      have hcast := congrArg (fun c : Int => (c : Field.Element)) hzero
      simpa using hcast
    rcases mul_eq_zero.1 hproduct with h | h
    · exact hne ((Field.cast_eq_zero hcanonical).1 h)
    · rw [← Field.cast_reduce k] at h
      exact hk ((Field.cast_eq_zero (Field.reduce_canonical k)).1 h)

theorem neg (hx : x.InScope n) : (-x).InScope n := hx.scale (-1)

theorem sub (hx : x.InScope n) (hy : y.InScope n) : (x - y).InScope n := hx.add hy.neg

theorem sum {xs : List Combination} (hx : x.InScope n) (hxs : ∀ y ∈ xs, y.InScope n) :
    (xs.foldl (· + ·) x).InScope n := by
  induction xs generalizing x with
  | nil => exact hx
  | cons y ys ih =>
    obtain ⟨hy, hys⟩ := List.forall_mem_cons.1 hxs
    exact ih (hx.add hy) hys

end InScope

end Combination

/-! ## Operations that may meet a limit -/

namespace Circuit

/-- The circuit without its limit. -/
def unlimited (s : Circuit) : Circuit := { s with limit := none }

/-- Where the first `n` variables exist, a run that succeeds also succeeds without a limit, to the
same effect, and its result is good for the variables that exist afterwards. -/
def Yields (n : ℕ) (x : CircuitM α) (good : ℕ → α → Prop) : Prop :=
  ∀ s a t, n ≤ s.assignment.size → x s = .ok a t →
    x s.unlimited = .ok a t.unlimited ∧ n ≤ t.assignment.size ∧ good t.assignment.size a

namespace Yields
variable {ι : Type*} {α β : Type} {n : ℕ}

theorem pure {a : α} {good : ℕ → α → Prop} (h : ∀ m, n ≤ m → good m a) :
    Yields n (Pure.pure a) good := by
  intro s b t hn hrun
  obtain ⟨rfl, rfl⟩ := EStateM.pure_eq_ok.1 hrun
  exact ⟨rfl, hn, h _ hn⟩

theorem bind {x : CircuitM α} {f : α → CircuitM β} {mid : ℕ → α → Prop} {good : ℕ → β → Prop}
    (hx : Yields n x mid) (hf : ∀ m a, n ≤ m → mid m a → Yields m (f a) good) :
    Yields n (x >>= f) good := by
  intro s b u hn hrun
  obtain ⟨a, t, hxs, hft⟩ := EStateM.bind_eq_ok.1 hrun
  obtain ⟨hfree, hle, ha⟩ := hx s a t hn hxs
  obtain ⟨hfree', hle', hb⟩ := hf _ a hle ha t b u le_rfl hft
  exact ⟨(EStateM.bind_of_ok hfree f).trans hfree', hle.trans hle', hb⟩

theorem mono {x : CircuitM α} {good good' : ℕ → α → Prop} (hx : Yields n x good)
    (h : ∀ m a, n ≤ m → good m a → good' m a) : Yields n x good' := by
  intro s a t hn hrun
  obtain ⟨hfree, hle, ha⟩ := hx s a t hn hrun
  exact ⟨hfree, hle, h _ a hle ha⟩

/-- A loop yields good results if each turn does, on all the variables that there may be then. -/
theorem mapM {f : ι → CircuitM β} {good : ℕ → β → Prop} {xs : List ι}
    (hgood : ∀ {m k b}, m ≤ k → good m b → good k b)
    (hf : ∀ m a, n ≤ m → a ∈ xs → Yields m (f a) good) :
    Yields n (xs.mapM f) fun m ys => ∀ y ∈ ys, good m y := by
  induction xs generalizing n with
  | nil => exact .pure fun _ _ => by simp
  | cons x xs ih =>
    rw [List.mapM_cons]
    refine (hf n x le_rfl List.mem_cons_self).bind fun m y hm hy => ?_
    refine (ih fun k a hk ha => hf k a (hm.trans hk) (List.mem_cons_of_mem _ ha)).bind
      fun k ys hk hys => .pure fun l hl => ?_
    rw [List.forall_mem_cons]
    exact ⟨hgood (hk.trans hl) hy, fun z hz => hgood hl (hys z hz)⟩

theorem foldlM {f : β → ι → CircuitM β} {good : ℕ → β → Prop} {xs : List ι} {b : β}
    (hb : ∀ m, n ≤ m → good m b)
    (hgood : ∀ {m k b}, m ≤ k → good m b → good k b)
    (hf : ∀ m b a, n ≤ m → good m b → a ∈ xs → Yields m (f b a) good) :
    Yields n (xs.foldlM f b) good := by
  induction xs generalizing n b with
  | nil => exact .pure hb
  | cons x xs ih =>
    refine (hf n b x le_rfl (hb n le_rfl) List.mem_cons_self).bind fun m c hm hc => ?_
    exact ih (fun k hk => hgood hk hc)
      fun k d a hk hd ha => hf k d a (hm.trans hk) hd (List.mem_cons_of_mem _ ha)

theorem vectorMapM {k : ℕ} {f : α → CircuitM β} {good : ℕ → β → Prop} {xs : Vector α k}
    (hgood : ∀ {m k b}, m ≤ k → good m b → good k b)
    (hf : ∀ m a, n ≤ m → a ∈ xs → Yields m (f a) good) :
    Yields n (xs.mapM f) fun m ys => ∀ y ∈ ys, good m y := by
  intro s ys t hn hrun
  have hlist : Yields n (xs.toList.mapM f) fun m ys => ∀ y ∈ ys, good m y :=
    mapM hgood fun m a hm ha => hf m a hm (Vector.mem_toList_iff.1 ha)
  obtain ⟨hfree, hle, hys⟩ := hlist s ys.toList t hn (EStateM.toList_mapM_eq_ok hrun)
  exact ⟨EStateM.toList_mapM_eq_ok_iff.1 hfree, hle, fun y hy => hys y (Vector.mem_toList_iff.2 hy)⟩

end Yields

section
variable {n : ℕ} {x y c : Combination}

theorem yields_alloc (v : Int) : Yields n (alloc v) fun m c => c.InScope m := by
  intro s a t hn hrun
  cases hrun
  refine ⟨rfl, ?_, ?_⟩
  · rw [Array.size_push]
    omega
  · exact .ofVariable _ (by rw [Array.size_push]; omega)

theorem yields_allocPublic (v : Int) : Yields n (allocPublic v) fun m c => c.InScope m := by
  intro s a t hn hrun
  unfold allocPublic at hrun ⊢
  split at hrun
  · rename_i hfirst
    obtain ⟨hfree, hrest⟩ := yields_alloc v { s with publicCount := s.publicCount + 1 } a t hn hrun
    exact ⟨(if_pos hfirst).trans hfree, hrest⟩
  · cases hrun

theorem yields_enforce (a b c : Combination) : Yields n (enforce a b c) fun _ _ => True := by
  intro s u t hn hrun
  unfold enforce checkRoom at hrun
  split at hrun
  · cases hrun
  · rename_i hroom
    split at hroom
    · cases hroom
    · cases hroom
      cases hrun
      exact ⟨enforce_eq rfl a b c, hn, trivial⟩

theorem yields_mul (hx : x.InScope n) (hy : y.InScope n) :
    Yields n (mul x y) fun m c => c.InScope m := by
  unfold mul
  split
  · exact .pure fun _ hm => (hy.scale _).mono hm
  · split
    · exact .pure fun _ hm => (hx.scale _).mono hm
    · exact (yields_alloc _).bind fun _ c _ hc => (yields_enforce _ _ _).bind fun _ _ hm _ =>
        .pure fun _ hk => hc.mono (hm.trans hk)

end

end Circuit

/-! ## Gadgets -/

namespace Gadget

open Circuit
open Permutation (Lanes)

section
variable {n : ℕ} {x y c flag : Combination}

theorem yields_allocBit (value : Bool) : Yields n (allocBit value) fun m b => b.InScope m :=
  (yields_alloc _).bind fun _ _ _ hb => (yields_enforce _ _ _).bind fun _ _ hm _ =>
    .pure fun _ hk => hb.mono (hm.trans hk)

theorem yields_isZero (hn : 0 < n) (x : Combination) :
    Yields n (isZero x) fun m test => test.1.InScope m ∧ test.2.InScope m := by
  unfold isZero
  dsimp only
  split
  · exact .pure fun _ hm => ⟨.constant _ (hn.trans_le hm), .constant _ (hn.trans_le hm)⟩
  · refine (yields_alloc _).bind fun _ inverse _ hinverse => ?_
    refine (yields_alloc _).bind fun _ zero h₁ hzero => ?_
    refine (yields_enforce _ _ _).bind fun _ _ h₂ _ => ?_
    refine (yields_enforce _ _ _).bind fun _ _ h₃ _ => ?_
    refine .pure fun _ h₄ => ⟨hzero.mono ?_, hinverse.mono ?_⟩ <;> omega

theorem yields_impliesEqual (c x y : Combination) :
    Yields n (impliesEqual c x y) fun _ _ => True := yields_enforce _ _ _

theorem yields_select (hflag : flag.InScope n) (hy : y.InScope n) :
    Yields n (select flag x y) fun m chosen => chosen.InScope m := by
  unfold select
  dsimp only
  split
  · exact .pure fun _ hm => (hy.add (hflag.scale _)).mono hm
  · exact (yields_alloc _).bind fun _ _ _ hc => (yields_enforce _ _ _).bind fun _ _ hm _ =>
      .pure fun _ hk => hc.mono (hm.trans hk)

/-- Flags that are made one after the other, and then bound together. -/
theorem yields_flags (value : ℕ → Bool) (count : ℕ) (a b c : List Combination → Combination) :
    Yields n (do
      let flags ← (List.range count).mapM fun i => allocBit (value i)
      enforce (a flags) (b flags) (c flags)
      pure flags) fun m flags => ∀ f ∈ flags, f.InScope m := by
  refine (Yields.mapM (fun hm h => h.mono hm) fun _ _ _ _ => yields_allocBit _).bind
    fun _ flags _ hflags => (yields_enforce _ _ _).bind fun _ _ hm _ => .pure fun _ hk f hf => ?_
  exact (hflags f hf).mono (hm.trans hk)

theorem yields_bits (x : Combination) (count : ℕ) :
    Yields n (bits x count) fun m digits => ∀ d ∈ digits, d.InScope m :=
  yields_flags (x.value.toNat.testBit ·) count weighted (fun _ => 1) fun _ => x

theorem yields_oneHot (index : Int) (count : ℕ) :
    Yields n (oneHot index count) fun m flags => ∀ f ∈ flags, f.InScope m :=
  yields_flags (Int.ofNat · == index) count (·.foldl (· + ·) 0) (fun _ => 1) fun _ => 1

theorem yields_isNegative (hx : x.InScope n) :
    Yields n (isNegative x) fun m flag => flag.InScope m := by
  refine (yields_allocBit _).bind fun _ flag h₁ hflag => ?_
  refine (yields_mul hflag (hx.mono h₁)).bind fun _ product h₂ _ => ?_
  refine (yields_bits _ _).bind fun _ _ h₃ _ => ?_
  refine (yields_bits _ _).bind fun _ _ h₄ _ => ?_
  exact .pure fun _ h₅ => hflag.mono (by omega)

theorem yields_less (hn : 0 < n) (hx : x.InScope n) (hy : y.InScope n) :
    Yields n (less x y) fun m flag => flag.InScope m := by
  refine (yields_isNegative hx).bind fun _ nx h₁ hnx => ?_
  refine (yields_isNegative (hy.mono h₁)).bind fun _ ny h₂ hny => ?_
  refine (yields_isNegative ((hx.sub hy).mono (h₁.trans h₂))).bind fun _ nd h₃ hnd => ?_
  have hnx := hnx.mono (h₂.trans h₃)
  have hny := hny.mono h₃
  refine (yields_mul hnx hny).bind fun _ both h₄ hboth => ?_
  have hone : (1 : Combination).InScope _ := .one (hn.trans_le (h₁.trans (h₂.trans (h₃.trans h₄))))
  exact yields_select (((hone.sub (hnx.mono h₄)).sub (hny.mono h₄)).add (hboth.scale 2))
    (hnx.mono h₄)

theorem yields_divRem (hn : 0 < n) (hc : c.InScope n) (hy : y.InScope n) (count : ℕ) :
    Yields n (divRem c x y count) fun m result => result.1.InScope m ∧ result.2.InScope m := by
  unfold divRem
  dsimp only
  refine (yields_alloc _).bind fun _ q h₁ hq => ?_
  refine (yields_alloc _).bind fun _ r h₂ hr => ?_
  refine (yields_bits _ _).bind fun _ _ h₃ _ => ?_
  refine (yields_bits _ _).bind fun k _ h₄ _ => ?_
  have hnk : n ≤ k := by omega
  have hq := hq.mono (h₂.trans (h₃.trans h₄))
  have hr := hr.mono (h₃.trans h₄)
  have hy := hy.mono hnk
  have hshort : (y - r - 1).InScope k := (hy.sub hr).sub (.one (hn.trans_le hnk))
  refine (yields_mul (hc.mono hnk) hshort).bind fun _ _ h₅ _ => ?_
  refine (yields_bits _ _).bind fun _ _ h₆ _ => ?_
  have h := h₅.trans h₆
  refine (yields_mul (hy.mono h) (hq.mono h)).bind fun _ _ h₇ _ => ?_
  refine (yields_impliesEqual _ _ _).bind fun _ _ h₈ _ => ?_
  exact .pure fun _ h₉ => ⟨hq.mono (by omega), hr.mono (by omega)⟩

end

/-! ## The sponge -/

section
variable {m n : ℕ}

/-- All lanes are in scope. -/
def LanesInScope (n : ℕ) (state : Lanes Combination) : Prop :=
  ∀ (i : ℕ) (h : i < 16), state[i].InScope n

theorem LanesInScope.mono {state : Lanes Combination} (h : LanesInScope m state) (hmn : m ≤ n) :
    LanesInScope n state := fun i hi => (h i hi).mono hmn

theorem LanesInScope.get {state : Lanes Combination} (h : LanesInScope n state) (i : Fin 16) :
    (state.get i).InScope n := h i i.isLt

/-- Sums and multiples stay in scope, whatever numbers they are held against. -/
theorem linear_inScope (n : ℕ) : Linear fun (x : Combination) (_ : Int) => x.InScope n where
  zero := .zero
  add h h' := h.add h'
  scale h k := h.scale k

theorem LanesInScope.related {state : Lanes Combination} (h : LanesInScope n state) :
    Permutation.Related (fun (x : Combination) (_ : Int) => x.InScope n) state
      (Vector.replicate 16 0) := fun i hi => h i hi

theorem yields_sbox {x : Combination} : Yields n (sbox x) fun k y => y.InScope k := by
  refine (yields_alloc _).bind fun _ x₁ _ hx₁ => ?_
  refine (yields_enforce _ _ _).bind fun _ _ h₁ _ => ?_
  have hx₁ := hx₁.mono h₁
  refine (yields_mul hx₁ hx₁).bind fun _ x₂ h₂ hx₂ => ?_
  refine (yields_mul hx₂ (hx₁.mono h₂)).bind fun _ x₃ h₃ hx₃ => ?_
  have hx₂ := hx₂.mono h₃
  refine (yields_mul hx₂ hx₂).bind fun _ x₄ h₄ hx₄ => ?_
  exact yields_mul (hx₃.mono h₄) hx₄

theorem yields_fullRound (state : Lanes Combination) (round : ℕ) :
    Yields n (fullRound state round) LanesInScope := by
  refine (Yields.vectorMapM (fun h hy => hy.mono h) fun _ _ _ _ => yields_sbox).bind
    fun k outputs _ houtputs => .pure fun l hl => ?_
  have hlanes : LanesInScope l outputs :=
    fun i hi => (houtputs _ (Vector.getElem_mem hi)).mono hl
  exact Permutation.mixExternal_related (linear_inScope l) hlanes.related

theorem yields_partialRound {state : Lanes Combination} (hstate : LanesInScope n state)
    (round : ℕ) : Yields n (partialRound state round) LanesInScope := by
  refine yields_sbox.bind fun k first hk hfirst => .pure fun l hl => ?_
  have hlanes := Permutation.setFirst_related (hstate.mono (hk.trans hl)).related
    (y := 0) (hfirst.mono hl)
  exact Permutation.mixInternal_related (linear_inScope l) hlanes

theorem yields_permute {input : Lanes Combination} (hinput : LanesInScope n input) :
    Yields n (permute input) LanesInScope := by
  have start : LanesInScope n (Permutation.mixExternal input) :=
    Permutation.mixExternal_related (linear_inScope n) hinput.related
  refine (Yields.foldlM (fun _ => start.mono) (fun h hs => hs.mono h)
    fun _ state round _ _ _ => yields_fullRound state round).bind fun k opening _ hopening => ?_
  refine (Yields.foldlM (fun _ => hopening.mono) (fun h hs => hs.mono h)
    fun _ _ round _ hstate _ => yields_partialRound hstate round).bind fun l middle _ hmiddle => ?_
  exact .foldlM (fun _ => hmiddle.mono) (fun h hs => hs.mono h)
    fun _ state round _ _ _ => yields_fullRound state round

theorem yields_permuteList {input : List Combination} (hinput : ∀ x ∈ input, x.InScope n) :
    Yields n (permuteList input) fun k output => ∀ y ∈ output, y.InScope k := by
  unfold permuteList
  split
  · rename_i hsize
    have hlanes : LanesInScope n ⟨input.toArray, hsize⟩ := by
      intro i hi
      refine hinput _ (List.mem_toArray.1 (Array.getElem_mem ?_))
      exact hi.trans_eq hsize.symm
    refine (yields_permute hlanes).bind fun _ output _ houtput => .pure fun _ hk y hy => ?_
    obtain ⟨i, hi, rfl⟩ := Vector.getElem_of_mem (Vector.mem_toList_iff.1 hy)
    exact (houtput i hi).mono hk
  · intro s a t _ hrun
    cases hrun

theorem lanesInScope_lanes {block : List Combination} {capacity : Digest Combination}
    (hblock : ∀ x ∈ block, x.InScope n) (hcapacity : ∀ x ∈ capacity.toList, x.InScope n) :
    LanesInScope n (Sponge.lanes block capacity) := by
  have getD {xs : List Combination} (h : ∀ x ∈ xs, x.InScope n) (i : ℕ) :
      (xs.getD i 0).InScope n := by
    rw [List.getD_eq_getElem?_getD]
    cases hi : xs[i]? with
    | none => exact .zero
    | some x => exact h x (List.mem_of_getElem? hi)
  intro i hi
  simp only [Sponge.lanes, Vector.getElem_ofFn]
  split
  · exact getD hblock _
  · exact getD hcapacity _

theorem mem_of_mem_blocks {α : Type} {size count : ℕ} {xs block : List α}
    (h : block ∈ blocks size count xs) : block ⊆ xs := by
  induction count generalizing xs with
  | zero => cases h
  | succ count ih =>
    rcases List.mem_cons.1 h with rfl | h
    · exact List.take_subset _ _
    · exact List.Subset.trans (ih h) (List.drop_subset _ _)

theorem yields_sponge {elements : List Combination} (hn : 0 < n)
    (helements : ∀ x ∈ elements, x.InScope n) :
    Yields n (sponge elements) fun k image => ∀ y ∈ image.toList, y.InScope k := by
  have start (k : ℕ) (hk : n ≤ k) (y : Combination)
      (hy : y ∈ ((Sponge.initialCapacity elements.length).map Combination.constant).toList) :
      y.InScope k := by
    rw [Digest.toList_map] at hy
    obtain ⟨v, -, rfl⟩ := List.mem_map.1 hy
    exact .constant v (hn.trans_le hk)
  refine Yields.foldlM start (fun h himage y hy => (himage y hy).mono h)
    fun k capacity block hk hcapacity hblock => ?_
  have hlanes := lanesInScope_lanes
    (fun x hx => (helements x (mem_of_mem_blocks hblock hx)).mono hk) hcapacity
  refine (yields_permute hlanes).bind fun _ output _ houtput => .pure fun _ hl y hy => ?_
  simp only [Permutation.front, Digest.toList, List.mem_cons, List.not_mem_nil, or_false] at hy
  rcases hy with rfl | rfl | rfl | rfl
  all_goals exact (houtput.get _).mono hl

end

end Gadget

end FieldLisp
