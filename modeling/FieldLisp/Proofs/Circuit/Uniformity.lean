import FieldLisp.Proofs.Circuit.FrameBuilding
import FieldLisp.Proofs.Circuit.Uniform

/-!
# The layout of a frame does not depend on the frame

Two frames are built in step, operation by operation: zero tests are shared and slots are built at the
same places, for both are found by terms and by numbers.

* `Synthesis.SameLayout`: syntheses that differ in their values only;
* `BuildM.Uniform`: two runs that lay out the same;
* `BuildM.uniformity`: rules lay out the same in two runs.
-/

namespace FieldLisp

open EStateM (bind_eq_ok pure_eq_ok)
open Combination (Alike)

/-- Wires whose combinations are alike. -/
structure Wire.Alike (ω₁ ω₂ : Valuation) (w v : Wire) : Prop where
  tag : Combination.Alike ω₁ ω₂ w.tag v.tag
  d0 : Combination.Alike ω₁ ω₂ w.digest.d0 v.digest.d0
  d1 : Combination.Alike ω₁ ω₂ w.digest.d1 v.digest.d1
  d2 : Combination.Alike ω₁ ω₂ w.digest.d2 v.digest.d2
  d3 : Combination.Alike ω₁ ω₂ w.digest.d3 v.digest.d3

namespace Wire.Alike
variable {ω₁ ω₂ : Valuation} {w v : Wire}

theorem digest (h : Wire.Alike ω₁ ω₂ w v) :
    List.Forall₂ (Combination.Alike ω₁ ω₂) w.digest.toList v.digest.toList :=
  .cons h.d0 (.cons h.d1 (.cons h.d2 (.cons h.d3 .nil)))

theorem elements (h : Wire.Alike ω₁ ω₂ w v) :
    List.Forall₂ (Combination.Alike ω₁ ω₂) w.elements v.elements := .cons h.tag h.digest

theorem of_digest {tag tag' : Combination} {d e : Digest Combination}
    (htag : Combination.Alike ω₁ ω₂ tag tag')
    (h : List.Forall₂ (Combination.Alike ω₁ ω₂) d.toList e.toList) :
    Wire.Alike ω₁ ω₂ ⟨tag, d⟩ ⟨tag', e⟩ := by
  obtain ⟨d0, d1, d2, d3⟩ := d
  obtain ⟨e0, e1, e2, e3⟩ := e
  simp only [Digest.toList, List.forall₂_cons] at h
  exact ⟨htag, h.1, h.2.1, h.2.2.1, h.2.2.2.1⟩

theorem constant (p : Pointer) : Wire.Alike ω₁ ω₂ (.constant p) (.constant p) := by
  have hplace (i : ℕ) : Combination.Alike ω₁ ω₂ ((p.digest.map Combination.constant).getD i 0)
      ((p.digest.map Combination.constant).getD i 0) := by
    rw [List.getD_eq_getElem?_getD, List.getElem?_map]
    cases p.digest[i]? with
    | none => exact .zero
    | some n => exact .constant n
  exact ⟨.constant _, hplace 0, hplace 1, hplace 2, hplace 3⟩

/-- Pointers that follow each other in lists of alike combinations are alike. -/
theorem ofElements {xs ys : List Combination} (h : List.Forall₂ (Combination.Alike ω₁ ω₂) xs ys) :
    List.Forall₂ (Wire.Alike ω₁ ω₂) (Wire.ofElements xs) (Wire.ofElements ys) := by
  induction xs using Wire.ofElements.induct generalizing ys with
  | case1 tag d0 d1 d2 d3 rest ih =>
    simp only [List.forall₂_cons_left_iff] at h
    obtain ⟨tag', _, htag, ⟨e0, _, h0, ⟨e1, _, h1, ⟨e2, _, h2, ⟨e3, rest', h3, hrest, rfl⟩, rfl⟩, rfl⟩,
      rfl⟩, rfl⟩ := h
    exact .cons ⟨htag, h0, h1, h2, h3⟩ (ih hrest)
  | case2 xs hshort =>
    have hnone : Wire.ofElements xs = [] := by
      unfold Wire.ofElements
      split
      · exact absurd rfl (hshort _ _ _ _ _ _)
      · rfl
    have hlength : (Wire.ofElements ys).length = 0 := by
      rw [Wire.length_ofElements, ← h.length_eq, ← Wire.length_ofElements, hnone, List.length_nil]
    rw [hnone, List.length_eq_zero_iff.1 hlength]
    exact .nil

end Wire.Alike

/-- Slots whose combinations are alike. -/
structure HashSlot.Alike (ω₁ ω₂ : Valuation) (x y : HashSlot) : Prop where
  preimage : List.Forall₂ (Combination.Alike ω₁ ω₂) x.preimage y.preimage
  image : List.Forall₂ (Combination.Alike ω₁ ω₂) x.image.toList y.image.toList

/-- Zero tests whose combinations are alike. -/
def TestAlike (ω₁ ω₂ : Valuation) (p q : Combination × Combination) : Prop :=
  Combination.Alike ω₁ ω₂ p.1 q.1 ∧ Combination.Alike ω₁ ω₂ p.2 q.2

/-- Syntheses that differ in their values only. -/
structure Synthesis.SameLayout (ω₁ ω₂ : Valuation) (s t : Synthesis) : Prop where
  circuit : s.circuit.SameLayout t.circuit
  cursor : s.cursor = t.cursor
  gate : Option.Rel (Combination.Alike ω₁ ω₂) s.gate t.gate
  slots : ∀ key, Option.Rel (HashSlot.Alike ω₁ ω₂) (s.slots.lookup key) (t.slots.lookup key)
  zeroTests : ∀ terms,
    Option.Rel (TestAlike ω₁ ω₂) (s.zeroTests.lookup terms) (t.zeroTests.lookup terms)

namespace BuildM
variable {ω₁ ω₂ : Valuation}

/-- Two runs lay out the same. What they return is related where each valuation is the one that its
circuit ends up with. -/
def Uniform (ω₁ ω₂ : Valuation) (rel : α → β → Prop) (x : BuildM α) (y : BuildM β) : Prop :=
  ∀ s t a b s' t', s.SameLayout ω₁ ω₂ t → x.run s = .ok a s' → y.run t = .ok b t' →
    s'.circuit.Fits ω₁ → t'.circuit.Fits ω₂ → rel a b ∧ s'.SameLayout ω₁ ω₂ t'

namespace Uniform

theorem pure {rel : α → β → Prop} {a : α} {b : β} (h : rel a b) :
    Uniform ω₁ ω₂ rel (Pure.pure a) (Pure.pure b) := by
  intro s t a' b' s' t' hst hx hy _ _
  obtain ⟨rfl, rfl⟩ := pure_eq_ok.1 hx
  obtain ⟨rfl, rfl⟩ := pure_eq_ok.1 hy
  exact ⟨h, hst⟩

theorem bind {rel : α → β → Prop} {rel' : γ → δ → Prop} {x : BuildM α} {y : BuildM β}
    {f : α → BuildM γ} {g : β → BuildM δ} (hxy : Uniform ω₁ ω₂ rel x y)
    (hfg : ∀ a b, rel a b → Uniform ω₁ ω₂ rel' (f a) (g b)) :
    Uniform ω₁ ω₂ rel' (x >>= f) (y >>= g) := by
  intro s t c d s' t' hst hx hy hfits hfits'
  obtain ⟨a, s₁, hxs, hf⟩ := bind_eq_ok.1 hx
  obtain ⟨b, t₁, hyt, hg⟩ := bind_eq_ok.1 hy
  have hext := (f a).grows.extends_
    ((x.grows.extends_ hst.circuit.limit hxs).limit hst.circuit.limit) hf
  have hext' := (g b).grows.extends_
    ((y.grows.extends_ hst.circuit.limit' hyt).limit hst.circuit.limit') hg
  obtain ⟨hab, hst₁⟩ := hxy _ _ _ _ _ _ hst hxs hyt (hext.circuit.fits hfits)
    (hext'.circuit.fits hfits')
  exact hfg a b hab _ _ _ _ _ _ hst₁ hf hg hfits hfits'

theorem mono {rel rel' : α → β → Prop} {x : BuildM α} {y : BuildM β}
    (hxy : Uniform ω₁ ω₂ rel x y) (h : ∀ a b, rel a b → rel' a b) : Uniform ω₁ ω₂ rel' x y :=
  fun _ _ _ _ _ _ hst hx hy hfits hfits' =>
    (hxy _ _ _ _ _ _ hst hx hy hfits hfits').imp_left (h _ _)

theorem ofCircuit {rel : α → β → Prop} {x : CircuitM α} {y : CircuitM β}
    (hxy : Circuit.Uniform ω₁ ω₂ rel x y) (gx : Circuit.Grows x) (gy : Circuit.Grows y) :
    Uniform ω₁ ω₂ rel (.ofCircuit x gx) (.ofCircuit y gy) := by
  intro s t a b s' t' hst hx hy hfits hfits'
  obtain ⟨c, hc, rfl⟩ := Synthesis.onCircuit_eq_ok.1 hx
  obtain ⟨d, hd, rfl⟩ := Synthesis.onCircuit_eq_ok.1 hy
  obtain ⟨hab, hcd⟩ := hxy _ _ _ _ _ _ hst.circuit hc hd hfits hfits'
  exact ⟨hab, hcd, hst.cursor, hst.gate, hst.slots, hst.zeroTests⟩

theorem forM {rel : α → β → Prop} {f : α → BuildM Unit} {g : β → BuildM Unit}
    (hfg : ∀ a b, rel a b → Uniform ω₁ ω₂ (fun _ _ => True) (f a) (g b)) {xs : List α} {ys : List β}
    (h : List.Forall₂ rel xs ys) : Uniform ω₁ ω₂ (fun _ _ => True) (xs.forM f) (ys.forM g) := by
  induction h with
  | nil => exact .pure trivial
  | cons hab _ ih => exact (hfg _ _ hab).bind fun _ _ _ => ih

theorem within {rel : α → β → Prop} {x : BuildM α} {y : BuildM β}
    (hxy : Uniform ω₁ ω₂ rel x y) (name : String) :
    Uniform ω₁ ω₂ rel (BuildM.within name x) (BuildM.within name y) := by
  intro s t a b s' t' hst hx hy hfits hfits'
  obtain ⟨u, hrun, rfl⟩ := Synthesis.within_eq_ok.1 hx
  obtain ⟨v, hrun', rfl⟩ := Synthesis.within_eq_ok.1 hy
  have henter : Synthesis.SameLayout ω₁ ω₂ { s with circuit := s.circuit.enter name }
      { t with circuit := t.circuit.enter name } :=
    ⟨hst.circuit.enter name, hst.cursor, hst.gate, hst.slots, hst.zeroTests⟩
  obtain ⟨hab, huv⟩ := hxy _ _ _ _ _ _ henter hrun hrun' hfits hfits'
  exact ⟨hab, huv.circuit.leave, huv.cursor, huv.gate, huv.slots, huv.zeroTests⟩

theorem onCursor (change : SlotCursor → SlotCursor) :
    Uniform ω₁ ω₂ (fun _ _ => True) (.onCursor change) (.onCursor change) := by
  intro s t a b s' t' hst hx hy _ _
  cases hx
  cases hy
  exact ⟨trivial, hst.circuit, congrArg change hst.cursor, hst.gate, hst.slots, hst.zeroTests⟩

theorem setGate {g g' : Option Combination} (h : Option.Rel (Alike ω₁ ω₂) g g') :
    Uniform ω₁ ω₂ (fun _ _ => True) (.setGate g) (.setGate g') := by
  intro s t a b s' t' hst hx hy _ _
  cases hx
  cases hy
  exact ⟨trivial, hst.circuit, hst.cursor, h, hst.slots, hst.zeroTests⟩

end Uniform

/-! ## Operations -/

variable {x y z w x' y' : Combination}

theorem uniform_mul (hx : Alike ω₁ ω₂ x x') (hy : Alike ω₁ ω₂ y y') :
    Uniform ω₁ ω₂ (Alike ω₁ ω₂) (mul x y) (mul x' y') :=
  .ofCircuit (Circuit.uniform_mul hx hy) _ _

theorem uniform_select (hflag : Alike ω₁ ω₂ z w) (hx : Alike ω₁ ω₂ x x') (hy : Alike ω₁ ω₂ y y') :
    Uniform ω₁ ω₂ (Alike ω₁ ω₂) (select z x y) (select w x' y') :=
  .ofCircuit (Gadget.uniform_select hflag hx hy) _ _

theorem uniform_bindAll (hx : Alike ω₁ ω₂ x y) {as bs cs ds : List Combination}
    (h : List.Forall₂ (Alike ω₁ ω₂) as bs) (h' : List.Forall₂ (Alike ω₁ ω₂) cs ds) :
    Uniform ω₁ ω₂ (fun _ _ => True) (bindAll x as cs) (bindAll y bs ds) :=
  .ofCircuit (Gadget.uniform_bindAll hx h h') _ _

/-- Zero tests are shared in both runs or in neither, for their terms are the same. -/
theorem uniform_zeroTest (h : Alike ω₁ ω₂ x y) :
    Uniform ω₁ ω₂ (TestAlike ω₁ ω₂) (zeroTest x) (zeroTest y) := by
  intro s t a b s' t' hst hx hy hfits hfits'
  have hlookup := hst.zeroTests x.terms
  rcases Synthesis.zeroTest_eq_ok.1 hx with ⟨hs, rfl⟩ | ⟨hs, c, hc, rfl⟩ <;>
    rcases Synthesis.zeroTest_eq_ok.1 hy with ⟨ht, rfl⟩ | ⟨ht, d, hd, rfl⟩ <;>
    rw [← h.terms] at ht <;> rw [hs, ht] at hlookup
  · cases hlookup with
    | some hab => exact ⟨hab, hst⟩
  · cases hlookup
  · cases hlookup
  · obtain ⟨hab, hcd⟩ := Gadget.uniform_isZero h _ _ _ _ _ _ hst.circuit hc hd hfits hfits'
    refine ⟨hab, hcd, hst.cursor, hst.gate, hst.slots, fun terms => ?_⟩
    rw [← h.terms, List.lookup_cons, List.lookup_cons]
    split
    · exact .some hab
    · exact hst.zeroTests terms

theorem uniform_isZero (h : Alike ω₁ ω₂ x y) :
    Uniform ω₁ ω₂ (Alike ω₁ ω₂) (isZero x) (isZero y) :=
  (uniform_zeroTest h).bind fun _ _ htest => .pure htest.1

theorem uniform_condition {c d : Option Combination} (h : Option.Rel (Alike ω₁ ω₂) c d) :
    Uniform ω₁ ω₂ (Alike ω₁ ω₂) (condition c) (condition d) := by
  intro s t a b s' t' hst hx hy hfits hfits'
  have hx : Synthesis.condition c s = .ok a s' := hx
  have hy : Synthesis.condition d t = .ok b t' := hy
  rw [Synthesis.condition_eq] at hx hy
  have hgate := hst.gate
  cases h with
  | none =>
    generalize hg : s.gate = g at hx hgate
    generalize hg' : t.gate = g' at hy hgate
    cases hgate with
    | none =>
      cases hx
      cases hy
      exact ⟨.one, hst⟩
    | some hgate =>
      cases hx
      cases hy
      exact ⟨hgate, hst⟩
  | some h =>
    generalize hg : s.gate = g at hx hgate
    generalize hg' : t.gate = g' at hy hgate
    cases hgate with
    | none =>
      cases hx
      cases hy
      exact ⟨h, hst⟩
    | some hgate => exact uniform_mul hgate h _ _ _ _ _ _ hst hx hy hfits hfits'

theorem uniform_buildSlot {xs ys : List Int} (h : xs.length = ys.length) :
    Circuit.Uniform ω₁ ω₂ (HashSlot.Alike ω₁ ω₂) (Synthesis.buildSlot xs) (Synthesis.buildSlot ys) := by
  have hsame : List.Forall₂ (fun _ _ => True) xs ys :=
    List.forall₂_iff_get.2 ⟨h, fun _ _ _ => trivial⟩
  refine (Circuit.Uniform.mapM (fun v w _ => Circuit.uniform_alloc v w) hsame).bind
    fun preimage preimage' hpreimage => ?_
  exact (Gadget.uniform_sponge hpreimage).bind fun image image' himage => .pure ⟨hpreimage, himage⟩

/-- A slot is built in both runs or in neither, for its key is the same. -/
theorem uniform_nextSlot (arity : ℕ) :
    Uniform ω₁ ω₂ (HashSlot.Alike ω₁ ω₂) (nextSlot arity) (nextSlot arity) := by
  intro s t a b s' t' hst hx hy hfits hfits'
  have hlookup := hst.slots (s.cursor.next arity).1
  rcases Synthesis.nextSlot_eq_ok.1 hx with ⟨hs, rfl⟩ | ⟨hs, hlength, c, hc, rfl⟩ <;>
    rcases Synthesis.nextSlot_eq_ok.1 hy with ⟨ht, rfl⟩ | ⟨ht, hlength', d, hd, rfl⟩ <;>
    rw [← hst.cursor] at ht <;> rw [hs, ht] at hlookup
  · cases hlookup with
    | some hab => exact ⟨hab, hst.circuit, by rw [hst.cursor], hst.gate, hst.slots, hst.zeroTests⟩
  · cases hlookup
  · cases hlookup
  · have hcontent := Nat.cast_injective (hlength.trans hlength'.symm)
    rw [← hst.cursor] at hcontent hd
    obtain ⟨hab, hcd⟩ := (uniform_buildSlot hcontent).within _ _ _ _ _ _ _ hst.circuit hc hd hfits hfits'
    refine ⟨hab, hcd, by rw [hst.cursor], hst.gate, fun key => ?_, hst.zeroTests⟩
    rw [← hst.cursor, List.lookup_cons, List.lookup_cons]
    split
    · exact .some hab
    · exact hst.slots key

/-! ## Rules -/

theorem uniform_div (hx : Alike ω₁ ω₂ x x') (hy : Alike ω₁ ω₂ y y') :
    Uniform ω₁ ω₂ (TestAlike ω₁ ω₂) (div x y) (div x' y') :=
  (uniform_zeroTest hy).bind fun _ _ htest =>
    (uniform_mul hx htest.2).bind fun _ _ hquotient => .pure ⟨hquotient, htest.1⟩

theorem uniform_divRem (hx : Alike ω₁ ω₂ x x') (hy : Alike ω₁ ω₂ y y') {c d : Option Combination}
    (h : Option.Rel (Alike ω₁ ω₂) c d) :
    Uniform ω₁ ω₂ (TestAlike ω₁ ω₂) (divRem x y c) (divRem x' y' d) :=
  (uniform_condition h).bind fun _ _ hcondition =>
    .ofCircuit (Gadget.uniform_divRem hcondition hx hy divisionBits) _ _

theorem uniform_selectPointer (hflag : Alike ω₁ ω₂ z w) {p p' q q' : Wire} (hp : p.Alike ω₁ ω₂ p')
    (hq : q.Alike ω₁ ω₂ q') :
    Uniform ω₁ ω₂ (Wire.Alike ω₁ ω₂) (selectPointer z p q) (selectPointer w p' q') := by
  refine (uniform_select hflag hp.tag hq.tag).bind fun _ _ htag => ?_
  refine (uniform_select hflag hp.d0 hq.d0).bind fun _ _ h0 => ?_
  refine (uniform_select hflag hp.d1 hq.d1).bind fun _ _ h1 => ?_
  refine (uniform_select hflag hp.d2 hq.d2).bind fun _ _ h2 => ?_
  exact (uniform_select hflag hp.d3 hq.d3).bind fun _ _ h3 => .pure ⟨htag, h0, h1, h2, h3⟩

theorem uniform_pointerEq {p p' q q' : Wire} (hp : p.Alike ω₁ ω₂ p') (hq : q.Alike ω₁ ω₂ q') :
    Uniform ω₁ ω₂ (Alike ω₁ ω₂) (pointerEq p q) (pointerEq p' q') := by
  refine (uniform_isZero (hp.tag.sub hq.tag)).bind fun _ _ htag => ?_
  refine (uniform_isZero (hp.d0.sub hq.d0)).bind fun _ _ h0 => ?_
  refine (uniform_isZero (hp.d1.sub hq.d1)).bind fun _ _ h1 => ?_
  refine (uniform_isZero (hp.d2.sub hq.d2)).bind fun _ _ h2 => ?_
  refine (uniform_isZero (hp.d3.sub hq.d3)).bind fun _ _ h3 => ?_
  refine (uniform_mul htag h0).bind fun _ _ hsame => ?_
  refine (uniform_mul hsame h1).bind fun _ _ hsame => ?_
  exact (uniform_mul hsame h2).bind fun _ _ hsame => uniform_mul hsame h3

theorem forall₂_flatMap {ps qs : List Wire} (h : List.Forall₂ (Wire.Alike ω₁ ω₂) ps qs) :
    List.Forall₂ (Alike ω₁ ω₂) (ps.flatMap Wire.elements) (qs.flatMap Wire.elements) := by
  induction h with
  | nil => exact .nil
  | cons hpq _ ih => exact List.rel_append hpq.elements ih

theorem uniform_hash (hx : Alike ω₁ ω₂ x y) {ps qs : List Wire}
    (h : List.Forall₂ (Wire.Alike ω₁ ω₂) ps qs) {c d : Option Combination}
    (hc : Option.Rel (Alike ω₁ ω₂) c d) :
    Uniform ω₁ ω₂ (Wire.Alike ω₁ ω₂) (hash x ps c) (hash y qs d) := by
  unfold hash
  rw [h.length_eq]
  refine (uniform_nextSlot _).bind fun _ _ hslot => ?_
  refine (uniform_condition hc).bind fun _ _ hcondition => ?_
  exact (uniform_bindAll hcondition hslot.preimage (.cons hx (forall₂_flatMap h))).bind
    fun _ _ _ => .pure (.of_digest hx hslot.image)

theorem uniform_unhash {p q : Wire} (h : p.Alike ω₁ ω₂ q) (arity : ℕ) {c d : Option Combination}
    (hc : Option.Rel (Alike ω₁ ω₂) c d) :
    Uniform ω₁ ω₂ (List.Forall₂ (Wire.Alike ω₁ ω₂)) (unhash p arity c) (unhash q arity d) := by
  refine (uniform_nextSlot _).bind fun slot slot' hslot => ?_
  refine (uniform_condition hc).bind fun _ _ hcondition => ?_
  refine (uniform_bindAll hcondition (List.forall₂_take 1 hslot.preimage) (.cons h.tag .nil)).bind
    fun _ _ _ => ?_
  refine (uniform_bindAll hcondition hslot.image h.digest).bind fun _ _ _ => .pure ?_
  have htail := List.forall₂_drop 1 hslot.preimage
  rw [List.drop_one, List.drop_one] at htail
  exact Wire.Alike.ofElements htail

/-- Rules lay out the same in two runs. -/
def uniformity (ω₁ ω₂ : Valuation) :
    Simulation BuildM BuildM Combination Combination Wire Wire where
  elem := Alike ω₁ ω₂
  pointer := Wire.Alike ω₁ ω₂
  run := Uniform ω₁ ω₂
  pure := .pure
  bind := .bind
  lit n := .constant n
  add := .add
  sub := .sub
  ptr _ := .constant _
  makePointer _ h := .pure ⟨.constant _, h, .constant _, .constant _, .constant _⟩
  payload h := .pure h.d0
  mul := uniform_mul
  div := uniform_div
  isZero := uniform_isZero
  isNegative h := .ofCircuit (Gadget.uniform_isNegative h) _ _
  less h h' := .ofCircuit (Gadget.uniform_less h h') _ _
  divRem h h' hc := uniform_divRem h h' hc
  select := uniform_select
  selectPointer h hp hq := uniform_selectPointer h hp hq
  tagIs _ h := uniform_isZero (h.tag.sub (.constant _))
  pointerEq := uniform_pointerEq
  hash h hs hc := uniform_hash h hs hc
  unhash {_ _} arity {_ _} h hc := uniform_unhash h arity hc
  emit _ _ := .pure trivial

/-! ## Phases -/

theorem uniform_selectRule {κ : Type} [BEq κ] {guards guards' : List (κ × Combination)}
    (h : FlagsRelated (Alike ω₁ ω₂) guards guards') (fired fired' : κ) :
    Uniform ω₁ ω₂ (FlagsRelated (Alike ω₁ ω₂)) (selectRule guards fired) (selectRule guards' fired') := by
  have hrules : guards.map (·.1) = guards'.map (·.1) := by
    refine List.forall₂_eq_eq_eq ▸ ?_
    exact List.forall₂_map_left_iff.2 (List.forall₂_map_right_iff.2 (h.imp fun _ _ hab => hab.1))
  refine .ofCircuit ?_ _ _
  unfold FrameCircuit.selectRule
  dsimp only
  rw [← hrules]
  refine (Gadget.uniform_oneHot _ _ _).bind fun flags flags' hflags => ?_
  have hselectors := Gadget.forall₂_zip (Gadget.forall₂_refl (guards.map (·.1))) hflags
  refine (Circuit.Uniform.forM (fun p q hpq => ?_) (Gadget.forall₂_zip hselectors h)).bind
    fun _ _ _ => .pure hselectors
  exact Gadget.uniform_impliesEqual hpq.1.2 hpq.2.2 .one

theorem uniform_runRule {selector selector' : Combination} (hselector : Alike ω₁ ω₂ selector selector')
    {body body' : BuildM (Step Combination Wire)}
    (hbody : Uniform ω₁ ω₂ (uniformity ω₁ ω₂).step body body')
    {produced : Step Combination Wire → List Combination}
    (hproduced : ∀ x y, (uniformity ω₁ ω₂).step x y →
      List.Forall₂ (Alike ω₁ ω₂) (produced x) (produced y))
    {target target' : List Combination} (htarget : List.Forall₂ (Alike ω₁ ω₂) target target')
    (label : String) :
    Uniform ω₁ ω₂ (fun _ _ => True) (runRule label selector body produced target)
      (runRule label selector' body' produced target') := by
  refine .within ?_ label
  refine (Uniform.onCursor _).bind fun _ _ _ => ?_
  refine (Uniform.setGate (.some hselector)).bind fun _ _ _ => ?_
  exact hbody.bind fun x y hxy => uniform_bindAll hselector (hproduced x y hxy) htarget

/-- Two phases that take their courses in step lay out the same. -/
theorem uniform_build {κ σ σ' : Type} [BEq κ] {x : Course BuildM Combination Wire κ σ}
    {y : Course BuildM Combination Wire κ σ'} {rel : σ → σ' → Prop}
    (h : Course.Related (uniformity ω₁ ω₂) rel x y)
    {produced : Step Combination Wire → List Combination}
    (hproduced : ∀ x y, (uniformity ω₁ ω₂).step x y →
      List.Forall₂ (Alike ω₁ ω₂) (produced x) (produced y))
    {target target' : List Combination} (htarget : List.Forall₂ (Alike ω₁ ω₂) target target')
    (fired fired' : κ) (reading : String) (label : κ → String) (phase : Phase) :
    Uniform ω₁ ω₂ (fun _ _ => True) (x.build reading label phase produced fired target)
      (y.build reading label phase produced fired' target') := by
  have hselect : Uniform ω₁ ω₂ (fun p q => rel p.1 q.1 ∧ FlagsRelated (Alike ω₁ ω₂) p.2 q.2)
      (x.select fired) (y.select fired') := by
    refine Uniform.bind h.read fun s t hst => ?_
    refine Uniform.bind (h.guards hst) fun gs hs hflags => ?_
    exact (uniform_selectRule hflags fired fired').bind fun _ _ hselectors => .pure ⟨hst, hselectors⟩
  refine (Uniform.onCursor _).bind fun _ _ _ => ?_
  refine (hselect.within reading).bind fun p q hpq => ?_
  obtain ⟨scope, selectors⟩ := p
  obtain ⟨scope', selectors'⟩ := q
  obtain ⟨hscope, hselectors⟩ := hpq
  refine (Uniform.onCursor _).bind fun _ _ _ => ?_
  refine (Uniform.forM (fun p q hpq => ?_) hselectors).bind fun _ _ _ => .setGate .none
  obtain ⟨rule, selector⟩ := p
  obtain ⟨rule', selector'⟩ := q
  obtain ⟨rfl, hselector⟩ := hpq
  exact uniform_runRule hselector (h.run rule hscope) hproduced htarget _

/-! ## Frames -/

theorem uniform_alloc (v w : Int) : Uniform ω₁ ω₂ (Alike ω₁ ω₂) (alloc v) (alloc w) :=
  .ofCircuit (Circuit.uniform_alloc v w) _ _

theorem uniform_allocPointer (p q : Pointer) :
    Uniform ω₁ ω₂ (Wire.Alike ω₁ ω₂) (allocPointer p) (allocPointer q) := by
  refine (uniform_alloc _ _).bind fun _ _ htag => ?_
  refine (uniform_alloc _ _).bind fun _ _ h0 => ?_
  refine (uniform_alloc _ _).bind fun _ _ h1 => ?_
  refine (uniform_alloc _ _).bind fun _ _ h2 => ?_
  exact (uniform_alloc _ _).bind fun _ _ h3 => .pure ⟨htag, h0, h1, h2, h3⟩

theorem uniform_allocMiddle (state state' : State) (returned returned' : Bool) :
    Uniform ω₁ ω₂ (uniformity ω₁ ω₂).step (allocMiddle state returned)
      (allocMiddle state' returned') := by
  refine (uniform_allocPointer _ _).bind fun _ _ hexpr => ?_
  refine (uniform_allocPointer _ _).bind fun _ _ henv => ?_
  refine (uniform_allocPointer _ _).bind fun _ _ hcont => ?_
  exact (Uniform.ofCircuit (Gadget.uniform_allocBit _ _) _ _).bind fun _ _ hret =>
    .pure ⟨hexpr, henv, hcont, hret⟩

theorem alike_wires {x y : Step Combination Wire} (h : (uniformity ω₁ ω₂).step x y) :
    List.Forall₂ (Alike ω₁ ω₂) x.wires y.wires :=
  List.rel_append (List.rel_append h.expr.elements h.env.elements) h.cont.elements

theorem uniform_frame {config config' : Config} (hdepth : config.lookupDepth = config'.lookupDepth)
    (F G : Frame) {expr env cont expr' env' cont' : Wire} (hexpr : expr.Alike ω₁ ω₂ expr')
    (henv : env.Alike ω₁ ω₂ env') (hcont : cont.Alike ω₁ ω₂ cont') {output output' : List Combination}
    (houtput : List.Forall₂ (Alike ω₁ ω₂) output output') :
    Uniform ω₁ ω₂ (fun _ _ => True) (frame config F expr env cont output)
      (frame config' G expr' env' cont' output') := by
  refine ((uniform_allocMiddle _ _ _ _).within _).bind fun mid mid' hmid => ?_
  have hwires {x y : Step Combination Wire} (h : (uniformity ω₁ ω₂).step x y) :
      List.Forall₂ (Alike ω₁ ω₂) (x.wires ++ [x.ret]) (y.wires ++ [y.ret]) :=
    List.rel_append (alike_wires h) (.cons h.ret .nil)
  have heval := Course.related_eval (uniformity ω₁ ω₂) config.lookupDepth hexpr henv hcont
  rw [← hdepth]
  refine (uniform_build heval (fun _ _ => hwires) (hwires hmid) _ _ _ _ _).bind fun _ _ _ => ?_
  exact uniform_build (Course.related_cont (uniformity ω₁ ω₂) hmid) (fun _ _ => alike_wires) houtput
    _ _ _ _ _

end BuildM

end FieldLisp
