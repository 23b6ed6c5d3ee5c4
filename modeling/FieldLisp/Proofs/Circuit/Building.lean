import FieldLisp.Proofs.Circuit.SynthesisGrowth
import FieldLisp.Proofs.Machine.Simulation

/-!
# Operations that grow

Only operations that extend a synthesis are of use to the rules. They form a model of their own, in
which growth is part of every operation:

* `BuildM`: operations with the proof that they grow;
* `BuildM.realization`: rules run on `BuildM` as they run on syntheses.
-/

namespace FieldLisp

/-- A pointer inside a circuit with four combinations in its digest. -/
structure Wire where
  tag : Combination
  digest : Digest Combination

namespace Wire

def elements (w : Wire) : List Combination := w.tag :: w.digest.toList

/-- The pointer without the knowledge of its size. -/
def toPointerWire (w : Wire) : PointerWire := ⟨w.tag, w.digest.toList⟩

/-- The pointers whose elements follow each other in a list, five to each. -/
def ofElements : List Combination → List Wire
  | tag :: d0 :: d1 :: d2 :: d3 :: rest => ⟨tag, ⟨d0, d1, d2, d3⟩⟩ :: ofElements rest
  | _ => []

theorem map_ofElements (xs : List Combination) :
    (ofElements xs).map toPointerWire = PointerWire.ofElements xs := by
  fun_induction ofElements xs with
  | case1 tag d0 d1 d2 d3 rest ih => simpa [PointerWire.ofElements, toPointerWire, Digest.toList]
  | case2 xs h =>
    unfold PointerWire.ofElements
    split
    · exact absurd rfl (h _ _ _ _ _ _)
    · rfl

theorem length_ofElements (xs : List Combination) : (ofElements xs).length = xs.length / 5 := by
  fun_induction ofElements xs with
  | case1 tag d0 d1 d2 d3 rest ih =>
    simp only [List.length_cons, ih]
    omega
  | case2 xs h =>
    have hshort : xs.length < 5 := by
      match xs, h with
      | [], _ | [_], _ | [_, _], _ | [_, _, _], _ | [_, _, _, _], _ => simp
      | a :: b :: c :: d :: e :: rest, h => exact absurd rfl (h a b c d e rest)
    exact (Nat.div_eq_of_lt hshort).symm

/-- The pointer with these combinations; a digest that is cut short is filled up with zeros. -/
def ofDigest (tag : Combination) (digest : List Combination) : Wire :=
  ⟨tag, digest.getD 0 0, digest.getD 1 0, digest.getD 2 0, digest.getD 3 0⟩

def constant (p : Pointer) : Wire := ofDigest (.constant p.tag.value) (p.digest.map .constant)

theorem toPointerWire_ofDigest {tag : Combination} {digest : List Combination}
    (h : digest.length = 4) : (ofDigest tag digest).toPointerWire = ⟨tag, digest⟩ := by
  match digest, h with
  | [_, _, _, _], _ => rfl

end Wire

/-- An operation that grows. -/
@[ext] structure BuildM (α : Type) where
  run : SynthesisM α
  grows : Synthesis.Grows run

namespace BuildM

instance : Monad BuildM where
  pure a := ⟨pure a, .pure a⟩
  bind x f := ⟨x.run >>= fun a => (f a).run, x.grows.bind fun a => (f a).grows⟩

theorem run_pure (a : α) : (pure a : BuildM α).run = pure a := rfl

theorem run_bind (x : BuildM α) (f : α → BuildM β) :
    (x >>= f).run = x.run >>= fun a => (f a).run := rfl

instance : LawfulMonad BuildM := LawfulMonad.mk' _
  (fun x => by
    ext1
    exact bind_pure x.run)
  (fun _ _ => by
    ext1
    exact pure_bind _ _)
  (fun _ _ _ => by
    ext1
    exact bind_assoc _ _ _)

theorem run_map (f : α → β) (x : BuildM α) : (f <$> x).run = f <$> x.run := by
  rw [← bind_pure_comp, run_bind, ← bind_pure_comp]
  rfl

/-- An operation on the circuit alone. -/
def ofCircuit (x : CircuitM α) (h : Circuit.Grows x) : BuildM α :=
  ⟨Synthesis.onCircuit x, Synthesis.grows_onCircuit h⟩

def zeroTest (x : Combination) : BuildM (Combination × Combination) :=
  ⟨Synthesis.zeroTest x, Synthesis.grows_zeroTest x⟩

def condition (c : Option Combination) : BuildM Combination :=
  ⟨Synthesis.condition c, Synthesis.grows_condition c⟩

def nextSlot (arity : ℕ) : BuildM HashSlot := ⟨Synthesis.nextSlot arity, Synthesis.grows_nextSlot arity⟩

def onCursor (change : SlotCursor → SlotCursor) : BuildM Unit :=
  ⟨Synthesis.onCursor change, Synthesis.grows_onCursor change⟩

def setGate (gate : Option Combination) : BuildM Unit :=
  ⟨Synthesis.setGate gate, Synthesis.grows_setGate gate⟩

def within (name : String) (x : BuildM α) : BuildM α :=
  ⟨Synthesis.within name x.run, x.grows.within name⟩

def mul (a b : Combination) : BuildM Combination := ofCircuit (Circuit.mul a b) (Circuit.grows_mul a b)

def select (flag x y : Combination) : BuildM Combination :=
  ofCircuit (Gadget.select flag x y) (Gadget.grows_select flag x y)

def bindAll (c : Combination) (xs ys : List Combination) : BuildM Unit :=
  ofCircuit (Gadget.bindAll c xs ys) (Gadget.grows_bindAll c xs ys)

/-- Whether a combination is zero. -/
def isZero (x : Combination) : BuildM Combination := do
  let (zero, _) ← zeroTest x
  pure zero

def div (a b : Combination) : BuildM (Combination × Combination) := do
  let (zero, inverse) ← zeroTest b
  let quotient ← mul a inverse
  pure (quotient, zero)

def divRem (a b : Combination) (c : Option Combination) : BuildM (Combination × Combination) := do
  let c ← condition c
  ofCircuit (Gadget.divRem c a b divisionBits) (Gadget.grows_divRem c a b divisionBits)

def selectPointer (flag : Combination) (p q : Wire) : BuildM Wire := do
  let tag ← select flag p.tag q.tag
  let d0 ← select flag p.digest.d0 q.digest.d0
  let d1 ← select flag p.digest.d1 q.digest.d1
  let d2 ← select flag p.digest.d2 q.digest.d2
  let d3 ← select flag p.digest.d3 q.digest.d3
  pure ⟨tag, d0, d1, d2, d3⟩

def pointerEq (p q : Wire) : BuildM Combination := do
  let tag ← isZero (p.tag - q.tag)
  let d0 ← isZero (p.digest.d0 - q.digest.d0)
  let d1 ← isZero (p.digest.d1 - q.digest.d1)
  let d2 ← isZero (p.digest.d2 - q.digest.d2)
  let d3 ← isZero (p.digest.d3 - q.digest.d3)
  let same ← mul tag d0
  let same ← mul same d1
  let same ← mul same d2
  mul same d3

def hash (tag : Combination) (children : List Wire) (c : Option Combination) : BuildM Wire := do
  let slot ← nextSlot children.length
  let c ← condition c
  bindAll c slot.preimage (tag :: children.flatMap Wire.elements)
  pure ⟨tag, slot.image⟩

def unhash (p : Wire) (arity : ℕ) (c : Option Combination) : BuildM (List Wire) := do
  let slot ← nextSlot arity
  let c ← condition c
  bindAll c (slot.preimage.take 1) [p.tag]
  bindAll c slot.image.toList p.digest.toList
  pure (Wire.ofElements slot.preimage.tail)

end BuildM

instance : PointerModel Wire where
  const := .constant

open BuildM in
instance : StepModel BuildM Combination Wire where
  makePointer tag digest := pure (.ofDigest tag digest)
  payload p := pure p.digest.d0
  mul := mul
  div := div
  isZero := isZero
  isNegative x := ofCircuit (Gadget.isNegative x) (Gadget.grows_isNegative x)
  less a b := ofCircuit (Gadget.less a b) (Gadget.grows_less a b)
  divRem := divRem
  select := select
  selectPointer := selectPointer
  tagIs p tag := isZero (p.tag - .constant tag.value)
  pointerEq := pointerEq
  hash := hash
  unhash p arity := unhash p arity.toNat
  emit _ _ := pure ()

namespace BuildM

/-- Two operations do the same up to what they return. -/
def Realizes (rel : α → β → Prop) (x : SynthesisM α) (y : BuildM β) : Prop :=
  ∀ s, (∃ a b t, x s = .ok a t ∧ y.run s = .ok b t ∧ rel a b) ∨
    ∃ fault t, x s = .error fault t ∧ y.run s = .error fault t

theorem Realizes.pure {rel : α → β → Prop} {a : α} {b : β} (h : rel a b) :
    Realizes rel (Pure.pure a) (Pure.pure b) := fun s => .inl ⟨a, b, s, rfl, rfl, h⟩

theorem Realizes.bind {rel : α → β → Prop} {rel' : γ → δ → Prop} {x : SynthesisM α} {y : BuildM β}
    {f : α → SynthesisM γ} {g : β → BuildM δ} (hxy : Realizes rel x y)
    (hfg : ∀ a b, rel a b → Realizes rel' (f a) (g b)) : Realizes rel' (x >>= f) (y >>= g) := by
  intro s
  rcases hxy s with ⟨a, b, t, hx, hy, hab⟩ | ⟨fault, t, hx, hy⟩
  · rw [run_bind, EStateM.bind_of_ok hx, EStateM.bind_of_ok hy]
    exact hfg a b hab t
  · refine .inr ⟨fault, t, ?_, ?_⟩
    · change EStateM.bind x f s = _
      rw [EStateM.bind, hx]
    · change EStateM.bind y.run (fun a => (g a).run) s = _
      rw [EStateM.bind, hy]

theorem Realizes.refl (y : BuildM α) : Realizes Eq y.run y := by
  intro s
  cases h : y.run s with
  | ok a t => exact .inl ⟨a, a, t, rfl, rfl, rfl⟩
  | error fault t => exact .inr ⟨fault, t, rfl, rfl⟩

theorem Realizes.mono {rel rel' : α → β → Prop} {x : SynthesisM α} {y : BuildM β}
    (h : Realizes rel x y) (hrel : ∀ a b, rel a b → rel' a b) : Realizes rel' x y := fun s =>
  (h s).imp_left fun ⟨a, b, t, hx, hy, hab⟩ => ⟨a, b, t, hx, hy, hrel a b hab⟩

theorem Realizes.map {x : SynthesisM α} {y : BuildM β} {f : β → α} (h : x = f <$> y.run) :
    Realizes (fun a b => a = f b) x y := by
  intro s
  subst h
  cases h : y.run s with
  | ok b t => exact .inl ⟨f b, b, t, EStateM.map_eq_ok.2 ⟨b, h, rfl⟩, rfl, rfl⟩
  | error fault t =>
    refine .inr ⟨fault, t, ?_, rfl⟩
    rw [← bind_pure_comp]
    change EStateM.bind y.run (fun b => Pure.pure (f b)) s = _
    rw [EStateM.bind, h]

theorem eq_of_optionRel {c d : Option α} (h : Option.Rel Eq c d) : c = d := by
  cases h with
  | some h => rw [h]
  | none => rfl

theorem eq_map_of_forall₂ {f : β → α} {as : List α} {bs : List β}
    (h : List.Forall₂ (fun a b => a = f b) as bs) : as = bs.map f := by
  induction h with
  | nil => rfl
  | cons hab _ ih => rw [List.map_cons, hab, ih]

theorem flatMap_elements (ws : List Wire) :
    (ws.map Wire.toPointerWire).flatMap PointerWire.elements = ws.flatMap Wire.elements := by
  rw [List.flatMap_map]
  rfl

/-- Rules run on operations that grow as they run on syntheses. -/
def realization : Simulation SynthesisM BuildM Combination Combination PointerWire Wire where
  elem := Eq
  pointer p w := p = w.toPointerWire
  run := Realizes
  pure := .pure
  bind := .bind
  lit _ := rfl
  add h h' := by rw [h, h']
  sub h h' := by rw [h, h']
  ptr hp := (Wire.toPointerWire_ofDigest ((List.length_map _).trans hp.length_digest)).symm
  makePointer tag h := .pure (by rw [h]; rfl)
  payload h := by
    subst h
    exact .pure rfl
  mul h h' := by
    subst h h'
    exact .refl (mul _ _)
  div h h' := by
    subst h h'
    exact .bind (.refl (zeroTest _)) fun _ _ h => by
      subst h
      exact .bind (.refl (mul _ _)) fun _ _ h => .pure ⟨h, rfl⟩
  isZero h := by
    subst h
    exact .refl (isZero _)
  isNegative h := by
    subst h
    exact .refl (ofCircuit _ (Gadget.grows_isNegative _))
  less h h' := by
    subst h h'
    exact .refl (ofCircuit _ (Gadget.grows_less _ _))
  divRem h h' hc := by
    subst h h'
    rw [eq_of_optionRel hc]
    refine .bind (.refl (condition _)) fun _ _ h => ?_
    subst h
    refine (Realizes.refl (ofCircuit _ (Gadget.grows_divRem _ _ _ divisionBits))).mono
      fun _ _ h => ?_
    subst h
    exact ⟨rfl, rfl⟩
  select h h' h'' := by
    subst h h' h''
    exact .refl (select _ _ _)
  selectPointer h h' h'' := by
    subst h h' h''
    refine .map ?_
    change Synthesis.selectPointer _ _ _ = Wire.toPointerWire <$> (selectPointer _ _ _).run
    simp [Synthesis.selectPointer, selectPointer, select, Synthesis.select, ofCircuit, run_bind,
      run_map, Wire.toPointerWire, Digest.toList]
  tagIs tag h := by
    subst h
    exact .refl (isZero _)
  pointerEq h h' := by
    subst h h'
    refine (Realizes.map (f := id) ?_)
    change Synthesis.pointerEq _ _ = id <$> (pointerEq _ _).run
    simp [Synthesis.pointerEq, pointerEq, isZero, zeroTest, mul, ofCircuit, run_bind,
      Wire.toPointerWire, PointerWire.elements, Digest.toList]
  hash h hs hc := by
    subst h
    rw [eq_of_optionRel hc, eq_map_of_forall₂ hs]
    refine .map ?_
    change Synthesis.hash _ _ _ = Wire.toPointerWire <$> (hash _ _ _).run
    simp [Synthesis.hash, Synthesis.claim, Synthesis.bindNode, hash, nextSlot, condition, bindAll,
      ofCircuit, run_bind, run_map, flatMap_elements, Wire.toPointerWire]
  unhash {p w} arity {c d} h hc := by
    subst h
    rw [eq_of_optionRel hc]
    refine (Realizes.map (f := List.map Wire.toPointerWire) ?_).mono fun _ _ h => ?_
    · change Synthesis.unhash _ _ _ = List.map Wire.toPointerWire <$> (unhash _ _ _).run
      simp [Synthesis.unhash, Synthesis.claim, Synthesis.bindChildren, unhash, nextSlot, condition,
        bindAll, ofCircuit, run_bind, run_map, Wire.map_ofElements]
      rfl
    · subst h
      exact List.forall₂_map_left_iff.2 (List.forall₂_same.2 fun _ _ => rfl)
  emit _ _ := .pure trivial

end BuildM

end FieldLisp
