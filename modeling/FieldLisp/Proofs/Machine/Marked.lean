import FieldLisp.Machine.Computation
import FieldLisp.Proofs.Store.Soundness

/-!
# The marked model

A model between the store and the circuit. It computes what the store computes, and marks each value
by whether a circuit is sure of it: a value is sure if every witness that the setting admits agrees
on it. What a switched-off operation gives is not sure, unless witnesses are honest. A run is stuck
where an operation asks for something that the circuit could not be held to.

* `Setting`: which witnesses are admitted, and whether the running rule is the selected one;
* `MarkM`: runs that may be stuck, and leave the slots behind them alone;
* `MarkM.Yields`: a run is not stuck, and its result has a property.
-/

namespace FieldLisp

/-- A value, and whether every admitted witness agrees on it. -/
structure Marked (α : Type) where
  value : α
  sure : Bool

/-- A pointer, and what every admitted witness agrees on: all of it, or that it is no pair. -/
structure MarkedPointer where
  value : Pointer
  sure : Bool
  notPair : Bool

/-- The flag for a truth value. -/
def Marked.bit (sure value : Bool) : Marked Int := ⟨Workspace.bit value, sure⟩

/-- A pointer that all admitted witnesses agree on. -/
def MarkedPointer.certain (p : Pointer) : MarkedPointer := ⟨p, true, false⟩

/-- Which witnesses are admitted, and what is known of the slots that the step does not use. -/
structure Setting where
  /-- The running rule is the selected one; otherwise all its slots are switched off. -/
  gate : Bool
  /-- Only the witness that the circuit itself computes, with known contents in all slots. -/
  honest : Bool
  /-- Only witnesses that compute signs and integer division themselves. -/
  signs : Bool
  /-- Children of a switched-off slot that no admitted witness makes a pair. -/
  sealed : SlotKey → ℕ → Bool
  /-- Children in a switched-off slot. -/
  fill : SlotKey → List Pointer

/-- The setting of a computation: the rule is selected, and what is switched off gives nil. -/
structure Setting.Computes (c : Setting) : Prop where
  gate : c.gate = true
  fill : ∀ key, c.fill key = List.replicate key.arity.toNat .nil

namespace Setting

/-- An operation is on if the rule is selected and the condition holds. -/
def on (c : Setting) (condition : Option (Marked Int)) : Bool :=
  c.gate && condition.all (·.value != 0)

/-- A condition of the selected rule is a flag, and it is sure if the operation is on. -/
def Admits (c : Setting) (condition : Option (Marked Int)) : Prop :=
  c.gate = true → ∀ x ∈ condition, (x.value = 0 ∧ (c.honest = true → x.sure = true)) ∨
    (x.value = 1 ∧ x.sure = true)

instance (c : Setting) (condition : Option (Marked Int)) : Decidable (c.Admits condition) := by
  unfold Admits
  infer_instance

end Setting

/-- A store, and how far the slots are numbered and filled. -/
structure MarkWorld where
  store : Store
  cursor : SlotCursor
  slots : SlotTable

namespace MarkWorld

/-- The slot is one that the phase has not reached yet. -/
def Ahead (W : MarkWorld) (key : SlotKey) : Prop :=
  key.phase = W.cursor.phase ∧ W.cursor.used key.arity ≤ key.index

/-- Slots are only filled where the phase has not been, and no node is lost. -/
structure Passes (W W' : MarkWorld) : Prop where
  phase : W'.cursor.phase = W.cursor.phase
  base : W'.cursor.base = W.cursor.base
  used : ∀ n, W.cursor.used n ≤ W'.cursor.used n
  slots : ∀ key, ¬W.Ahead key → W'.slots.get? key = W.slots.get? key
  nodes : ∀ {p : Pointer} {cs : List Pointer}, W.store.nodes[p]? = some cs →
    W'.store.nodes[p]? = some cs

namespace Passes
variable {W W₁ W₂ : MarkWorld}

theorem refl (W : MarkWorld) : Passes W W := ⟨rfl, rfl, fun _ => le_rfl, fun _ _ => rfl, id⟩

theorem not_ahead (h : Passes W W₁) {key : SlotKey} (hkey : ¬W.Ahead key) : ¬W₁.Ahead key :=
  fun ⟨hphase, hused⟩ => hkey ⟨hphase.trans h.phase, (h.used _).trans hused⟩

theorem trans (h : Passes W W₁) (h' : Passes W₁ W₂) : Passes W W₂ where
  phase := h'.phase.trans h.phase
  base := h'.base.trans h.base
  used n := (h.used n).trans (h'.used n)
  slots key hkey := (h'.slots key (h.not_ahead hkey)).trans (h.slots key hkey)
  nodes := h'.nodes ∘ h.nodes

end Passes

/-- The next slot for a number of children is behind. -/
def skip (W : MarkWorld) (arity : Int) : MarkWorld := { W with cursor := (W.cursor.next arity).2 }

/-- The key of the next slot for a number of children. -/
def key (W : MarkWorld) (arity : Int) : SlotKey := (W.cursor.next arity).1

/-- The next slot for a number of children is filled, and the store is another one. -/
def record (W : MarkWorld) (arity : Int) (store : Store) (preimage : List Int) : MarkWorld :=
  ⟨store, (W.cursor.next arity).2, W.slots.set (W.key arity) preimage⟩

theorem ahead_key (W : MarkWorld) (arity : Int) : W.Ahead (W.key arity) := ⟨rfl, le_rfl⟩

theorem used_next (W : MarkWorld) (arity n : Int) :
    W.cursor.used n ≤ (W.cursor.next arity).2.used n := by
  simp only [SlotCursor.next]
  split <;> omega

theorem passes_skip (W : MarkWorld) (arity : Int) : W.Passes (W.skip arity) :=
  ⟨rfl, rfl, W.used_next arity, fun _ _ => rfl, id⟩

theorem passes_record (W : MarkWorld) (arity : Int) {store : Store} (preimage : List Int)
    (hstore : ∀ {p : Pointer} {cs : List Pointer}, W.store.nodes[p]? = some cs →
      store.nodes[p]? = some cs) :
    W.Passes (W.record arity store preimage) := by
  refine ⟨rfl, rfl, W.used_next arity, fun key hkey => ?_, hstore⟩
  refine Table.get?_set_of_ne W.slots preimage ?_
  rintro rfl
  exact hkey (W.ahead_key arity)

/-- A slot that has been filled is behind. -/
theorem not_ahead_record (W : MarkWorld) (arity : Int) (store : Store) (preimage : List Int) :
    ¬(W.record arity store preimage).Ahead (W.key arity) := by
  rintro ⟨-, hused⟩
  have hnext : (W.cursor.next arity).2.used arity = W.cursor.used arity + 1 := if_pos rfl
  have hlater : (W.cursor.next arity).2.used arity ≤ W.cursor.used arity := hused
  omega

end MarkWorld

/-- A run that may be stuck. It leaves the slots behind it alone. -/
@[ext] structure MarkM (c : Setting) (α : Type) where
  run : MarkWorld → Option (α × MarkWorld)
  passes : ∀ {W a W'}, run W = some (a, W') → W.Passes W'

namespace MarkM

variable {c : Setting} {α β : Type}

protected def pure (a : α) : MarkM c α where
  run W := some (a, W)
  passes h := by
    cases h
    exact .refl _

protected def bind (x : MarkM c α) (f : α → MarkM c β) : MarkM c β where
  run W := (x.run W).bind fun (a, W) => (f a).run W
  passes {W b W'} h := by
    obtain ⟨⟨a, W₁⟩, hx, hf⟩ := Option.bind_eq_some_iff.1 h
    exact (x.passes hx).trans ((f a).passes hf)

instance : Monad (MarkM c) where
  pure := MarkM.pure
  bind := MarkM.bind

theorem run_pure (a : α) (W : MarkWorld) : (pure a : MarkM c α).run W = some (a, W) := rfl

theorem run_bind (x : MarkM c α) (f : α → MarkM c β) (W : MarkWorld) :
    (x >>= f).run W = (x.run W).bind fun p => (f p.1).run p.2 := rfl

instance : LawfulMonad (MarkM c) := LawfulMonad.mk' _
  (fun x => by
    ext1
    funext W
    change (x.run W).bind (fun p => some (p.1, p.2)) = _
    simp)
  (fun _ _ => rfl)
  (fun x f g => by
    ext1
    funext W
    simp only [run_bind, Option.bind_assoc])

/-- A value that asks for something. -/
def require (p : Prop) [Decidable p] (a : α) : MarkM c α where
  run W := if p then some (a, W) else none
  passes {W b W'} h := by
    split at h
    · cases h
      exact .refl _
    · cases h

theorem require_eq {p : Prop} [Decidable p] (h : p) (a : α) :
    (require p a : MarkM c α) = pure a := by
  ext1
  funext W
  simp [require, run_pure, h]

/-- The run is not stuck, and its result has a property. -/
def Yields (x : MarkM c α) (W : MarkWorld) (post : α → MarkWorld → Prop) : Prop :=
  ∃ a W', x.run W = some (a, W') ∧ post a W'

theorem yields_pure {a : α} {W : MarkWorld} {post : α → MarkWorld → Prop} :
    (pure a : MarkM c α).Yields W post ↔ post a W := by
  constructor
  · rintro ⟨b, W', h, hpost⟩
    cases h
    exact hpost
  · exact fun h => ⟨a, W, rfl, h⟩

theorem yields_bind {x : MarkM c α} {f : α → MarkM c β} {W : MarkWorld}
    {post : β → MarkWorld → Prop} :
    (x >>= f).Yields W post ↔ x.Yields W fun a W₁ => (f a).Yields W₁ post := by
  constructor
  · rintro ⟨b, W', h, hpost⟩
    obtain ⟨⟨a, W₁⟩, hx, hf⟩ := Option.bind_eq_some_iff.1 h
    exact ⟨a, W₁, hx, b, W', hf, hpost⟩
  · rintro ⟨a, W₁, hx, b, W', hf, hpost⟩
    exact ⟨b, W', Option.bind_eq_some_iff.2 ⟨(a, W₁), hx, hf⟩, hpost⟩

theorem Yields.mono {x : MarkM c α} {W : MarkWorld} {post post' : α → MarkWorld → Prop}
    (h : x.Yields W post) (hpost : ∀ a W', post a W' → post' a W') : x.Yields W post' := by
  obtain ⟨a, W', hx, ha⟩ := h
  exact ⟨a, W', hx, hpost a W' ha⟩

/-! ## Operations -/

instance : ElementModel (Marked Int) where
  const n := ⟨Field.reduce n, true⟩
  add a b := ⟨Field.reduce (a.value + b.value), a.sure && b.sure⟩
  sub a b := ⟨Field.reduce (a.value - b.value), a.sure && b.sure⟩

instance : PointerModel MarkedPointer where
  const := .certain

/-- A sure zero makes a product sure. -/
def times (a b : Marked Int) : Marked Int :=
  ⟨Field.reduce (a.value * b.value),
    a.sure && b.sure || a.sure && a.value == 0 || b.sure && b.value == 0⟩

/-- Division; only an honest witness is held to the quotient by zero. -/
def quotient (c : Setting) (a b : Marked Int) : Marked Int × Marked Int :=
  if b.value = 0 then (⟨0, c.honest && b.sure⟩, .bit b.sure true)
  else (⟨Field.reduce (a.value * Field.invert b.value), a.sure && b.sure⟩, .bit b.sure false)

/-- The chosen one of two values. A choice asks for a flag, which must be sure if the witness is
honest. -/
def MayChoose (c : Setting) (flag : Marked Int) : Prop :=
  (flag.value = 0 ∨ flag.value = 1) ∧ (c.honest = true → flag.sure = true)

instance (c : Setting) (flag : Marked Int) : Decidable (MayChoose c flag) := by
  unfold MayChoose
  infer_instance

def chosen (flag x y : Marked Int) : Marked Int :=
  if flag.value = 0 then ⟨y.value, flag.sure && y.sure⟩ else ⟨x.value, flag.sure && x.sure⟩

def chosenPointer (flag : Marked Int) (p q : MarkedPointer) : MarkedPointer :=
  if flag.value = 0 then ⟨q.value, flag.sure && q.sure, flag.sure && q.notPair⟩
  else ⟨p.value, flag.sure && p.sure, flag.sure && p.notPair⟩

/-- Operands of integer division, where it is on. -/
def MayDivide (c : Setting) (a b : Marked Int) (condition : Option (Marked Int)) : Prop :=
  c.Admits condition ∧ (c.on condition = true → condition ≠ none ∧ a.sure = true ∧ b.sure = true ∧
    a.value < 2 ^ divisionBits ∧ 0 < b.value ∧ b.value < 2 ^ divisionBits)

instance (c : Setting) (a b : Marked Int) (condition : Option (Marked Int)) :
    Decidable (MayDivide c a b condition) := by
  unfold MayDivide
  infer_instance

def divided (c : Setting) (a b : Marked Int) (condition : Option (Marked Int)) :
    Marked Int × Marked Int :=
  if c.on condition then (⟨a.value.fdiv b.value, c.signs⟩, ⟨a.value.fmod b.value, c.signs⟩)
  else (⟨0, c.honest⟩, ⟨0, c.honest⟩)

/-- Takes a node into the store, if the operation is on. -/
def hash (tag : Marked Int) (children : List MarkedPointer) (condition : Option (Marked Int)) :
    MarkM c MarkedPointer where
  run W :=
    if c.Admits condition then
      if c.on condition then
        match Tag.ofValue? tag.value with
        | none => none
        | some t =>
          if tag.sure ∧ ∀ p ∈ children, p.sure then
            match Store.internNode t (children.map (·.value)) W.store with
            | .ok p store => some (.certain p, W.record children.length store
                (nodePreimage p.tag (children.map (·.value))))
            | .error _ _ => none
          else none
      else some (⟨.nil, false, false⟩, W.skip children.length)
    else none
  passes {W a W'} h := by
    repeat' split at h
    all_goals cases h
    · rename_i hintern
      exact W.passes_record _ _ (Store.internNode_keeps hintern)
    · exact W.passes_skip _

/-- What a switched-off slot gives. -/
def leftOver (c : Setting) (key : SlotKey) : List MarkedPointer :=
  (c.fill key).mapIdx fun i p => ⟨p, c.honest, c.sealed key i⟩

/-- Takes a node apart, if the operation is on. -/
def unhash (p : MarkedPointer) (arity : Int) (condition : Option (Marked Int)) :
    MarkM c (List MarkedPointer) where
  run W :=
    if c.Admits condition then
      if c.on condition then
        if p.sure then
          match W.store.fetch p.value (some arity) with
          | .ok children => some (children.map .certain, W.record arity W.store
              (nodePreimage p.value.tag children))
          | .error _ => none
        else none
      else if ((c.fill (W.key arity)).length : Int) = arity then
        some (leftOver c (W.key arity), W.skip arity)
      else none
    else none
  passes {W a W'} h := by
    repeat' split at h
    all_goals cases h
    · exact W.passes_record _ _ id
    · exact W.passes_skip _

end MarkM

open MarkM in
instance (c : Setting) : StepModel (MarkM c) (Marked Int) MarkedPointer where
  makePointer tag digest :=
    match Tag.ofValue? tag.value with
    | some t => pure ⟨⟨t, digest.map (·.value)⟩, tag.sure && digest.all (·.sure), false⟩
    | none => require False ⟨.nil, false, false⟩
  payload p := pure ⟨p.value.digest.headD 0, p.sure⟩
  mul a b := pure (times a b)
  div a b := pure (quotient c a b)
  isZero a := pure (.bit a.sure (a.value == 0))
  isNegative a := pure (.bit (a.sure && c.signs) (Field.isNegative a.value))
  less a b := pure (.bit (a.sure && b.sure && c.signs)
    (Field.toSigned a.value < Field.toSigned b.value))
  divRem a b condition := require (MayDivide c a b condition) (divided c a b condition)
  select flag x y := require (MayChoose c flag) (chosen flag x y)
  selectPointer flag p q := require (MayChoose c flag) (chosenPointer flag p q)
  tagIs p tag := pure (.bit (p.sure || p.notPair && tag == .cons) (p.value.tag == tag))
  pointerEq p q := pure (.bit (p.sure && q.sure) (p.value == q.value))
  hash := hash
  unhash := unhash
  emit _ _ := pure ()

theorem MarkM.makePointer_eq {c : Setting} (tag : Tag) (a : Marked Int) :
    (StepModel.makePointer (StepModel.lit tag.value : Marked Int)
      [a, StepModel.lit 0, StepModel.lit 0, StepModel.lit 0] : MarkM c MarkedPointer) =
        pure ⟨⟨tag, [a.value, 0, 0, 0]⟩, a.sure, false⟩ := by
  have htag : Tag.ofValue? (StepModel.lit tag.value : Marked Int).value = some tag := by
    change Tag.ofValue? (Field.reduce tag.value) = some tag
    rw [Field.reduce_eq_self tag.value_canonical, Tag.ofValue?_value]
  change (match Tag.ofValue? (StepModel.lit tag.value : Marked Int).value with
    | some t => pure ⟨⟨t, _⟩, _, false⟩
    | none => MarkM.require False ⟨.nil, false, false⟩ : MarkM c MarkedPointer) = _
  rw [htag]
  simp [StepModel.lit, ElementModel.const, show Field.reduce 0 = 0 from rfl]

end FieldLisp
