import FieldLisp.Machine.Rules
import FieldLisp.Store.Render

/-! # Computing a step

The model in which elements are integers and pointers lead into a store. It records the preimage of
every slot that it uses, and what the program reports. -/

namespace FieldLisp

/-- The store, and what has been recorded of the step so far. -/
structure Workspace where
  store : Store
  cursor : SlotCursor
  slots : SlotTable
  /-- Reported values, the last one first. -/
  emitted : List Pointer

abbrev ComputeM := EStateM Fault Workspace

namespace Workspace

def ofStore (store : Store) : Workspace := ⟨store, .start, [], []⟩

/-- Runs a store operation. The workspace gives its store away meanwhile, so that it is changed in
place. -/
def onStore (operation : StoreM α) : ComputeM α := fun w =>
  let store := w.store
  let w := { w with store := default }
  match operation store with
  | .ok a store => .ok a { w with store := store }
  | .error fault store => .error fault { w with store := store }

/-- Asks the store a question. -/
def ask (question : Store → Except Fault α) : ComputeM α := fun w =>
  match question w.store with
  | .ok a => .ok a w
  | .error fault => .error fault w

def onCursor (change : SlotCursor → SlotCursor) : ComputeM Unit := fun w =>
  .ok () { w with cursor := change w.cursor }

/-- The next slot for a number of children. -/
def nextSlot (arity : Int) : ComputeM SlotKey := fun w =>
  let (key, cursor) := w.cursor.next arity
  .ok key { w with cursor := cursor }

def recordSlot (key : SlotKey) (preimage : List Int) : ComputeM Unit := fun w =>
  .ok () { w with slots := w.slots.set key preimage }

/-- An operation is off only if its condition is zero. -/
def enabled : Option Int → Bool
  | none => true
  | some condition => condition != 0

/-- The tag that has a number. -/
def tagOf (value : Int) : ComputeM Tag :=
  match Tag.ofValue? value with
  | some tag => pure tag
  | none => throw (.unknownTag value)

/-- Takes the next slot for a number of children; there is none to fill if the operation is off. -/
def claim (arity : Int) (condition : Option Int) : ComputeM (Option SlotKey) := do
  let key ← nextSlot arity
  pure (if enabled condition then some key else none)

def hash (tag : Int) (children : List Pointer) (condition : Option Int) : ComputeM Pointer := do
  match ← claim children.length condition with
  | some key => do
    let tag ← tagOf tag
    let p ← onStore (Store.internNode tag children)
    recordSlot key (nodePreimage p.tag children)
    pure p
  | none => pure .nil

def unhash (p : Pointer) (arity : Int) (condition : Option Int) : ComputeM (List Pointer) := do
  match ← claim arity condition with
  | some key => do
    let children ← ask (·.fetch p (some arity))
    recordSlot key (nodePreimage p.tag children)
    pure children
  | none => pure (List.replicate arity.toNat .nil)

/-- Reports a value and writes it out. -/
def emit (p : Pointer) (condition : Option Int) : ComputeM Unit := do
  if enabled condition then
    modify fun w => { w with emitted := p :: w.emitted }
    let _ ← ask (·.render p)

def div (a b : Int) : ComputeM (Int × Int) :=
  if b = 0 then pure (0, 1)
  else if Field.reduce b = 0 then throw .zeroInverse
  else pure (Field.reduce (a * Field.invert b), 0)

def divRem (a b : Int) (condition : Option Int) : ComputeM (Int × Int) :=
  if enabled condition then
    if b = 0 then throw .divisionByZero else pure (a.fdiv b, a.fmod b)
  else pure (0, 0)

/-- One for true, zero for false. -/
def bit (b : Bool) : Int := if b then 1 else 0

end Workspace

instance : ElementModel Int where
  const := Field.reduce
  add a b := Field.reduce (a + b)
  sub a b := Field.reduce (a - b)

instance : PointerModel Pointer where
  const p := p

open Workspace in
instance : StepModel ComputeM Int Pointer where
  makePointer tag digest := do
    let tag ← tagOf tag
    pure ⟨tag, digest⟩
  payload p := ask fun _ => p.payload
  mul a b := pure (Field.reduce (a * b))
  div := div
  isZero a := pure (bit (a == 0))
  isNegative a := pure (bit (Field.isNegative a))
  less a b := pure (bit (Field.toSigned a < Field.toSigned b))
  divRem := divRem
  select flag x y := pure (if flag = 0 then y else x)
  selectPointer flag p q := pure (if flag = 0 then q else p)
  tagIs p tag := pure (bit (p.tag == tag))
  pointerEq p q := pure (bit (p == q))
  hash := hash
  unhash := unhash
  emit := emit

open Workspace in
instance : RunModel ComputeM Int Pointer where
  input value := pure (Field.reduce value)
  inputPointer := pure
  onCursor := onCursor
  nextSlot := nextSlot
  setGate _ := pure ()

end FieldLisp
