import FieldLisp.Machine.Rules
import FieldLisp.Position

/-! # Values of any kind

A rule gives each operation what it can compute with. Whoever runs the operations of a model one
after another may give them anything: what an earlier one left, or nothing, where an earlier one
failed. A value is whatever an operation may be given. Values are themselves the elements and the
pointers of a model, so that what rules are written in runs on them too; a value of the wrong kind
harms an operation only where the operation looks at it. -/

namespace FieldLisp

inductive Value (E P : Type) where
  /-- Nothing: an operation failed, or has no result. -/
  | hole
  /-- A number that has not entered the field. -/
  | number (n : Int)
  | tag (tag : Tag)
  | element (x : E)
  | pointer (p : P)
  | several (values : List (Value E P))
  /-- An outcome of a rule, with anything in its places. -/
  | outcome (expr env cont ret : Value E P)
  /-- A sum that has no value; whoever uses it fails. -/
  | fault (fault : Fault)
  deriving Inhabited

/-- How the elements and pointers of a model are seen as values. -/
class ValueModel (E P : Type) where
  ofNumber : Int → E
  /-- A pointer is made of its tag and its digest. -/
  parts : P → List (Value E P)
  /-- Fault of a sum of which only the second operand is unfit. -/
  unfitSecond : Fault

/-- The first of some operands, of which there must be one, and the others. -/
def firstOperand : List α → Except Fault (α × List α)
  | [] => .error .noOperands
  | x :: xs => .ok (x, xs)

namespace Value

variable {E P : Type}

/-! ## What a value is -/

/-- A value that exists. -/
def settled : Value E P → Except Fault (Value E P)
  | fault f => .error f
  | v => .ok v

/-- The condition that a value is: a hole is none at all. -/
def condition? : Value E P → Option (Value E P)
  | hole => none
  | v => some v

def toPointer : Value E P → Except Fault P
  | pointer p => .ok p
  | fault f => .error f
  | _ => .error .absentPart

def toStep : Value E P → Except Fault (Step (Value E P) (Value E P))
  | outcome expr env cont ret => .ok ⟨expr, env, cont, ret⟩
  | fault f => .error f
  | _ => .error .absentPart

section
variable [ValueModel E P]

/-- The element that a value is, if it is one; a number or a tag stands for one. -/
def element? : Value E P → Option E
  | element x => some x
  | number n => some (ValueModel.ofNumber P n)
  | tag t => some (ValueModel.ofNumber P t.value)
  | _ => none

def toElement (v : Value E P) : Except Fault E := do
  let v ← v.settled
  match v.element? with
  | some x => .ok x
  | none => .error .unfitOperand

/-- The parts that a value is made of, if it is made of parts. -/
def parts? : Value E P → Option (List (Value E P))
  | pointer p => some (ValueModel.parts p)
  | several vs => some vs
  | outcome expr env cont ret => some [expr, env, cont, ret]
  | _ => none

/-- One part; a negative index counts from the last. -/
def part (v : Value E P) (index : Int) : Except Fault (Value E P) :=
  match v.parts? with
  | none => .error .unfitOperand
  | some parts =>
    match entryAt? parts index with
    | some part => .ok part
    | none => .error .noSuchEntry

/-- A sum or a difference. -/
def combine (operation : E → E → E) (a b : Value E P) : Value E P :=
  match a.toElement, b with
  | .error f, _ | .ok _, fault f => fault f
  | .ok x, b =>
    match b.element? with
    | some y => element (operation x y)
    | none => fault (ValueModel.unfitSecond E P)

end

/-! ## Values that operations leave -/

def ofStep (s : Step (Value E P) (Value E P)) : Value E P := outcome s.expr s.env s.cont s.ret

def ofPair (pair : Value E P × Value E P) : Value E P := several [pair.1, pair.2]

def ofSlot (key : SlotKey) : Value E P := several (key.numbers.map number)

end Value

instance [ElementModel E] [ValueModel E P] : ElementModel (Value E P) where
  const n := .element (ElementModel.const n)
  add := Value.combine ElementModel.add
  sub := Value.combine ElementModel.sub

instance [PointerModel P] : PointerModel (Value E P) where
  const p := .pointer (PointerModel.const p)

end FieldLisp
