import FieldLisp.Symbol
import FieldLisp.Table

/-! # Models of a step

The rules of the machine are stated once, over an abstract kind of field element and of pointer. A
model gives these kinds and the operations that rules are written in. One model computes a step on
the store; another builds the constraints that hold exactly when the step was right. So a rule never
branches on data: it computes all its cases and selects.

Every use of the hash goes through a numbered slot. Slots are numbered in the order of the program,
whether an operation is enabled or not, so all models agree on which slot an operation uses. -/

namespace FieldLisp

/-! ## Slots -/

/-- The two halves of a step, each with its own rules and slots. -/
inductive Phase where
  | eval
  | cont
  deriving DecidableEq, Repr, Inhabited

namespace Phase

def value : Phase → Nat
  | eval => 0
  | cont => 1

/-- Written form. -/
def name : Phase → String
  | eval => "EVAL"
  | cont => "CONT"

/-- The phase that has a number, if one does. -/
def ofValue? (value : Int) : Option Phase := [eval, cont].find? (·.value == value)

/-- The phase that has a written form, if one does. -/
def ofName? (name : String) : Option Phase := [eval, cont].find? (·.name == name)

end Phase

/-- A hash slot: the phase, the number of children that was asked for, and a count among the slots
of that number. -/
structure SlotKey where
  phase : Phase
  arity : Int
  index : Nat
  deriving DecidableEq, Repr, Inhabited

namespace SlotKey

/-- Phase, number of children and count. -/
def numbers (key : SlotKey) : List Int := [key.phase.value, key.arity, key.index]

/-- The slot that three numbers give, if there can be one. -/
def ofNumbers? : List Int → Option SlotKey
  | [phase, arity, .ofNat index] => (Phase.ofValue? phase).map fun phase => ⟨phase, arity, index⟩
  | _ => none

/-- Order of slots: by phase, then by number of children, then by count. -/
def before (a b : SlotKey) : Bool :=
  a.phase.value < b.phase.value ||
    (a.phase == b.phase && (a.arity < b.arity || (a.arity == b.arity && a.index < b.index)))

end SlotKey

/-- Preimages that a step hashed, by slot. -/
abbrev SlotTable := Table SlotKey (List Int)

/-- The entries in the order of their slots. -/
def SlotTable.ascending (table : SlotTable) : SlotTable :=
  table.mergeSort fun a b => !b.1.before a.1

/-- Where slot numbering stands: how many slots of each size are used in this phase, and how many
were before its rules began. -/
structure SlotCursor where
  phase : Phase
  used : Int → Nat
  base : Int → Nat

namespace SlotCursor

def start : SlotCursor := ⟨.eval, fun _ => 0, fun _ => 0⟩

instance : Inhabited SlotCursor := ⟨start⟩

/-- A phase numbers its slots from zero. -/
def beginPhase (cursor : SlotCursor) (phase : Phase) : SlotCursor :=
  { cursor with phase := phase, used := fun _ => 0 }

/-- The rules of the phase begin here. -/
def beginRules (cursor : SlotCursor) : SlotCursor := { cursor with base := cursor.used }

/-- Goes back to where the rules of the phase began. -/
def rewind (cursor : SlotCursor) : SlotCursor := { cursor with used := cursor.base }

/-- The next slot for a number of children. -/
def next (cursor : SlotCursor) (arity : Int) : SlotKey × SlotCursor :=
  (⟨cursor.phase, arity, cursor.used arity⟩,
    { cursor with used := fun n => if n = arity then cursor.used n + 1 else cursor.used n })

end SlotCursor

/-! ## Operations -/

/-- Field elements of a model: what needs no witness and no check. -/
class ElementModel (E : Type) where
  const : Int → E
  add : E → E → E
  sub : E → E → E

/-- Pointers of a model. -/
class PointerModel (P : Type) where
  const : Pointer → P

/-- The remaining operations of a model. Flags are elements that are zero or one. An operation with
a condition does something only if there is no condition or it is one. -/
class StepModel (m : Type → Type) (E P : outParam Type) where
  /-- The pointer with the number of a tag and the elements of a digest. -/
  makePointer : E → List E → m P
  /-- What an immediate pointer carries. -/
  payload : P → m E
  mul : E → E → m E
  /-- Quotient, zero if the divisor is zero, and whether it is. -/
  div : E → E → m (E × E)
  isZero : E → m E
  /-- Whether an element lies in the upper half of the field. -/
  isNegative : E → m E
  /-- Signed comparison. -/
  less : E → E → m E
  /-- Integer quotient and remainder of operands below 2^32, the divisor not zero; both are zero if
  the condition is. -/
  divRem : E → E → Option E → m (E × E)
  /-- The second if the first is one, the third if it is zero. -/
  select : E → E → E → m E
  selectPointer : E → P → P → m P
  tagIs : P → Tag → m E
  pointerEq : P → P → m E
  /-- Pointer of the node with this tag and these children. -/
  hash : E → List P → Option E → m P
  /-- Children of a node; all nil if the condition is zero. -/
  unhash : P → Int → Option E → m (List P)
  /-- Reports a value as output of the program. -/
  emit : P → Option E → m Unit

/-- What a run of operations takes of a model beside them. -/
class RunModel (m : Type → Type) (E P : outParam Type) where
  /-- An element from outside; in a circuit it is a new variable. -/
  input : Int → m E
  inputPointer : Pointer → m P
  onCursor : (SlotCursor → SlotCursor) → m Unit
  /-- The next slot for a number of children. -/
  nextSlot : Int → m SlotKey
  /-- Sets the selector of the running rule. Where values are only computed there is none. -/
  setGate : Option E → m Unit

/-- Operands of integer division lie below two to this power. -/
def divisionBits : Nat := 32

namespace StepModel

variable {m : Type → Type} {E P : Type} [Monad m] [ElementModel E] [PointerModel P]
  [StepModel m E P]

/-! ## Flags -/

/-- An element of the model. -/
def lit (value : Int) : E := ElementModel.const value

/-- A pointer of the model. -/
def ptr (p : Pointer) : P := PointerModel.const p

def no (flag : E) : E := ElementModel.sub (lit 1) flag

/-- All of the flags. -/
def both (flag : E) (flags : List E) : m E := flags.foldlM mul flag

/-- One of flags of which at most one is set. -/
def oneOf : List E → E
  | [] => lit 0
  | flag :: flags => flags.foldl ElementModel.add flag

/-- Exactly one of two flags. -/
def exclusive (a b : E) : m E := do
  let ab ← mul a b
  pure (ElementModel.sub (ElementModel.add a b) (ElementModel.add ab ab))

def equal (a b : E) : m E := isZero (ElementModel.sub a b)

/-- Whether the tag of a pointer is in a list; tags are tested in ascending order. -/
def tagIn (p : P) (tags : List Tag) : m E := do
  let flags ← (Tag.ascending tags).mapM (tagIs p)
  pure (oneOf flags)

/-- The flag of a key in a list of flags. -/
def flag [BEq κ] (flags : List (κ × E)) (key : κ) : E := (flags.lookup key).getD (lit 0)

/-! ## Nodes -/

/-- Pointer of a node whose tag is fixed. -/
def hashTag (tag : Tag) (children : List P) (condition : Option E) : m P :=
  hash (lit tag.value) children condition

/-- A child of a node. -/
def child (children : List P) (index : Nat) : P := children.getD index (ptr .nil)

def unhash2 (p : P) (condition : Option E) : m (P × P) := do
  let children ← unhash p 2 condition
  pure (child children 0, child children 1)

def unhash3 (p : P) (condition : Option E) : m (P × P × P) := do
  let children ← unhash p 3 condition
  pure (child children 0, child children 1, child children 2)

/-- A proper list. -/
def buildList (items : List P) (condition : Option E) : m P :=
  items.reverse.foldlM (fun rest item => hashTag .cons [item, rest] condition) (ptr .nil)

/-- The truth value of a flag. -/
def truth (flag : E) : m P := selectPointer flag (ptr Builtin.truthPointer) (ptr .nil)

/-- The number that an element is. -/
def number (value : E) : m P := makePointer (lit Tag.number.value) [value, lit 0, lit 0, lit 0]

/-- Whether an element, read as a number from zero up, is a legal operand of integer division. -/
def isSmall (x : E) : m E := do
  let below ← isNegative (ElementModel.sub x (lit (Int.ofNat (1 <<< divisionBits))))
  let negative ← isNegative x
  both (no negative) [below]

end StepModel

end FieldLisp
