/-! # Tags

The closed set of tags shared by the store, the machine and its circuit. The number of a tag is a
field element: it is the first thing that a node's hash absorbs and the first element of every
pointer. Nil is zero, so a hash slot filled with zeros decodes to nil children. -/

namespace FieldLisp

inductive Tag where
  /-- Expressions and values. -/
  | nil | cons | symbol | number | function | thunk | error
  /-- Environments. -/
  | env | recEnv
  /-- Continuations without children. -/
  | outermost | terminal | failed
  /-- Continuations with four children. -/
  | call0 | call | call2 | bindLet | bindRec | branch | unary | binary | binary2
  /-- Commitments to a secret and a payload. -/
  | commitment
  deriving DecidableEq, Repr, Inhabited

namespace Tag

/-- Every tag, by ascending number. -/
def all : List Tag :=
  [nil, cons, symbol, number, function, thunk, error, env, recEnv, outermost, terminal, failed,
    call0, call, call2, bindLet, bindRec, branch, unary, binary, binary2, commitment]

/-- Number of a tag, a field element. -/
def value : Tag → Int
  | nil => 0 | cons => 1 | symbol => 2 | number => 3 | function => 4 | thunk => 5 | error => 6
  | env => 7 | recEnv => 8 | outermost => 9 | terminal => 10 | failed => 11 | call0 => 12
  | call => 13 | call2 => 14 | bindLet => 15 | bindRec => 16 | branch => 17 | unary => 18
  | binary => 19 | binary2 => 20 | commitment => 21

/-- Written form. -/
def name : Tag → String
  | nil => "NIL" | cons => "CONS" | symbol => "SYM" | number => "NUM" | function => "FUN"
  | thunk => "THUNK" | error => "ERR" | env => "ENV" | recEnv => "REC_ENV"
  | outermost => "OUTERMOST" | terminal => "TERMINAL" | failed => "ERROR" | call0 => "CALL0"
  | call => "CALL" | call2 => "CALL2" | bindLet => "LET" | bindRec => "LETREC" | branch => "IF"
  | unary => "UNOP" | binary => "BINOP" | binary2 => "BINOP2" | commitment => "COMM"

instance : Hashable Tag := ⟨fun tag => hash tag.value⟩

/-- The tag that has a number, if one does. -/
def ofValue? (value : Int) : Option Tag := all.find? (·.value == value)

/-- The tag that has a written form, if one does. -/
def ofName? (name : String) : Option Tag := all.find? (·.name == name)

theorem ofValue?_value (tag : Tag) : ofValue? tag.value = some tag := by cases tag <;> rfl

theorem value_injective {a b : Tag} (h : a.value = b.value) : a = b := by
  have := ofValue?_value a
  rw [h, ofValue?_value, Option.some.injEq] at this
  exact this.symm

theorem mem_all (tag : Tag) : tag ∈ all := by cases tag <;> decide

/-- The tags of a list in ascending order, each as often as it occurs. -/
def ascending (tags : List Tag) : List Tag := all.flatMap fun tag => tags.filter (· == tag)

/-- Pointers of these tags carry their value themselves and never go through the hash. -/
def isImmediate : Tag → Bool
  | nil | number | error | outermost | terminal | failed => true
  | _ => false

def isEnv : Tag → Bool
  | env | recEnv => true
  | _ => false

/-- A state whose continuation has one of these tags is at rest. -/
def isHalted : Tag → Bool
  | terminal | failed => true
  | _ => false

/-- Environments, in ascending order. -/
def envs : List Tag := [env, recEnv]

/-- Continuations of a state at rest, in ascending order. -/
def halts : List Tag := [terminal, failed]

/-- Continuations with children, in ascending order. -/
def frames : List Tag := [call0, call, call2, bindLet, bindRec, branch, unary, binary, binary2]

/-- Number of children of a hashed node; a symbol hashes its name instead. -/
def arity? : Tag → Option Nat
  | cons | thunk | commitment => some 2
  | function | env | recEnv => some 3
  | call0 | call | call2 | bindLet | bindRec | branch | unary | binary | binary2 => some 4
  | _ => none

end Tag

/-- Elements that the hash of a node with `arity` children absorbs: its tag, and a tag and a digest
for each child. -/
def preimageSize (arity : Int) : Int := 1 + 5 * arity

/-- The reason that an error value carries. -/
inductive ErrorCode where
  | unboundVariable | argumentError | depthExceeded | divisionByZero | invalidForm | notAFunction
  | invalidExpression | invalidContinuation
  deriving DecidableEq, Repr, Inhabited

namespace ErrorCode

def all : List ErrorCode :=
  [unboundVariable, argumentError, depthExceeded, divisionByZero, invalidForm, notAFunction,
    invalidExpression, invalidContinuation]

/-- Number of a code, a field element. -/
def value : ErrorCode → Int
  | unboundVariable => 1 | argumentError => 2 | depthExceeded => 3 | divisionByZero => 4
  | invalidForm => 5 | notAFunction => 6 | invalidExpression => 7 | invalidContinuation => 8

/-- Written form. -/
def name : ErrorCode → String
  | unboundVariable => "UNBOUND_VARIABLE" | argumentError => "ARGUMENT_ERROR"
  | depthExceeded => "DEPTH_EXCEEDED" | divisionByZero => "DIVISION_BY_ZERO"
  | invalidForm => "INVALID_FORM" | notAFunction => "NOT_A_FUNCTION"
  | invalidExpression => "INVALID_EXPRESSION" | invalidContinuation => "INVALID_CONTINUATION"

/-- The code that has a number, if one does. -/
def ofValue? (value : Int) : Option ErrorCode := all.find? (·.value == value)

/-- The code that has a written form, if one does. -/
def ofName? (name : String) : Option ErrorCode := all.find? (·.name == name)

theorem ofValue?_value (code : ErrorCode) : ofValue? code.value = some code := by
  cases code <;> rfl

end ErrorCode

end FieldLisp
