import FieldLisp.Machine.Model
import FieldLisp.Store

/-! # States and frames

A state is an expression, an environment and a continuation. A frame records one step: an evaluation
rule leads from the input to an intermediate state and, if it produced a value, a continuation rule
leads on to the output. -/

namespace FieldLisp

structure State where
  expr : Pointer
  env : Pointer
  cont : Pointer
  deriving DecidableEq, Repr, Inhabited

namespace State

/-- The state in which the evaluation of an expression begins. -/
def initial (expr env : Pointer) : State := ⟨expr, env, .outermost⟩

def pointers (s : State) : List Pointer := [s.expr, s.env, s.cont]

/-- The elements of the three pointers, fifteen in all if the state is canonical. -/
def elements (s : State) : List Int := s.expr.elements ++ s.env.elements ++ s.cont.elements

/-- The state that fifteen elements give. -/
def ofElements (elements : List Int) : Except Fault State := do
  let expr ← Pointer.ofElements (elements.take pointerSize)
  let env ← Pointer.ofElements ((elements.drop pointerSize).take pointerSize)
  let cont ← Pointer.ofElements ((elements.drop (2 * pointerSize)).take pointerSize)
  .ok ⟨expr, env, cont⟩

/-- A state at rest: a further step changes nothing. -/
def isHalted (s : State) : Bool := s.cont.tag.isHalted

/-- At rest because of an error. -/
def isFailed (s : State) : Bool := s.cont.tag == .failed

/-- All three pointers are in the store. -/
def within (s : State) (store : Store) : Bool :=
  store.contains s.expr && store.contains s.env && store.contains s.cont

def Canonical (s : State) : Prop := s.expr.Canonical ∧ s.env.Canonical ∧ s.cont.Canonical

end State

/-- Number of elements of a state. -/
def stateSize : Nat := 3 * pointerSize

theorem State.length_elements {s : State} (h : s.Canonical) : s.elements.length = stateSize := by
  simp only [State.elements, List.length_append, h.1.1, h.2.1.1, h.2.2.1]
  rfl

/-- Rules of the evaluation phase. -/
inductive EvalRule where
  | terminal | selfEvaluating | thunk | lookup | quote | lambda | cond | bindLet | bindRec | unary
  | binary | apply | invalidExpr
  deriving DecidableEq, Repr, Inhabited

namespace EvalRule

/-- All rules, in the order of their selectors. -/
def all : List EvalRule :=
  [terminal, selfEvaluating, thunk, lookup, quote, lambda, cond, bindLet, bindRec, unary, binary,
    apply, invalidExpr]

theorem mem_all (rule : EvalRule) : rule ∈ all := by cases rule <;> decide

theorem nodup_all : all.Nodup := by decide

def name : EvalRule → String
  | terminal => "TERMINAL" | selfEvaluating => "SELF_EVALUATING" | thunk => "THUNK"
  | lookup => "LOOKUP" | quote => "QUOTE" | lambda => "LAMBDA" | cond => "IF" | bindLet => "LET"
  | bindRec => "LETREC" | unary => "UNOP" | binary => "BINOP" | apply => "APPLY"
  | invalidExpr => "INVALID_EXPR"

def ofName? (name : String) : Option EvalRule := all.find? (·.name == name)

end EvalRule

/-- Rules of the continuation phase. -/
inductive ContRule where
  | pass | outermost | call0 | call | call2 | bindLet | bindRec | branch | unary | binary | binary2
  | invalidCont
  deriving DecidableEq, Repr, Inhabited

namespace ContRule

/-- All rules, in the order of their selectors. -/
def all : List ContRule :=
  [pass, outermost, call0, call, call2, bindLet, bindRec, branch, unary, binary, binary2,
    invalidCont]

theorem mem_all (rule : ContRule) : rule ∈ all := by cases rule <;> decide

theorem nodup_all : all.Nodup := by decide

def name : ContRule → String
  | pass => "PASS" | outermost => "OUTERMOST" | call0 => "CALL0" | call => "CALL"
  | call2 => "CALL2" | bindLet => "LET" | bindRec => "LETREC" | branch => "IF" | unary => "UNOP"
  | binary => "BINOP" | binary2 => "BINOP2" | invalidCont => "INVALID_CONT"

def ofName? (name : String) : Option ContRule := all.find? (·.name == name)

end ContRule

/-- The rules of a phase, in the order of their selectors. -/
def Phase.ruleNames : Phase → List String
  | .eval => EvalRule.all.map EvalRule.name
  | .cont => ContRule.all.map ContRule.name

/-- One step of the machine. -/
structure Frame where
  input : State
  output : State
  /-- The evaluation rule that applied. -/
  rule : EvalRule
  /-- The continuation rule that applied. -/
  returnRule : ContRule
  /-- The state between the two phases. -/
  intermediate : State
  /-- Whether the evaluation rule produced a value. -/
  returned : Bool
  /-- Preimages that the step hashed. -/
  slots : SlotTable
  /-- Values that the program reported, in order. -/
  emitted : List Pointer
  deriving DecidableEq, Repr, Inhabited

/-- A frame that starts at rest repeats its input; such frames fill up a trace. -/
def Frame.isIdentity (f : Frame) : Bool := f.input.isHalted

end FieldLisp
