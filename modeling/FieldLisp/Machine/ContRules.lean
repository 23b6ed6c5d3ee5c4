import FieldLisp.Machine.Rules

/-! # The continuation phase

Applies the continuation to the value that the evaluation phase produced, or passes the state on if
it produced none. Exactly one guard holds; its rule runs. A value that a builtin computes is handed
on inside a thunk, so that the next step does not evaluate it again. -/

namespace FieldLisp.ContPhase
open StepModel ElementModel

/-- What the rules of the phase see: the outcome of the evaluation phase, and the children of its
continuation, if there is a value. -/
structure Scope (E P : Type) where
  value : P
  env : P
  cont : P
  ret : E
  child0 : P
  child1 : P
  child2 : P
  child3 : P

variable {m : Type → Type} {E P : Type} [Monad m] [ElementModel E] [PointerModel P]
  [StepModel m E P]

def prelude (mid : Step E P) : m (Scope E P) := do
  let isNode ← tagIn mid.cont Tag.frames
  let returning ← both mid.ret [isNode]
  let children ← unhash mid.cont 4 (some returning)
  pure ⟨mid.expr, mid.env, mid.cont, mid.ret,
    child children 0, child children 1, child children 2, child children 3⟩

/-- The rules that belong to one tag of the continuation each. -/
def ruleTags : List (ContRule × Tag) := [
  (.outermost, .outermost), (.call0, .call0), (.call, .call), (.call2, .call2),
  (.bindLet, .bindLet), (.bindRec, .bindRec), (.branch, .branch), (.unary, .unary),
  (.binary, .binary), (.binary2, .binary2)]

/-- The guard of each rule. -/
def guards (s : Scope E P) : m (List (ContRule × E)) := do
  let tagged ← ruleTags.mapM fun (rule, tag) => do
    let guard ← both s.ret [← tagIs s.cont tag]
    pure (rule, guard)
  let isKnown ← tagIn s.cont (ruleTags.map (·.2))
  let invalidCont ← both s.ret [no isKnown]
  pure ((.pass, no s.ret) :: tagged ++ [(.invalidCont, invalidCont)])

/-- Hands a value on to a continuation. -/
def returning (value env cont : P) (condition : E) : m (Step E P) := do
  let thunk ← hashTag .thunk [value, ptr .nil] (some condition)
  pure ⟨thunk, env, cont, lit 0⟩

/-! ## Rules -/

def pass (s : Scope E P) : m (Step E P) := pure ⟨s.value, s.env, s.cont, lit 0⟩

/-- The value is the result of the program. -/
def outermost (s : Scope E P) : m (Step E P) := pure ⟨s.value, s.env, ptr .terminal, lit 0⟩

/-- Calls a function without arguments. -/
def call0 (s : Scope E P) : m (Step E P) := do
  let isFunction ← tagIs s.value .function
  let (parameter, body, functionEnv) ← unhash3 s.value (some isFunction)
  let nullary ← pointerEq parameter (ptr Builtin.noParameterPointer)
  let failed ← Step.choose isFunction (.fail s.env .argumentError) (.fail s.env .notAFunction)
  let ok ← both isFunction [nullary]
  Step.choose ok ⟨body, functionEnv, s.child3, lit 0⟩ failed

/-- The head is evaluated; its first argument comes next. -/
def call (s : Scope E P) : m (Step E P) := do
  let isFunction ← tagIs s.value .function
  let cont ← hashTag .call2 [s.value, s.child1, s.child2, s.child3] (some isFunction)
  Step.choose isFunction ⟨s.child0, s.child2, cont, lit 0⟩ (.fail s.env .notAFunction)

/-- The argument is evaluated: it is bound and the body entered. Further arguments go to what the
body gives. -/
def call2 (s : Scope E P) : m (Step E P) := do
  let function := s.child0
  let more := s.child1
  let isFunction ← tagIs function .function
  let (parameter, body, functionEnv) ← unhash3 function (some isFunction)
  let nullary ← pointerEq parameter (ptr Builtin.noParameterPointer)
  let hasMore ← tagIs more .cons
  let proper := oneOf [hasMore, ← tagIs more .nil]
  let ok ← both isFunction [no nullary, proper]
  let env ← hashTag .env [parameter, s.value, functionEnv] (some ok)
  let chained ← both ok [hasMore]
  let (nextArgument, rest) ← unhash2 more (some chained)
  let call ← hashTag .call [nextArgument, rest, s.child2, s.child3] (some chained)
  let cont ← selectPointer hasMore call s.child3
  let failed ← Step.choose isFunction (.fail s.env .argumentError) (.fail s.env .notAFunction)
  Step.choose ok ⟨body, env, cont, lit 0⟩ failed

/-- Binds the value in front of the saved environment and enters the body. -/
def binding (tag : Tag) (s : Scope E P) : m (Step E P) := do
  let env ← hashTag tag [s.child0, s.value, s.child2] none
  pure ⟨s.child1, env, s.child3, lit 0⟩

/-- Only nil selects the second branch. -/
def branch (s : Scope E P) : m (Step E P) := do
  let isNil ← tagIs s.value .nil
  let chosen ← selectPointer isNil s.child1 s.child0
  pure ⟨chosen, s.child2, s.child3, lit 0⟩

/-- Applies a builtin of one operand. Pairs and commitments are taken apart through one slot. -/
def unary (s : Scope E P) : m (Step E P) := do
  let isOp ← UnaryOp.all.mapM fun op => do
    let same ← pointerEq s.child0 (ptr (Form.unary op).symbol)
    pure (op, same)
  let isCons ← tagIs s.value .cons
  let isNil ← tagIs s.value .nil
  let isCommitment ← tagIs s.value .commitment
  let listOp := oneOf [flag isOp UnaryOp.car, flag isOp UnaryOp.cdr]
  let commitmentOp := oneOf [flag isOp UnaryOp.secret, flag isOp UnaryOp.payload]
  let splits := oneOf [← both listOp [isCons], ← both commitmentOp [isCommitment]]
  let (first, second) ← unhash2 s.value (some splits)
  let part ← selectPointer (oneOf [flag isOp UnaryOp.car, flag isOp UnaryOp.secret]) first second
  let part ← selectPointer isNil (ptr .nil) part
  let badArgument := oneOf [
    ← both listOp [no (oneOf [isCons, isNil])],
    ← both commitmentOp [no isCommitment]]
  let knownOp := oneOf (isOp.map (·.2))
  let ok ← both knownOp [no badArgument]
  let commits ← both ok [flag isOp UnaryOp.commit]
  let commitment ← hashTag .commitment [ptr (.number 0), s.value] (some commits)
  let emits ← both ok [flag isOp UnaryOp.emit]
  emit s.value (some emits)
  let isAtom ← truth (no isCons)
  let reported ← selectPointer (flag isOp UnaryOp.emit) s.value part
  let built ← selectPointer (flag isOp UnaryOp.commit) commitment reported
  let result ← selectPointer (flag isOp UnaryOp.atom) isAtom built
  let code ← select knownOp (lit ErrorCode.argumentError.value)
    (lit ErrorCode.invalidContinuation.value)
  let succeeded ← returning result s.env s.child3 ok
  let failed ← Step.failWith s.env code
  Step.choose ok succeeded failed

/-- The first operand is evaluated; the second comes next. -/
def binary (s : Scope E P) : m (Step E P) := do
  let cont ← hashTag .binary2 [s.child0, s.value, ptr .nil, s.child3] none
  pure ⟨s.child1, s.child2, cont, lit 0⟩

/-- Applies a builtin of two operands. The four orderings share one signed comparison: two of them
swap the operands, two negate the result. -/
def binary2 (s : Scope E P) : m (Step E P) := do
  let a := s.child1
  let b := s.value
  let isOp ← BinaryOp.all.mapM fun op => do
    let same ← pointerEq s.child0 (ptr (Form.binary op).symbol)
    pure (op, same)
  let x ← payload a
  let y ← payload b
  let aNumber ← tagIs a .number
  let numbers ← both aNumber [← tagIs b .number]
  let (quotient, yZero) ← div x y
  let small ← both (← isSmall x) [← isSmall y]
  let divides ← both (flag isOp BinaryOp.rem) [numbers, small, no yZero]
  let (_, remainder) ← divRem x y (some divides)
  let product ← mul x y
  let value ← select (flag isOp BinaryOp.div) quotient remainder
  let value ← select (flag isOp BinaryOp.mul) product value
  let value ← select (flag isOp BinaryOp.sub) (sub x y) value
  let value ← select (flag isOp BinaryOp.add) (add x y) value
  let swapped := oneOf [flag isOp BinaryOp.greater, flag isOp BinaryOp.atMost]
  let negated := oneOf [flag isOp BinaryOp.atMost, flag isOp BinaryOp.atLeast]
  let isLess ← less (← select swapped y x) (← select swapped x y)
  let ordered ← exclusive isLess negated
  let areEqual ← equal x y
  let areSame ← pointerEq a b
  let verdict ← select (flag isOp BinaryOp.same) areSame ordered
  let verdict ← select (flag isOp BinaryOp.equal) areEqual verdict
  let arithmetic := oneOf ([.add, .sub, .mul, .div, .rem].map (flag isOp))
  let numeric := oneOf
    (arithmetic :: [.equal, .less, .greater, .atMost, .atLeast].map (flag isOp))
  let pair ← hashTag .cons [a, b] (some (flag isOp BinaryOp.cons))
  let hides ← both (flag isOp BinaryOp.hide) [aNumber]
  let commitment ← hashTag .commitment [a, b] (some hides)
  let computed ← selectPointer arithmetic (← number value) (← truth verdict)
  let built ← selectPointer (flag isOp BinaryOp.hide) commitment computed
  let result ← selectPointer (flag isOp BinaryOp.cons) pair built
  let knownOp := oneOf (isOp.map (·.2))
  let badArgument := oneOf [
    ← both numeric [no numbers],
    ← both (flag isOp BinaryOp.rem) [numbers, no small],
    ← both (flag isOp BinaryOp.hide) [no aNumber]]
  let byZero ← both (oneOf [flag isOp BinaryOp.div, flag isOp BinaryOp.rem]) [numbers, yZero]
  let ok ← both knownOp [no badArgument, no byZero]
  let reason ← select badArgument (lit ErrorCode.argumentError.value)
    (lit ErrorCode.divisionByZero.value)
  let code ← select knownOp reason (lit ErrorCode.invalidContinuation.value)
  let succeeded ← returning result s.env s.child3 ok
  let failed ← Step.failWith s.env code
  Step.choose ok succeeded failed

def invalidCont (s : Scope E P) : m (Step E P) := pure (.fail s.env .invalidContinuation)

/-- The rule itself. -/
def run : ContRule → Scope E P → m (Step E P)
  | .pass => pass
  | .outermost => outermost
  | .call0 => call0
  | .call => call
  | .call2 => call2
  | .bindLet => binding .env
  | .bindRec => binding .recEnv
  | .branch => branch
  | .unary => unary
  | .binary => binary
  | .binary2 => binary2
  | .invalidCont => invalidCont

end FieldLisp.ContPhase
