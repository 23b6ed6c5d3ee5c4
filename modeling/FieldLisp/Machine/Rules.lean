import FieldLisp.Machine.State

/-! # What the rules have in common

The outcome of a rule is the next state and a flag that says whether its expression is a value. -/

namespace FieldLisp

/-- Outcome of a rule in some model. -/
structure Step (E P : Type) where
  expr : P
  env : P
  cont : P
  /-- Whether `expr` is a value. -/
  ret : E

namespace Step
open StepModel

variable {m : Type → Type} {E P : Type} [Monad m] [ElementModel E] [PointerModel P]
  [StepModel m E P]

/-- The first outcome if the flag is one, the second if it is zero. -/
def choose (flag : E) (x y : Step E P) : m (Step E P) := do
  let expr ← selectPointer flag x.expr y.expr
  let env ← selectPointer flag x.env y.env
  let cont ← selectPointer flag x.cont y.cont
  let ret ← select flag x.ret y.ret
  pure ⟨expr, env, cont, ret⟩

/-- The machine stops with an error value. -/
def fail (env : P) (code : ErrorCode) : Step E P := ⟨ptr (.error code), env, ptr .failed, lit 0⟩

/-- The machine stops with an error value whose code was computed. -/
def failWith (env : P) (code : E) : m (Step E P) := do
  let value ← makePointer (lit Tag.error.value) [code, lit 0, lit 0, lit 0]
  pure ⟨value, env, ptr .failed, lit 0⟩

end Step

end FieldLisp
