import FieldLisp.Config
import FieldLisp.Machine.Computation
import FieldLisp.Machine.ContRules
import FieldLisp.Machine.EvalRules

/-! # The step function

Every state leads to exactly one frame. -/

namespace FieldLisp

/-- The rules whose guards hold. -/
def firing (guards : List (κ × Int)) : List κ := (guards.filter (·.2 ≠ 0)).map (·.1)

/-- The one rule whose guard holds. -/
def dispatch (name : κ → String) (guards : List (κ × Int)) : Except Fault κ :=
  match firing guards with
  | [rule] => .ok rule
  | rules => .error (.dispatch (rules.map name))

namespace Machine
open Workspace

/-- The evaluation phase: the rule that applied and its outcome. -/
def evalPhase (config : Config) (state : State) : ComputeM (EvalRule × Step Int Pointer) := do
  onCursor (·.beginPhase .eval)
  let scope ← EvalPhase.prelude state.expr state.env state.cont
  let guards ← EvalPhase.guards scope
  let rule ← ask fun _ => dispatch EvalRule.name guards
  onCursor (·.beginRules)
  let outcome ← EvalPhase.run config.lookupDepth rule scope
  pure (rule, outcome)

/-- The continuation phase: the rule that applied and its outcome. -/
def contPhase (mid : Step Int Pointer) : ComputeM (ContRule × Step Int Pointer) := do
  onCursor (·.beginPhase .cont)
  let scope ← ContPhase.prelude mid
  let guards ← ContPhase.guards scope
  let rule ← ask fun _ => dispatch ContRule.name guards
  onCursor (·.beginRules)
  let outcome ← ContPhase.run rule scope
  pure (rule, outcome)

/-- One step, on a fresh workspace. -/
def frame (config : Config) (state : State) : ComputeM Frame := do
  let (rule, mid) ← evalPhase config state
  let (returnRule, out) ← contPhase mid
  let w ← get
  pure {
    input := state
    output := ⟨out.expr, out.env, out.cont⟩
    rule := rule
    returnRule := returnRule
    intermediate := ⟨mid.expr, mid.env, mid.cont⟩
    returned := mid.ret != 0
    slots := w.slots
    emitted := w.emitted.reverse }

/-- One step from a state. -/
def step (config : Config) (state : State) : StoreM Frame := fun store =>
  match frame config state (.ofStore store) with
  | .ok frame w => .ok frame w.store
  | .error fault w => .error fault w.store

end Machine

end FieldLisp
