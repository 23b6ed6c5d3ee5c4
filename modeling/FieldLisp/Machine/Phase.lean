import FieldLisp.Machine.ContRules
import FieldLisp.Machine.EvalRules

/-! # The rules of a phase

Both phases have one form: from what a phase starts with follow the guards of its rules, and each
rule has an outcome. Here a phase is a list of rules that are ready to run, in any model. -/

namespace FieldLisp

/-- A rule of a phase: its name, whether it applies, and what it does. -/
structure ReadyRule (m : Type → Type) (E P : Type) where
  name : String
  guard : E
  outcome : m (Step E P)

namespace Phase

variable {m : Type → Type} {E P : Type} [Monad m] [ElementModel E] [PointerModel P]
  [StepModel m E P]

/-- Takes apart what a phase starts with, and makes its rules ready, in their order. Evaluation
starts with a state alone; `depth` bounds its lookup of a symbol. -/
def rules (depth : Nat) (input : Step E P) : Phase → m (List (ReadyRule m E P))
  | .eval => do
    let scope ← EvalPhase.prelude input.expr input.env input.cont
    let guards ← EvalPhase.guards scope
    pure (guards.map fun (rule, guard) => ⟨rule.name, guard, EvalPhase.run depth rule scope⟩)
  | .cont => do
    let scope ← ContPhase.prelude input
    let guards ← ContPhase.guards scope
    pure (guards.map fun (rule, guard) => ⟨rule.name, guard, ContPhase.run rule scope⟩)

/-- Begins a phase: its slots count from zero, and its rules are ready. -/
def enter [RunModel m E P] (depth : Nat) (input : Step E P) (phase : Phase) :
    m (List (ReadyRule m E P)) := do
  RunModel.onCursor (·.beginPhase phase)
  let rules ← phase.rules depth input
  RunModel.onCursor (·.beginRules)
  pure rules

end Phase

end FieldLisp
