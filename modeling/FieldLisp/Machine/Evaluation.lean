import FieldLisp.Machine.Step

/-! # Evaluation

Steps are taken until the state is at rest, the budget is used up or the caller cancels. However a
run ends, its frames follow each other. -/

namespace FieldLisp

/-- Why a run ended. -/
inductive Reason where
  | completed
  | errorHalted
  | maxStepsReached
  | cancelled
  deriving DecidableEq, Repr, Inhabited

def Reason.name : Reason → String
  | completed => "completed"
  | errorHalted => "error_halted"
  | maxStepsReached => "max_steps_reached"
  | cancelled => "cancelled"

/-- A run: its frames in order, why it ended, and where it started. -/
structure Evaluation where
  frames : List Frame
  reason : Reason
  initial : State
  deriving DecidableEq, Repr, Inhabited

/-- The state that a trace leads to from its start. -/
def finalState (initial : State) (frames : List Frame) : State :=
  (frames.getLast?.map Frame.output).getD initial

namespace Evaluation

def final (e : Evaluation) : State := finalState e.initial e.frames

/-- The value, or the error value, that the run ended with. -/
def result (e : Evaluation) : Pointer := e.final.expr

def iterations (e : Evaluation) : Nat := e.frames.length

/-- Everything that the program reported, in order. -/
def emitted (e : Evaluation) : List Pointer := e.frames.flatMap Frame.emitted

end Evaluation

namespace Machine

/-- Why a run stops in this state with this many steps left, if it does. -/
def stop? (cancelled : Bool) (budget : Nat) (state : State) : Option Reason :=
  if state.isHalted then some (if state.isFailed then .errorHalted else .completed)
  else if budget = 0 then some .maxStepsReached
  else if cancelled then some .cancelled
  else none

/-- Takes at most `budget` steps. Frames taken so far are given last one first. -/
def run (config : Config) (cancelled : Bool) :
    Nat → State → List Frame → StoreM (List Frame × Reason)
  | 0, state, taken =>
    pure (taken.reverse, (stop? cancelled 0 state).getD .maxStepsReached)
  | budget + 1, state, taken =>
    match stop? cancelled (budget + 1) state with
    | some reason => pure (taken.reverse, reason)
    | none => do
      let frame ← step config state
      run config cancelled budget frame.output (frame :: taken)

/-- Evaluates an expression in an environment, nil if none is given, for at most `maxSteps` frames.
Both must be in the store. -/
def evaluate (config : Config) (maxSteps : Int) (cancelled : Bool) (expr : Pointer)
    (env : Option Pointer) : StoreM Evaluation := do
  if maxSteps < 0 then throw (.negativeSteps maxSteps)
  let expr ← Store.internPointer expr
  let env ←
    match env with
    | some env => Store.internPointer env
    | none => pure .nil
  let initial := State.initial expr env
  let (frames, reason) ← run config cancelled maxSteps.toNat initial []
  pure ⟨frames, reason, initial⟩

/-- Takes exactly `count` steps, each from where the last one ended. -/
def steps (config : Config) : Nat → State → StoreM (List Frame)
  | 0, _ => pure []
  | count + 1, state => do
    let frame ← step config state
    let frames ← steps config count frame.output
    pure (frame :: frames)

/-- Extends a trace that ended at rest by identity frames to a given length. An empty trace needs
the state that it starts in. -/
def padTrace (config : Config) (frames : List Frame) (length : Int) (initial : Option State) :
    StoreM (List Frame) :=
  if length < frames.length then throw (.traceTooLong frames.length length)
  else if length = frames.length then pure frames
  else
    match (frames.getLast?.map Frame.output).or initial with
    | none => throw .traceNotHalted
    | some final =>
      if final.isHalted then do
        let identity ← step config final
        pure (frames ++ List.replicate (length.toNat - frames.length) identity)
      else throw .traceNotHalted

end Machine

/-- An expression to evaluate, the environment if it is not nil, and the name of the store that
holds both. -/
structure Job (κ : Type) where
  store : κ
  expr : Pointer
  env : Option Pointer

namespace Machine

variable {κ : Type} [DecidableEq κ]

/-- Runs jobs one after the other, each on the store it names. A job that fails stops no other. -/
def runJobs (config : Config) (maxSteps : Int) :
    List (Job κ) → (κ → Store) → List (Except Fault Evaluation) × (κ → Store)
  | [], stores => ([], stores)
  | job :: jobs, stores =>
    let (result, store) :=
      match evaluate config maxSteps false job.expr job.env (stores job.store) with
      | .ok evaluation store => (.ok evaluation, store)
      | .error fault store => (.error fault, store)
    let (results, stores) := runJobs config maxSteps jobs
      (fun name => if name = job.store then store else stores name)
    (result :: results, stores)

/-- Evaluates independent jobs; results are in job order. Jobs may share a store only if it was made
for that. -/
def evaluateBatch (config : Config) (maxSteps : Int) (workers : Option Int) (jobs : List (Job κ)) :
    EStateM Fault (κ → Store) (List Evaluation) := fun stores =>
  let collides (job : Job κ) : Bool :=
    !(stores job.store).shared && jobs.countP (fun other => other.store = job.store) > 1
  if jobs.any collides then .error .unsharedStore stores
  else if workers.any (· < 1) then .error .noWorkers stores
  else
    let (results, stores) := runJobs config maxSteps jobs stores
    match results.mapM id with
    | .ok evaluations => .ok evaluations stores
    | .error fault => .error fault stores

end Machine

end FieldLisp
