import FieldLisp.Proofs.Machine.Moves

/-!
# A step by cases

A step of a state that is held comes to what the two phases make of the state, one after the other. It
fails only where a value has no written form that it reports:

* `Machine.middle`, `Machine.next`: the outcome between the phases, and the state that follows;
* `Machine.evalGuards_eq`, `Machine.contGuards_eq`: in each phase the guard of one rule holds;
* `Machine.step_silent`, `Machine.step_written`, `Machine.step_unwritten`: what a step comes to.
-/

namespace FieldLisp

open StepModel Workspace

variable {config : Config} {state : State} {s : Store}

namespace Workspace

theorem gives_onCursor (change : SlotCursor → SlotCursor) (s : Store) :
    Gives (onCursor change) s () s := fun w h => ⟨{ w with cursor := change w.cursor }, rfl, h, rfl⟩

theorem gives_ask {α : Type} {question : Store → Except Fault α} {a : α} (h : question s = .ok a) :
    Gives (ask question) s a s := fun w hw => ⟨w, by rw [ask, hw, h], hw, rfl⟩

end Workspace

theorem dispatch_map {κ : Type} [DecidableEq κ] (name : κ → String) {rules : List κ} {live : κ}
    (hnodup : rules.Nodup) (hlive : live ∈ rules) :
    dispatch name (rules.map fun rule => (rule, bit (rule == live))) = .ok live := by
  simp only [dispatch, firing_map hnodup hlive]

namespace Machine

/-! ## Guards -/

/-- The guards of the evaluation phase. -/
def evalGuards (state : State) : ComputeM (List (EvalRule × Int)) := do
  onCursor (·.beginPhase .eval)
  let scope ← EvalPhase.prelude state.expr state.env state.cont
  EvalPhase.guards scope

/-- The guards of the continuation phase that follows. -/
def contGuards (config : Config) (state : State) : ComputeM (List (ContRule × Int)) := do
  let outcome ← evalPhase config state
  onCursor (·.beginPhase .cont)
  let scope ← ContPhase.prelude outcome.2
  ContPhase.guards scope

/-! ## Phases -/

/-- The outcome between the two phases. -/
def middle (config : Config) (state : State) (s : Store) : Outcome × Store :=
  EvalPhase.reduct config.lookupDepth state s

/-- The state that follows. -/
def next (config : Config) (state : State) (s : Store) : State × Store :=
  ContPhase.reduct (middle config state s).1 (middle config state s).2

/-- The value that is reported, if one is. -/
def report? (config : Config) (state : State) (s : Store) : Option Pointer :=
  ContPhase.reported (middle config state s).1 (middle config state s).2

/-- The evaluation rule that applies. -/
def evalRule (state : State) (s : Store) : EvalRule :=
  EvalPhase.firing state.expr (s.car state.expr) state.cont

/-- The continuation rule that applies. -/
def contRule (config : Config) (state : State) (s : Store) : ContRule :=
  ContPhase.firing (middle config state s).1.returned (middle config state s).1.state.cont

theorem middle_moves (config : Config) (hs : s.Sound) (hstate : state.Held s) :
    s.Moves (middle config state s).1.state (middle config state s).2 :=
  EvalPhase.reduct_moves config.lookupDepth hs hstate

theorem next_moves (config : Config) (hs : s.Sound) (hstate : state.Held s) :
    s.Moves (next config state s).1 (next config state s).2 := by
  obtain ⟨hgrows, hmiddle⟩ := middle_moves config hs hstate
  obtain ⟨hgrows', hnext⟩ := ContPhase.reduct_moves hgrows.sound hmiddle
  exact ⟨hgrows.trans hgrows', hnext⟩

/-- The continuation phase makes of an outcome what follows, if it reports nothing. -/
theorem gives_contPhase_of_silent (hs : s.Sound) {o : Outcome} (hexpr : s.Holds o.state.expr)
    (hcont : s.Holds o.state.cont) (hsilent : ContPhase.reported o s = none) :
    Gives (contPhase o.toStep) s
      (ContPhase.firing o.returned o.state.cont, ContPhase.toStep (ContPhase.reduct o s).1)
      (ContPhase.reduct o s).2 := by
  have hguards := ContPhase.guards_view s o
  unfold contPhase
  refine (gives_onCursor _ _).bind ((ContPhase.gives_prelude hs hcont).bind ?_)
  rw [hguards, pure_bind]
  refine (gives_ask (dispatch_map _ ContRule.nodup_all (ContRule.mem_all _))).bind
    ((gives_onCursor _ _).bind ?_)
  exact (ContPhase.gives_run hs hexpr hcont hsilent).bind (gives_pure _ _)

section
variable (config) (hs : s.Sound) (hstate : state.Held s)
include hs hstate

theorem gives_evalPhase : Gives (evalPhase config state) s
    (evalRule state s, (middle config state s).1.toStep) (middle config state s).2 := by
  obtain ⟨hexpr, henv, hcont⟩ := State.held_iff.1 hstate
  have hguards := EvalPhase.guards_view s state.expr state.env state.cont
  unfold evalPhase
  refine (gives_onCursor _ s).bind ((EvalPhase.gives_prelude hs fun _ => hexpr).bind ?_)
  rw [hguards, pure_bind]
  refine (gives_ask (dispatch_map _ EvalRule.nodup_all (EvalRule.mem_all _))).bind
    ((gives_onCursor _ s).bind ?_)
  exact (EvalPhase.gives_run config.lookupDepth hs hexpr henv hcont).bind (gives_pure _ _)

/-- In the evaluation phase the guard of one rule holds. -/
theorem gives_evalGuards : Gives (evalGuards state) s
    (EvalRule.all.map fun rule => (rule, bit (rule == evalRule state s))) s := by
  obtain ⟨hexpr, -, -⟩ := State.held_iff.1 hstate
  have hguards := EvalPhase.guards_view s state.expr state.env state.cont
  unfold evalGuards
  refine (gives_onCursor _ s).bind ((EvalPhase.gives_prelude hs fun _ => hexpr).bind ?_)
  rw [hguards]
  exact gives_pure _ s

/-- In the continuation phase the guard of one rule holds. -/
theorem gives_contGuards : Gives (contGuards config state) s
    (ContRule.all.map fun rule => (rule, bit (rule == contRule config state s)))
    (middle config state s).2 := by
  obtain ⟨hgrows, hmiddle⟩ := middle_moves config hs hstate
  obtain ⟨-, -, hcont⟩ := State.held_iff.1 hmiddle
  have hguards := ContPhase.guards_view (middle config state s).2 (middle config state s).1
  unfold contGuards
  refine (gives_evalPhase config hs hstate).bind ((gives_onCursor _ _).bind
    ((ContPhase.gives_prelude hgrows.sound hcont).bind ?_))
  rw [hguards]
  exact gives_pure _ _

/-- The continuation phase, if it reports nothing. -/
theorem gives_contPhase (hsilent : report? config state s = none) :
    Gives (contPhase (middle config state s).1.toStep) (middle config state s).2
      (contRule config state s, ContPhase.toStep (next config state s).1) (next config state s).2 := by
  obtain ⟨hgrows, hmiddle⟩ := middle_moves config hs hstate
  obtain ⟨hexpr, -, hcont⟩ := State.held_iff.1 hmiddle
  exact gives_contPhase_of_silent hgrows.sound hexpr hcont hsilent

/-- The continuation phase, if it reports a value. -/
theorem reports_contPhase {v : Pointer} (hreported : report? config state s = some v) :
    Reports (contPhase (middle config state s).1.toStep) (middle config state s).2 v
      (contRule config state s, ContPhase.toStep (next config state s).1) (next config state s).2 := by
  obtain ⟨hgrows, hmiddle⟩ := middle_moves config hs hstate
  obtain ⟨hexpr, -, hcont⟩ := State.held_iff.1 hmiddle
  have hguards := ContPhase.guards_view (middle config state s).2 (middle config state s).1
  unfold contPhase
  refine (gives_onCursor _ _).bind_reports ((ContPhase.gives_prelude hgrows.sound hcont).bind_reports ?_)
  rw [hguards, pure_bind]
  refine (gives_ask (dispatch_map _ ContRule.nodup_all (ContRule.mem_all _))).bind_reports
    ((gives_onCursor _ _).bind_reports ?_)
  exact (ContPhase.reports_run hgrows.sound hexpr hreported).bind (gives_pure _ _)

end

/-! ## Steps -/

/-- What a frame says of the step that it records. -/
structure Follows (config : Config) (state : State) (s : Store) (F : Frame) : Prop where
  input : F.input = state
  rule : F.rule = evalRule state s
  intermediate : F.intermediate = (middle config state s).1.state
  returned : F.returned = (middle config state s).1.returned
  returnRule : F.returnRule = contRule config state s
  output : F.output = (next config state s).1
  emitted : F.emitted = (report? config state s).toList

open EStateM (bind_of_ok bind_of_error)

/-- The frame of a step whose second phase is computed. -/
theorem step_of_contPhase (config : Config) {w w' : Workspace}
    (heval : evalPhase config state (.ofStore s) =
      .ok (evalRule state s, (middle config state s).1.toStep) w)
    (hcont : contPhase (middle config state s).1.toStep w =
      .ok (contRule config state s, ContPhase.toStep (next config state s).1) w')
    (hstore : w'.store = (next config state s).2)
    (hemitted : w'.emitted = (report? config state s).toList) :
    ∃ F, step config state s = .ok F (next config state s).2 ∧ Follows config state s F := by
  let o := (middle config state s).1
  let F : Frame := ⟨state, (next config state s).1, evalRule state s, contRule config state s, o.state,
    bit o.returned != 0, w'.slots, w'.emitted.reverse⟩
  have hframe : frame config state (.ofStore s) = .ok F w' := by
    unfold frame
    rw [bind_of_ok heval]
    dsimp only
    rw [bind_of_ok hcont]
    rfl
  have hreturned : (bit o.returned != 0) = o.returned := by cases o.returned <;> rfl
  have hreverse : w'.emitted.reverse = (report? config state s).toList := by
    rw [hemitted]
    cases report? config state s <;> rfl
  exact ⟨F, by rw [step, hframe, ← hstore], rfl, rfl, rfl, hreturned, rfl, rfl, hreverse⟩

section
variable (config) (hs : s.Sound) (hstate : state.Held s)
include hs hstate

/-- A step that reports nothing is computed. -/
theorem step_silent (hsilent : report? config state s = none) :
    ∃ F, step config state s = .ok F (next config state s).2 ∧ Follows config state s F := by
  obtain ⟨w, heval, hw, hemitted⟩ := gives_evalPhase config hs hstate (.ofStore s) rfl
  obtain ⟨w', hcont, hw', hemitted'⟩ := gives_contPhase config hs hstate hsilent w hw
  refine step_of_contPhase config heval hcont hw' ?_
  rw [hemitted', hemitted, hsilent]
  rfl

/-- A step that reports a value is computed if the value has a written form. -/
theorem step_written {v : Pointer} {text : String} (hreported : report? config state s = some v)
    (htext : (middle config state s).2.render v = .ok text) :
    ∃ F, step config state s = .ok F (next config state s).2 ∧ Follows config state s F := by
  obtain ⟨w, heval, hw, hemitted⟩ := gives_evalPhase config hs hstate (.ofStore s) rfl
  obtain ⟨hwritten, -⟩ := reports_contPhase config hs hstate hreported w hw
  obtain ⟨w', hcont, hw', hemitted'⟩ := hwritten text htext
  refine step_of_contPhase config heval hcont hw' ?_
  rw [hemitted', hemitted, hreported]
  rfl

/-- It fails between the two phases if the value has none. -/
theorem step_unwritten {v : Pointer} {fault : Fault} (hreported : report? config state s = some v)
    (hfault : (middle config state s).2.render v = .error fault) :
    step config state s = .error fault (middle config state s).2 := by
  obtain ⟨w, heval, hw, -⟩ := gives_evalPhase config hs hstate (.ofStore s) rfl
  obtain ⟨-, hunwritten⟩ := reports_contPhase config hs hstate hreported w hw
  obtain ⟨w', hcont, hw'⟩ := hunwritten fault hfault
  have hframe : frame config state (.ofStore s) = .error fault w' := by
    unfold frame
    rw [bind_of_ok heval]
    exact bind_of_error hcont _
  rw [step, hframe, ← hw']

end

end Machine

end FieldLisp
