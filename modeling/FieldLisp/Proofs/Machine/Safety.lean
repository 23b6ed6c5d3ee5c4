import FieldLisp.Proofs.Machine.StepReduct
import FieldLisp.Proofs.Store.Rendering

/-!
# No step breaks an invariant

In a store that operations built, a step from any state that is there, whatever the tags of its three
pointers are, finds exactly one rule in each phase and never asks the store for what is not there. It
can only fail on a value that it reports and that contains an error value with an unknown code.

* `OneHot`: exactly one of several flags is one, the others are zero;
* `Machine.step_error`: why a step fails, if it does;
* `Machine.step_rests`: a step from a state at rest changes nothing, in the store neither;
* `Machine.step_safe`: all invariants of a step.
-/

namespace FieldLisp

open Workspace

/-- The flag of one rule is one, those of the others are zero. -/
def OneHot {κ : Type} [DecidableEq κ] (rules : List κ) (live : κ) (flags : List (κ × Int)) : Prop :=
  live ∈ rules ∧ flags = rules.map fun rule => (rule, if rule = live then 1 else 0)

theorem oneHot_map {κ : Type} [DecidableEq κ] {rules : List κ} {live : κ} (h : live ∈ rules) :
    OneHot rules live (rules.map fun rule => (rule, bit (rule == live))) := by
  refine ⟨h, List.map_congr_left fun rule _ => ?_⟩
  by_cases hrule : rule = live <;> simp [bit, hrule]

namespace Machine

variable {config : Config} {state : State} {s t : Store} {F : Frame}

theorem evalGuards_oneHot (hs : s.Sound) (hstate : state.Held s) : ∃ flags w,
    evalGuards state (.ofStore s) = .ok flags w ∧ OneHot EvalRule.all (evalRule state s) flags := by
  obtain ⟨w, hguards, -, -⟩ := gives_evalGuards hs hstate (.ofStore s) rfl
  exact ⟨_, w, hguards, oneHot_map (EvalRule.mem_all _)⟩

theorem contGuards_oneHot (config : Config) (hs : s.Sound) (hstate : state.Held s) : ∃ flags w,
    contGuards config state (.ofStore s) = .ok flags w ∧
      OneHot ContRule.all (contRule config state s) flags := by
  obtain ⟨w, hguards, -, -⟩ := gives_contGuards config hs hstate (.ofStore s) rfl
  exact ⟨_, w, hguards, oneHot_map (ContRule.mem_all _)⟩

/-- A step is computed as the phases say, or it reports a value without a written form. -/
theorem step_cases (config : Config) (hs : s.Sound) (hstate : state.Held s) :
    (∃ F, step config state s = .ok F (next config state s).2 ∧ Follows config state s F) ∨
      ∃ v fault, report? config state s = some v ∧
        (middle config state s).2.render v = .error fault ∧
        step config state s = .error fault (middle config state s).2 := by
  cases hreported : report? config state s with
  | none => exact .inl (step_silent config hs hstate hreported)
  | some v =>
    cases hrender : (middle config state s).2.render v with
    | ok text => exact .inl (step_written config hs hstate hreported hrender)
    | error fault =>
      exact .inr ⟨v, fault, rfl, hrender, step_unwritten config hs hstate hreported hrender⟩

/-- The value that is reported is the expression between the phases, and it is a value. -/
theorem report?_eq_some {v : Pointer} (h : report? config state s = some v) :
    (middle config state s).1.returned = true ∧ v = (middle config state s).1.state.expr := by
  unfold report? ContPhase.reported at h
  split at h
  · rename_i hreports
    cases h
    exact ⟨hreports.1, rfl⟩
  · cases h

theorem step_ok (hs : s.Sound) (hstate : state.Held s) (h : step config state s = .ok F t) :
    t = (next config state s).2 ∧ Follows config state s F := by
  rcases step_cases config hs hstate with ⟨F', hstep, hfollows⟩ | ⟨v, fault, -, -, hstep⟩
  · rw [h] at hstep
    cases hstep
    exact ⟨rfl, hfollows⟩
  · rw [h] at hstep
    cases hstep

/-- A step that fails reports a value that contains an error value with an unknown code. -/
theorem step_error (hreachable : Store.Reachable s) (hstate : state.Held s) {fault : Fault}
    (h : step config state s = .error fault t) : Store.Reachable t ∧ ∃ v p value,
      report? config state s = some v ∧ t.Above v p ∧ p.tag = .error ∧ p.payload = .ok value ∧
        ErrorCode.ofValue? value = none ∧ fault = .unknownErrorCode value := by
  have hs := Store.reachable_sound hreachable
  obtain ⟨hgrows, hmiddle⟩ := middle_moves config hs hstate
  have hmiddleReachable := hgrows.reachable hreachable
  rcases step_cases config hs hstate with ⟨F, hstep, -⟩ | ⟨v, fault', hreported, hrender, hstep⟩
  · rw [h] at hstep
    cases hstep
  · rw [h] at hstep
    cases hstep
    have hv : (middle config state s).2.Holds v := by
      rw [(report?_eq_some hreported).2]
      exact (State.held_iff.1 hmiddle).1
    obtain ⟨p, value, hp⟩ := Store.render_eq_error hmiddleReachable hv fault hrender
    exact ⟨hmiddleReachable, v, p, value, hreported, hp⟩

/-- A step from a state at rest repeats it, and changes nothing. -/
theorem step_rests (config : Config) (hs : s.Sound) (hstate : state.Held s)
    (hhalted : state.isHalted = true) : ∃ F, step config state s = .ok F s ∧ F.output = state := by
  have hmiddle : middle config state s = (⟨state, false⟩, s) := by
    unfold middle EvalPhase.reduct
    rw [if_pos hhalted]
  have hnext : next config state s = (state, s) := by
    unfold next
    rw [hmiddle]
    rfl
  have hsilent : report? config state s = none := by
    unfold report?
    rw [hmiddle]
    rfl
  obtain ⟨F, hstep, hfollows⟩ := step_silent config hs hstate hsilent
  rw [hnext] at hstep
  exact ⟨F, hstep, by rw [hfollows.output, hnext]⟩

/-- No step breaks an invariant: in either phase the flag of one rule is one and those of the others
are zero; what the step leaves is in the store that it leaves; it fails, if it does, for want of a
written form only; and a state at rest stays as it is, and so does the store. -/
theorem step_safe (config : Config) (hreachable : Store.Reachable s) (hstate : state.Held s) :
    ∃ rule returnRule,
      (∃ flags w, evalGuards state (.ofStore s) = .ok flags w ∧ OneHot EvalRule.all rule flags) ∧
      (∃ flags w, contGuards config state (.ofStore s) = .ok flags w ∧
        OneHot ContRule.all returnRule flags) ∧
      (∀ F t, step config state s = .ok F t → Store.Reachable t ∧ F.rule = rule ∧
        F.returnRule = returnRule ∧ F.intermediate.Held t ∧ F.output.Held t) ∧
      (∀ fault t, step config state s = .error fault t →
        Store.Reachable t ∧ ∃ value, fault = .unknownErrorCode value) ∧
      (state.isHalted = true → ∃ F, step config state s = .ok F s ∧ F.output = state) := by
  have hs := Store.reachable_sound hreachable
  refine ⟨evalRule state s, contRule config state s, evalGuards_oneHot hs hstate,
    contGuards_oneHot config hs hstate, fun F t hstep => ?_, fun fault t hstep => ?_,
    step_rests config hs hstate⟩
  · obtain ⟨rfl, hfollows⟩ := step_ok hs hstate hstep
    obtain ⟨hgrows, hmiddle⟩ := middle_moves config hs hstate
    obtain ⟨hgrows', hnext⟩ := next_moves config hs hstate
    obtain ⟨hgrows'', -⟩ := ContPhase.reduct_moves hgrows.sound hmiddle
    rw [hfollows.rule, hfollows.returnRule, hfollows.intermediate, hfollows.output]
    exact ⟨hgrows'.reachable hreachable, rfl, rfl, fun p hp => hgrows''.holds (hmiddle p hp), hnext⟩
  · obtain ⟨hleft, v, p, value, -, -, -, -, -, hfault⟩ := step_error hreachable hstate hstep
    exact ⟨hleft, value, hfault⟩

/-- A state in which no tag fits its place: the expression is a continuation, the environment a number
and the continuation an error value. -/
def illTyped : State := ⟨.outermost, .number 5, .error .argumentError⟩

theorem step_safe_illTyped : Store.Reachable (.empty false) ∧ illTyped.Held (.empty false) ∧
    ∃ rule returnRule,
      (∃ flags w, evalGuards illTyped (.ofStore (.empty false)) = .ok flags w ∧
        OneHot EvalRule.all rule flags) ∧
      ∃ flags w, contGuards .standard illTyped (.ofStore (.empty false)) = .ok flags w ∧
        OneHot ContRule.all returnRule flags := by
  have hheld : illTyped.Held (.empty false) := State.held_iff.2
    ⟨Store.holds_immediate _ (Pointer.immediate_canonical .outermost 0) rfl,
      Store.holds_immediate _ (Pointer.immediate_canonical .number 5) rfl,
      Store.holds_immediate _ (Pointer.immediate_canonical .error _) rfl⟩
  obtain ⟨rule, returnRule, hguards, hreturnGuards, -⟩ := step_safe .standard (.empty false) hheld
  exact ⟨.empty false, hheld, rule, returnRule, hguards, hreturnGuards⟩

end Machine

end FieldLisp
