import FieldLisp.Proofs.Machine.Bounded

/-!
# Evaluations and their runs

An evaluation takes the frames of a run until it comes to rest, or until the budget is exhausted:

* `Machine.run_of_ran`, `Machine.run_of_exhausted`: how a run ends for a given budget;
* `Machine.evaluate_of_ran`, `Machine.Visits.evaluates`: a run that comes to rest within the budget is an evaluation;
* `Machine.evaluate_not_completed`, `Machine.not_number`: what is never completed, or not with a number.
-/

namespace FieldLisp

open Store

variable {s t u : Store} {known : Set (List Int)} {config : Config} {st st' : State} {frames : List Frame} {r : Store}
  {p : Pointer}

namespace Machine

/-! ## Runs that come to rest -/

/-- Why a run ends that has come to rest. -/
def restReason (st : State) : Reason := if st.isFailed then .errorHalted else .completed

theorem restReason_of_terminal (hst : st.cont.tag = .terminal) : st.isHalted = true ∧ restReason st = .completed := by
  unfold restReason State.isHalted State.isFailed
  rw [hst]
  exact ⟨rfl, rfl⟩

theorem run_of_halted {cancelled : Bool} {budget : ℕ} {taken : List Frame} (hst : st.isHalted = true) :
    run config cancelled budget st taken s = .ok (taken.reverse, restReason st) s := by
  have hstop : stop? cancelled budget st = some (restReason st) := by
    unfold stop?
    rw [if_pos hst]
    rfl
  cases budget with
  | zero => rw [run, hstop]; rfl
  | succ budget => rw [run, hstop]; rfl

/-- A run takes frames that do not start at rest, as long as the budget lasts. -/
theorem run_of_moving {budget : ℕ} {st : State} (taken : List Frame) (hran : Ran config st s frames r)
    (hmoves : ∀ F ∈ frames, F.input.isHalted = false) :
    run config false (frames.length + budget) st taken s =
      run config false budget (finalState st frames) (frames.reverse ++ taken) r := by
  induction hran generalizing taken with
  | nil => rw [List.length_nil, Nat.zero_add]; rfl
  | @cons st s r u F frames hstep hrest ih =>
    obtain ⟨hmoving, hmoves⟩ := List.forall_mem_cons.1 hmoves
    rw [input_of_step hstep] at hmoving
    have hstop : stop? false (frames.length + budget + 1) st = none := by
      unfold stop?
      rw [hmoving]
      rfl
    rw [List.length_cons, Nat.add_right_comm, run, hstop]
    dsimp only
    rw [EStateM.bind_of_ok hstep, ih (F :: taken) hmoves, finalState_cons, List.reverse_cons, List.append_assoc]
    rfl

/-- A run with enough of a budget takes all frames that lead to rest. -/
theorem run_of_ran {budget : ℕ} {st : State} (taken : List Frame) (hran : Ran config st s frames r)
    (hmoves : ∀ F ∈ frames, F.input.isHalted = false) (hfinal : (finalState st frames).isHalted = true)
    (hbudget : frames.length ≤ budget) :
    run config false budget st taken s = .ok (taken.reverse ++ frames, restReason (finalState st frames)) r := by
  obtain ⟨rest, rfl⟩ := Nat.exists_eq_add_of_le hbudget
  rw [run_of_moving taken hran hmoves, run_of_halted hfinal, List.reverse_append, List.reverse_reverse]

/-- With less of a budget it takes as many, and ends for want of more. -/
theorem run_of_exhausted {st : State} (taken : List Frame) (hran : Ran config st s frames r)
    (hmoves : ∀ F ∈ frames, F.input.isHalted = false) (hfinal : (finalState st frames).isHalted = false) :
    run config false frames.length st taken s = .ok (taken.reverse ++ frames, .maxStepsReached) r := by
  have hrun : run config false (frames.length + 0) st taken s = _ := run_of_moving taken hran hmoves
  rw [Nat.add_zero] at hrun
  rw [hrun, run, stop?, hfinal, List.reverse_append, List.reverse_reverse]
  rfl

/-! ## Evaluations -/

/-- A run that comes to rest within the budget is an evaluation that ends there. -/
theorem evaluate_of_ran {budget : Int} {env : Pointer} {final : State} (hp : s.Holds p) (henv : s.Holds env)
    (hran : RanTo config (.initial p env) s frames final r) (hmoves : ∀ F ∈ frames, F.input.isHalted = false)
    (hfinal : final.isHalted = true) (hbudget : frames.length ≤ budget) :
    evaluate config budget false p (some env) s = .ok ⟨frames, restReason final, .initial p env⟩ r := by
  obtain ⟨hran, rfl⟩ := hran
  have hrun := run_of_ran [] hran hmoves hfinal (show frames.length ≤ budget.toNat by omega)
  exact evaluate_eq_ok.2 ⟨by omega, hp.contains, henv.contains, rfl, hrun⟩

/-- A run through given states, the last of which ends it, is an evaluation that is completed. -/
theorem Visits.evaluates {inputs : List State} {budget : Int} {env : Pointer} {final : State}
    (h : Visits config known inputs (.initial p env) s st t) (hs : Reachable s) (hp : s.Holds p) (henv : s.Holds env)
    (hmoving : st.isHalted = false) (hlast : Visits config known [st] st t final u)
    (hfinal : final.cont.tag = .terminal) (hbudget : inputs.length + 1 ≤ budget) :
    ∃ frames, frames.map Frame.input = inputs ++ [st] ∧ RanTo config (.initial p env) s frames final u ∧
      evaluate config budget false p (some env) s = .ok ⟨frames, .completed, .initial p env⟩ u := by
  obtain ⟨others, hothers, hran', -⟩ := id h
  have hmoves := hran'.moving hs (held_initial hp henv) hmoving
  obtain ⟨frames, hinputs, hran, -⟩ := h.trans hlast
  have hall : ∀ F ∈ frames, F.input.isHalted = false := by
    intro F hF
    have hinput : F.input ∈ inputs ++ [st] := hinputs ▸ List.mem_map_of_mem hF
    rw [← hothers, List.mem_append, List.mem_singleton, List.mem_map] at hinput
    rcases hinput with ⟨G, hG, hsame⟩ | hsame
    · exact hsame ▸ hmoves G hG
    · rwa [hsame]
  have hlength := congrArg List.length hinputs
  rw [List.length_map, List.length_append, List.length_singleton] at hlength
  obtain ⟨hhalted, hcompleted⟩ := restReason_of_terminal hfinal
  rw [← hcompleted]
  exact ⟨frames, hinputs, hran, evaluate_of_ran hp henv hran hall hhalted (by omega)⟩

/-- An evaluation is not completed if no run with its outcome is. -/
theorem evaluate_not_completed {budget : Int} {cancelled : Bool} {env : Pointer} {E : Evaluation}
    (hnever : ∀ frames final, RanTo config (.initial p env) s frames final t → final.cont.tag ≠ .terminal)
    (heval : evaluate config budget cancelled p (some env) s = .ok E t) : E.reason ≠ .completed := by
  intro hcompleted
  obtain ⟨-, -, -, hinitial, hrun⟩ := evaluate_eq_ok.1 heval
  obtain ⟨added, -, hran, -, -, hstop⟩ := run_ran hrun
  rw [hinitial] at hran hstop
  exact hnever added _ ⟨hran, rfl⟩ ((reason_of_stop hstop).1.1 hcompleted)

/-- An evaluation has no number for its result if its run comes to rest without one. -/
theorem not_number {budget : Int} {env : Pointer} {E : Evaluation} {final : State} (hs : Reachable s)
    (hst : State.Held ⟨p, env, .outermost⟩ s) (hran : RanTo config ⟨p, env, .outermost⟩ s frames final r)
    (hhalted : final.isHalted = true) (hother : final.expr.tag ≠ .number)
    (heval : evaluate config budget false p (some env) s = .ok E t) (hcompleted : E.reason = .completed) :
    E.result.tag ≠ .number := by
  obtain ⟨-, -, -, hinitial, hrun⟩ := evaluate_eq_ok.1 heval
  obtain ⟨added, hframes, hran', -, -, hstop⟩ := run_ran hrun
  rw [List.reverse_nil, List.nil_append] at hframes
  rw [hinitial] at hran' hstop
  have hterminal := (reason_of_stop hstop).1.1 hcompleted
  have hsame := hran.halts_once hs hst hhalted ⟨hran', rfl⟩ (restReason_of_terminal hterminal).1
  have hresult : E.result = (finalState ⟨p, env, .outermost⟩ added).expr := by
    rw [Evaluation.result, Evaluation.final, hinitial, hframes]
    rfl
  rw [hresult]
  rw [hsame] at hother
  exact hother

end Machine

end FieldLisp
