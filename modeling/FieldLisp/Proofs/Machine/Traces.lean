import FieldLisp.Proofs.Machine.Agreement
import FieldLisp.Proofs.Store.Distinct

/-!
# Traces

What the frames of an evaluation say:

* `Machine.Ran`: frames of steps, each on the store that the one before it left;
* `Machine.run_ran`: a run takes steps until it has to stop;
* `Machine.validTrace`: what holds of every evaluation that returns.
-/

namespace FieldLisp.Machine

open Store
open EStateM (bind_eq_ok pure_eq_ok)

variable {config : Config} {state : State} {s t u : Store} {F : Frame} {frames : List Frame}

/-- Steps from a state, each on the store that the one before it left. -/
inductive Ran (config : Config) : State → Store → List Frame → Store → Prop
  | nil (state : State) (s : Store) : Ran config state s [] s
  | cons {state : State} {s t u : Store} {F : Frame} {frames : List Frame}
      (hstep : step config state s = .ok F u) (hrest : Ran config F.output u frames t) :
      Ran config state s (F :: frames) t

theorem input_of_step (h : step config state s = .ok F t) : F.input = state := by
  obtain ⟨rfl, -⟩ := phases_of_step h
  rfl

namespace Ran

theorem first (h : Ran config state s frames t) : ∀ F ∈ frames.head?, F.input = state := by
  cases h with
  | nil => exact fun F hF => by cases hF
  | cons hstep hrest =>
    rintro _ ⟨⟩
    exact input_of_step hstep

theorem contiguous (h : Ran config state s frames t) (i : ℕ) (hi : i + 1 < frames.length) :
    frames[i].output = frames[i + 1].input := by
  induction h generalizing i with
  | nil => cases hi
  | @cons state s t u F frames hstep hrest ih =>
    cases i with
    | zero =>
      have hnonempty : 0 < frames.length := by simpa using hi
      have hhead : frames[0] ∈ frames.head? := by
        rw [List.head?_eq_getElem?, List.getElem?_eq_getElem hnonempty]
        rfl
      exact (hrest.first _ hhead).symm
    | succ i => exact ih i (by simpa using hi)

/-- The stores that the steps were taken on. -/
theorem exists_stores (h : Ran config state s frames t) : ∃ stores : ℕ → Store,
    stores 0 = s ∧ stores frames.length = t ∧ ∀ (i : ℕ) (hi : i < frames.length),
      step config frames[i].input (stores i) = .ok frames[i] (stores (i + 1)) := by
  induction h with
  | nil state s => exact ⟨fun _ => s, rfl, rfl, fun i hi => by cases hi⟩
  | @cons state s t u F frames hstep hrest ih =>
    obtain ⟨stores, hstart, hend, hsteps⟩ := ih
    refine ⟨fun i => Nat.casesOn i s stores, rfl, hend, fun i hi => ?_⟩
    cases i with
    | zero =>
      change step config F.input s = .ok F (stores 0)
      rw [input_of_step hstep, hstart, hstep]
    | succ i => exact hsteps i (by simpa using hi)

theorem builds (h : Ran config state s frames t) (hs : Reachable s) (hstate : state.Held s) :
    s.Builds t := by
  induction h with
  | nil => exact .refl
  | cons hstep hrest ih =>
    obtain ⟨hreachable, hheld⟩ := reachable_step hs hstate hstep
    have hbuilds := builds_step config hs hstate.canonical
    rw [(eq_ok_iff.1 hstep).2] at hbuilds
    exact hbuilds.trans (ih hreachable hheld)

/-- A step that was taken comes to the same on the store that is left, unless preimages collide. -/
theorem again (h : Ran config state s frames t) (hs : Reachable s) (hstate : state.Held s)
    (hinjective : Set.InjOn Sponge.hash t.content) :
    ∀ F ∈ frames, answer (step config F.input) t = .ok F := by
  induction h with
  | nil => exact List.forall_mem_nil _
  | @cons state s t u F frames hstep hrest ih =>
    obtain ⟨hreachable, hheld⟩ := reachable_step hs hstate hstep
    obtain ⟨hanswer, hafter⟩ := eq_ok_iff.1 hstep
    have hlater := hrest.builds hreachable hheld
    have hbuilds := (Ran.cons hstep hrest).builds hs hstate
    refine List.forall_mem_cons.2 ⟨?_, ih hreachable hheld hinjective⟩
    have hcontent : (after (step config state) s).content ∪ t.content ⊆ t.content := by
      rw [hafter]
      exact Set.union_subset hlater.retains.content_subset subset_rfl
    rw [input_of_step hstep, ← hanswer]
    exact (step_agrees config hs (hbuilds.reachable hs) hstate
      (fun p hp => hbuilds.retains.extends_.holds (hstate p hp)) (hinjective.mono hcontent)).symm

end Ran

/-! ## Runs -/

variable {cancelled : Bool} {budget : ℕ} {taken : List Frame} {reason : Reason}

theorem not_halted_of_stop (h : stop? cancelled budget state = none) : state.isHalted = false := by
  unfold stop? at h
  split at h
  · cases h
  · exact Bool.eq_false_iff.2 ‹_›

/-- A run takes steps until it has to stop. -/
theorem run_ran (h : run config cancelled budget state taken s = .ok (frames, reason) t) :
    ∃ added, frames = taken.reverse ++ added ∧ Ran config state s added t ∧
      (∀ F ∈ added, F.input.isHalted = false) ∧ added.length ≤ budget ∧
      stop? cancelled (budget - added.length) (finalState state added) = some reason := by
  induction budget generalizing state taken s with
  | zero =>
    obtain ⟨hframes, rfl⟩ := pure_eq_ok.1 h
    obtain ⟨rfl, rfl⟩ := Prod.mk.inj hframes
    refine ⟨[], by simp, .nil _ _, List.forall_mem_nil _, le_refl _, ?_⟩
    change stop? cancelled 0 state = _
    unfold stop?
    split_ifs
    all_goals first | rfl | contradiction
  | succ budget ih =>
    unfold run at h
    cases hstop : stop? cancelled (budget + 1) state with
    | some found =>
      rw [hstop] at h
      obtain ⟨hframes, rfl⟩ := pure_eq_ok.1 h
      obtain ⟨rfl, rfl⟩ := Prod.mk.inj hframes
      exact ⟨[], by simp, .nil _ _, List.forall_mem_nil _, Nat.zero_le _, hstop⟩
    | none =>
      rw [hstop] at h
      obtain ⟨F, u, hstep, hrest⟩ := bind_eq_ok.1 h
      obtain ⟨added, hframes, hran, hmoving, hlength, hstopped⟩ := ih hrest
      have hinput := input_of_step hstep
      refine ⟨F :: added, by simpa using hframes, .cons hstep hran,
        List.forall_mem_cons.2 ⟨?_, hmoving⟩, by simpa using hlength, ?_⟩
      · rw [hinput]
        exact not_halted_of_stop hstop
      · rw [finalState_cons, List.length_cons, Nat.add_sub_add_right]
        exact hstopped

/-! ## Evaluations -/

/-- What is true of an evaluation that starts on one store and leaves another one. -/
structure ValidTrace (config : Config) (maxSteps : Int) (cancelled : Bool) (start : State)
    (s : Store) (E : Evaluation) (t : Store) : Prop where
  initial : E.initial = start
  first : ∀ F ∈ E.frames.head?, F.input = start
  /-- A frame starts where the one before it ended. -/
  contiguous : ∀ (i : ℕ) (hi : i + 1 < E.frames.length), E.frames[i].output = E.frames[i + 1].input
  /-- A frame is what a step from its input comes to, on the store that the one before it left. -/
  steps : ∃ stores : ℕ → Store, stores 0 = s ∧ stores E.frames.length = t ∧
    ∀ (i : ℕ) (hi : i < E.frames.length),
      step config E.frames[i].input (stores i) = .ok E.frames[i] (stores (i + 1))
  /-- So it is on the store that is left, unless preimages collide. -/
  again : Set.InjOn Sponge.hash t.content → ∀ F ∈ E.frames, answer (step config F.input) t = .ok F
  moving : ∀ F ∈ E.frames, F.input.isHalted = false
  bounded : E.frames.length ≤ maxSteps
  completed : E.reason = .completed ↔ E.final.cont.tag = .terminal
  errorHalted : E.reason = .errorHalted ↔ E.final.cont.tag = .failed
  /-- If nobody cancels, a run that does not end at rest uses its budget up. -/
  exhausted : cancelled = false → E.final.isHalted = false →
    E.reason = .maxStepsReached ∧ E.frames.length = maxSteps

theorem reason_of_stop (h : stop? cancelled budget state = some reason) :
    (reason = .completed ↔ state.cont.tag = .terminal) ∧
      (reason = .errorHalted ↔ state.cont.tag = .failed) ∧
      (cancelled = false → state.isHalted = false → reason = .maxStepsReached ∧ budget = 0) := by
  unfold stop? State.isHalted State.isFailed Tag.isHalted at h
  unfold State.isHalted
  cases htag : state.cont.tag <;> rw [htag] at h <;> split_ifs at h <;> cases h <;>
    simp_all [Tag.isHalted]

variable {maxSteps : Int} {expr : Pointer} {env : Option Pointer} {E : Evaluation}

theorem validTrace (hs : Reachable s) (hexpr : s.Holds expr) (henv : ∀ p ∈ env, s.Holds p)
    (h : evaluate config maxSteps cancelled expr env s = .ok E t) :
    ValidTrace config maxSteps cancelled (.initial expr (env.getD .nil)) s E t := by
  obtain ⟨hsteps, -, -, hinitial, hrun⟩ := evaluate_eq_ok.1 h
  have hheld : E.initial.Held s := by
    rw [hinitial]
    exact held_initial hexpr (holds_env henv)
  obtain ⟨added, hframes, hran, hmoving, hlength, hstop⟩ := run_ran hrun
  rw [List.reverse_nil, List.nil_append] at hframes
  rw [← hframes] at hran hmoving hlength hstop
  obtain ⟨hcompleted, hfailed, hexhausted⟩ := reason_of_stop hstop
  constructor
  · exact hinitial
  · rw [← hinitial]
    exact hran.first
  · exact hran.contiguous
  · exact hran.exists_stores
  · exact hran.again hs hheld
  · exact hmoving
  · omega
  · exact hcompleted
  · exact hfailed
  · intro hcancelled hmoves
    obtain ⟨hreason, hleft⟩ := hexhausted hcancelled hmoves
    exact ⟨hreason, by omega⟩

end FieldLisp.Machine
