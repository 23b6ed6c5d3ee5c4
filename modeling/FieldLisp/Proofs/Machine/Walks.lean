import FieldLisp.Proofs.Machine.Arrival
import FieldLisp.Proofs.Machine.Evaluations

/-!
# Runs of a known length

Where it is known how many steps lead from one state to another, it is known as well how a run with a smaller budget
ends. Both are said at once, so that parts of a run can be put together without a look at the budget:

* `Machine.Walks`: so many steps lead to a goal, or as many as there is room for are taken;
* `Machine.Walks.bind`: one walk after another;
* `Machine.walks_silent`, `Machine.walks_handed`: a step without a value, and a step that hands one on;
* `Machine.Walks.evaluates`: an evaluation takes all steps of a walk to rest, or all that its budget allows.
-/

namespace FieldLisp.Machine

open Store

variable {config : Config} {bound s t : Store} {k l : ℕ} {st st' : State} {goal goal' : State → Store → Prop}
  {p v env cont : Pointer}

/-! ## Walks -/

/-- So many steps lead from a state to a goal, and none of them starts at rest. If there is room for fewer steps only,
as many are taken, and the state that they lead to is not at rest. -/
def Walks (config : Config) (bound : Store) (k : ℕ) (st : State) (s : Store) (goal : State → Store → Prop) : Prop :=
  ∀ n, Stage config none bound n st s → ∃ frames st' t, RanTo config st s frames st' t ∧
    (∀ F ∈ frames, F.input.isHalted = false) ∧ frames.length = min k n ∧
    if k ≤ n then goal st' t else st'.isHalted = false

/-- What is known of a stage may be used to show that a walk starts there. -/
theorem Walks.of_stage (hbound : bound.Faithful)
    (h : Reachable s → st.Held s → s.Faithful → Walks config bound k st s goal) : Walks config bound k st s goal :=
  fun n hstage => h hstage.reachable hstage.held (hstage.faithful hbound) n hstage

theorem walks_zero (h : goal st s) : Walks config bound 0 st s goal := fun n _ =>
  ⟨[], st, s, .nil config st s, List.forall_mem_nil _, (Nat.zero_min n).symm, by rwa [if_pos (Nat.zero_le n)]⟩

/-- One step to the goal. -/
theorem walks_step (hmoving : st.isHalted = false)
    (h : Reachable s → st.Held s → ∃ F t, step config st s = .ok F t ∧ goal F.output t) :
    Walks config bound 1 st s goal := by
  intro n hstage
  obtain rfl | hpositive := Nat.eq_zero_or_pos n
  · exact ⟨[], st, s, .nil config st s, List.forall_mem_nil _, rfl, by rwa [if_neg (by omega)]⟩
  · have hroom : 1 ≤ n := hpositive
    obtain ⟨F, t, hstep, hgoal⟩ := h hstage.reachable hstage.held
    refine ⟨[F], F.output, t, .step hstep, ?_, (Nat.min_eq_left hroom).symm, by rwa [if_pos hroom]⟩
    intro G hG
    obtain rfl := List.mem_singleton.1 hG
    rwa [input_of_step hstep]

/-- A walk goes on from the goal of another one. -/
theorem Walks.bind (h : Walks config bound k st s goal)
    (h' : ∀ st' t, s.Grows t → goal st' t → Walks config bound l st' t goal') :
    Walks config bound (k + l) st s goal' := by
  intro n hstage
  obtain ⟨frames, st', t, hran, hmoves, hlength, hreached⟩ := h n hstage
  by_cases hroom : k ≤ n
  · rw [if_pos hroom] at hreached
    rw [Nat.min_eq_left hroom] at hlength
    have hwhole : Stage config none bound (k + (n - k)) st s := hstage.mono (by omega)
    obtain ⟨hlater, hgrows⟩ := hwhole.reaches ⟨frames, hran.ran, hlength.le, hran.final, fun F _ => not_handsTo_none F⟩
    obtain ⟨frames', st'', u, hran', hmoves', hlength', hreached'⟩ := h' st' t hgrows hreached (n - k) hlater
    refine ⟨frames ++ frames', st'', u, hran.trans hran', List.forall_mem_append.2 ⟨hmoves, hmoves'⟩, ?_, ?_⟩
    · rw [List.length_append]
      omega
    · by_cases hmore : l ≤ n - k
      · rw [if_pos (by omega)]
        rwa [if_pos hmore] at hreached'
      · rw [if_neg (by omega)]
        rwa [if_neg hmore] at hreached'
  · rw [if_neg hroom] at hreached
    exact ⟨frames, st', t, hran, hmoves, by omega, by rwa [if_neg (by omega)]⟩

/-- A step that has no value for the continuation. -/
theorem walks_silent (hmoving : st.isHalted = false) (hmiddle : middle config st s = (⟨st', false⟩, t))
    (hgoal : goal st' t) : Walks config bound 1 st s goal := by
  refine walks_step hmoving fun hreachable hheld => ?_
  have hnext : next config st s = (st', t) := by
    rw [next, hmiddle]
    rfl
  have hsilent : report? config st s = none := by
    rw [report?, hmiddle]
    rfl
  obtain ⟨F, hstep, hfollows⟩ := step_silent config (reachable_sound hreachable) hheld hsilent
  refine ⟨F, _, hstep, ?_⟩
  rw [hfollows.output, hnext]
  exact hgoal

/-- The evaluation phase of the next step has this value for the continuation. -/
structure Presents (config : Config) (v env cont : Pointer) (st : State) (s : Store) : Prop where
  moving : st.isHalted = false
  middle : middle config st s = (⟨⟨v, env, cont⟩, true⟩, s)

theorem presents_of_value (hmoving : cont.tag.isHalted = false) (hexpr : s.expression p = .value v) :
    Presents config v env cont ⟨p, env, cont⟩ s := by
  refine ⟨hmoving, ?_⟩
  rw [middle_of_moving hmoving, EvalPhase.evaluate]
  dsimp only
  rw [hexpr]
  rfl

/-- A step that hands a value to a continuation that reports nothing. -/
theorem walks_handed (h : Presents config v env cont st s) (hcont : cont.tag ≠ .unary)
    (hgoal : goal (ContPhase.resume ⟨v, env, cont⟩ s).1 (ContPhase.resume ⟨v, env, cont⟩ s).2) :
    Walks config bound 1 st s goal := by
  refine walks_step h.moving fun hreachable hheld => ?_
  have hnext : next config st s = ContPhase.resume ⟨v, env, cont⟩ s := by
    rw [next, h.middle]
    rfl
  have hsilent : report? config st s = none := by
    rw [report?, h.middle, ContPhase.reported, if_neg fun hreports => hcont hreports.2.1]
  obtain ⟨F, hstep, hfollows⟩ := step_silent config (reachable_sound hreachable) hheld hsilent
  refine ⟨F, _, hstep, ?_⟩
  rw [hfollows.output, hnext]
  exact hgoal

/-! ## Evaluations -/

/-- An evaluation takes all steps of a walk to rest if its budget allows them, and else as many as it allows. -/
theorem Walks.evaluates {env : Option Pointer} {maxSteps : ℤ} {final : State} (hs : Reachable s) (hp : s.Holds p)
    (henv : s.Holds (env.getD .nil)) (hsteps : 0 ≤ maxSteps) (hfinal : final.cont.tag = .terminal)
    (hinjective : Set.InjOn Sponge.hash (after (steps config maxSteps.toNat (.initial p (env.getD .nil))) s).content)
    (h : ∀ bound : Store, bound.Faithful →
      Walks config bound k (.initial p (env.getD .nil)) s fun st _ => st = final) :
    ∃ E t, evaluate config maxSteps false p env s = .ok E t ∧
      (k ≤ maxSteps → E.reason = .completed ∧ E.result = final.expr ∧ E.frames.length = k) ∧
      (maxSteps < k → E.reason = .maxStepsReached ∧ E.frames.length = maxSteps) := by
  obtain ⟨n, rfl⟩ := Int.eq_ofNat_of_zero_le hsteps
  rw [Int.toNat_natCast] at hinjective
  have hheld := held_initial hp henv
  have hreachable := ((grows_after_steps config n hs hheld).1).reachable hs
  obtain ⟨frames, st', t, hran, hmoves, hlength, hreached⟩ :=
    h _ (faithful_of_injOn hinjective hreachable (Set.Subset.refl _)) n
      ⟨hs, hheld, by rw [stepsTo_none]; exact .refl _⟩
  obtain ⟨hrun, rfl⟩ := hran
  by_cases hroom : k ≤ n
  · rw [if_pos hroom] at hreached
    obtain ⟨hhalted, hcompleted⟩ := restReason_of_terminal hfinal
    rw [← hreached] at hhalted hcompleted
    have hran := run_of_ran [] hrun hmoves hhalted (show frames.length ≤ n by omega)
    rw [hcompleted] at hran
    refine ⟨⟨frames, .completed, .initial p (env.getD .nil)⟩, t,
      evaluate_eq_ok.2 ⟨hsteps, hp.contains, henv.contains, rfl, hran⟩, fun _ => ⟨rfl, ?_, ?_⟩, fun h => ?_⟩
    · rw [← hreached]
      rfl
    · exact hlength.trans (Nat.min_eq_left hroom)
    · exact absurd h (by omega)
  · rw [if_neg hroom] at hreached
    have hall : frames.length = n := by omega
    have hran := run_of_exhausted [] hrun hmoves hreached
    rw [hall] at hran
    refine ⟨⟨frames, .maxStepsReached, .initial p (env.getD .nil)⟩, t,
      evaluate_eq_ok.2 ⟨hsteps, hp.contains, henv.contains, rfl, hran⟩, fun h => ?_, fun _ => ⟨rfl, ?_⟩⟩
    · exact absurd h (by omega)
    · exact_mod_cast hall

end FieldLisp.Machine
