import FieldLisp.Proofs.Machine.Arithmetic

/-!
# Programs are never stuck

The run of a program that was read into a fresh store is computed to its end, through well-typed states
only. It comes to a value, to an error of the program, or to the end of its budget:

* `Machine.run_typed`: a run from a well-typed state;
* `Machine.evaluate_typed`: the evaluation of what was read.
-/

namespace FieldLisp

open EStateM (bind_of_ok pure_eq_ok)

namespace Machine

variable {config : Config} {state : State} {s : Store}

/-- A run from a well-typed state is computed, through well-typed states, up to one at which it stops. -/
theorem run_typed (config : Config) (cancelled : Bool) (budget : ℕ) (taken : List Frame) (hs : s.Typed)
    (hst : state.Typed s) : ∃ frames reason t left,
      run config cancelled budget state taken s = .ok (taken.reverse ++ frames, reason) t ∧
        s.Widens t ∧ (∀ F ∈ frames, F.intermediate.Typed t ∧ F.output.Typed t) ∧
        (finalState state frames).Typed t ∧
        stop? cancelled left (finalState state frames) = some reason := by
  induction budget generalizing state taken s with
  | zero =>
    obtain ⟨reason, hreason⟩ : ∃ reason, stop? cancelled 0 state = some reason := by
      unfold stop?
      split
      · exact ⟨_, rfl⟩
      · exact ⟨_, rfl⟩
    refine ⟨[], reason, s, 0, ?_, .refl hs, List.forall_mem_nil _, hst, hreason⟩
    rw [run, hreason, List.append_nil]
    rfl
  | succ budget ih =>
    cases hstop : stop? cancelled (budget + 1) state with
    | some reason =>
      refine ⟨[], reason, s, budget + 1, ?_, .refl hs, List.forall_mem_nil _, hst, hstop⟩
      rw [run, hstop, List.append_nil]
      rfl
    | none =>
      obtain ⟨F, t, hstep, hwidens, -, hmiddle, houtput⟩ := step_typed config hs hst
      obtain ⟨frames, reason, u, left, hrun, hwidens', htyped, hfinal, hleft⟩ :=
        ih (F :: taken) hwidens.typed houtput
      refine ⟨F :: frames, reason, u, left, ?_, hwidens.trans hwidens', ?_, ?_, ?_⟩
      · rw [run, hstop]
        dsimp only
        rw [bind_of_ok hstep, hrun, List.reverse_cons, List.append_assoc]
        rfl
      · rw [List.forall_mem_cons]
        exact ⟨⟨hmiddle.mono hwidens'.extends_, houtput.mono hwidens'.extends_⟩, htyped⟩
      · rwa [finalState_cons]
      · rwa [finalState_cons]

/-- A run that stops at a well-typed state at rest has come to a value or to an error of the program. -/
theorem typed_of_stop {cancelled : Bool} {left : ℕ} {reason : Reason} (hst : state.Typed s)
    (hstop : stop? cancelled left state = some reason) :
    (reason = .completed → state.expr.tag.isValue = true) ∧
      (reason = .errorHalted → ∃ code, code.ofProgram = true ∧ state.expr = .error code) := by
  unfold stop? at hstop
  cases hst with
  | running _ _ hcont =>
    rw [State.isHalted, hcont.not_halted] at hstop
    split at hstop
    · rename_i hhalted
      cases hhalted
    · split at hstop
      · cases hstop
        exact ⟨fun h => (by cases h), fun h => (by cases h)⟩
      · split at hstop <;> cases hstop
        exact ⟨fun h => (by cases h), fun h => (by cases h)⟩
  | completed hvalue =>
    cases hstop
    exact ⟨fun _ => hvalue.tag, fun h => by cases h⟩
  | failed hcode =>
    cases hstop
    exact ⟨fun h => (by cases h), fun _ => ⟨_, hcode, rfl⟩⟩

/-- The evaluation of a text in a fresh store is computed. All its states are well-typed; if it is
completed it comes to a value, and if it halts with an error that is one of the program. -/
theorem evaluate_typed {text : String} {shared : Bool} {expr : Pointer}
    (hread : read text (.empty shared) = .ok expr s) (config : Config) {maxSteps : Int}
    (hsteps : 0 ≤ maxSteps) (cancelled : Bool) :
    ∃ E t, evaluate config maxSteps cancelled expr none s = .ok E t ∧ E.initial.Typed t ∧
      (∀ F ∈ E.frames, F.intermediate.Typed t ∧ F.output.Typed t) ∧
      (E.reason = .completed → E.result.tag.isValue = true) ∧
      (E.reason = .errorHalted → ∃ code, code.ofProgram = true ∧ E.result = .error code) := by
  obtain ⟨hwidens, hexpr⟩ := read_typed (Store.empty_typed shared) hread
  have hinitial : (State.initial expr .nil).Typed s := .running (.inl hexpr) .nil .outermost
  obtain ⟨frames, reason, t, left, hrun, hwidens', hframes, hfinal, hstop⟩ :=
    run_typed config cancelled maxSteps.toNat [] hwidens.typed hinitial
  refine ⟨⟨frames, reason, .initial expr .nil⟩, t, ?_, hinitial.mono hwidens'.extends_, hframes, ?_, ?_⟩
  · exact evaluate_eq_ok.2 ⟨hsteps, hexpr.holds.contains, s.holds_nil.contains, rfl, hrun⟩
  · rintro rfl
    exact (typed_of_stop hfinal hstop).1 rfl
  · rintro rfl
    exact (typed_of_stop hfinal hstop).2 rfl

/-- The text `(+ 1 2)`, which is evaluated for at most ten steps. -/
theorem evaluate_typed_sum : ∃ s, read "(+ 1 2)" (.empty false) = .ok Addition.expression s ∧ (0 : Int) ≤ 10 ∧
    ∃ E t, evaluate .standard 10 false Addition.expression none s = .ok E t ∧ E.frames.length = 4 ∧
      (∀ F ∈ E.frames, F.intermediate.Typed t ∧ F.output.Typed t) ∧ E.reason = .completed ∧ E.result = .number 3 ∧
      E.result.tag.isValue = true := by
  have hsteps : (0 : ℤ) ≤ 10 := by decide
  obtain ⟨s, hread, h⟩ := Addition.reads false
  obtain ⟨E, t, hE, -, hframes, hcompleted, -⟩ := evaluate_typed hread .standard hsteps false
  obtain ⟨E', t', hE', -, hcompletes, -⟩ := Addition.evaluates .standard hsteps h
  cases hE'.symm.trans hE
  obtain ⟨hreason, hresult, hlength⟩ := hcompletes (by decide)
  exact ⟨s, hread, hsteps, E, t, hE, hlength, hframes, hreason, hresult, hcompleted hreason⟩

end Machine

end FieldLisp
