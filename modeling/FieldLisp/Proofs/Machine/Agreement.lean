import FieldLisp.Proofs.Machine.Run
import FieldLisp.Proofs.Machine.Safety
import FieldLisp.Proofs.Machine.StepRequests

/-!
# Evaluations on two stores

An evaluation of what a store holds misses no entry, so two stores that hold it evaluate it alike:

* `Machine.step_not_misses`, `Machine.evaluate_not_misses`: nothing is missed;
* `Machine.step_agrees`, `Machine.evaluate_agrees`: two stores have the same frames;
* `Machine.evaluate_number`, `Machine.evaluate_calling`: one step of a number takes nothing in, one of an
  application a node.
-/

namespace FieldLisp.Machine

open Store

variable {config : Config} {state : State} {s t A B : Store} {F : Frame}

/-! ## Nothing is missed -/

theorem step_not_misses (config : Config) (hs : Reachable s) (hstate : state.Held s) :
    ¬Misses (answer (step config state) s) := by
  rintro ⟨q, hq⟩
  obtain ⟨-, v, p, value, -, -, -, -, -, hvalue⟩ := step_error hs hstate (eq_error_iff.2 ⟨hq, rfl⟩)
  cases hvalue

theorem reachable_step (hs : Reachable s) (hstate : state.Held s)
    (h : step config state s = .ok F t) : Reachable t ∧ F.output.Held t := by
  have hsound := reachable_sound hs
  obtain ⟨rfl, hfollows⟩ := step_ok hsound hstate h
  obtain ⟨hgrows, hnext⟩ := next_moves config hsound hstate
  rw [hfollows.output]
  exact ⟨hgrows.reachable hs, hnext⟩

theorem run_not_misses (config : Config) (cancelled : Bool) (budget : ℕ) (taken : List Frame)
    (hs : Reachable s) (hstate : state.Held s) :
    ¬Misses (answer (run config cancelled budget state taken) s) := by
  induction budget generalizing state taken s with
  | zero =>
    rintro ⟨q, hq⟩
    cases hq
  | succ budget ih =>
    unfold run
    cases stop? cancelled (budget + 1) state with
    | some reason =>
      rintro ⟨q, hq⟩
      cases hq
    | none =>
      dsimp only
      cases hstep : answer (step config state) s with
      | error fault =>
        rintro ⟨q, hq⟩
        rw [(eq_error_iff.1 (bind_of_fault hstep _)).1] at hq
        cases hq
        exact step_not_misses config hs hstate ⟨q, hstep⟩
      | ok F =>
        obtain ⟨hreachable, hheld⟩ := reachable_step hs hstate (eq_ok_iff.2 ⟨hstep, rfl⟩)
        unfold answer
        rw [bind_of_answer hstep]
        exact ih (F :: taken) hreachable hheld

variable {maxSteps : Int} {cancelled : Bool} {expr : Pointer} {env : Option Pointer}

theorem holds_env (henv : ∀ p ∈ env, s.Holds p) : s.Holds (env.getD .nil) := by
  cases env with
  | none => exact s.holds_nil
  | some env => exact henv env rfl

/-- An evaluation of what is held is its run. -/
theorem evaluate_eq (cancelled : Bool) (hsteps : 0 ≤ maxSteps) (hexpr : s.Holds expr)
    (henv : ∀ p ∈ env, s.Holds p) : evaluate config maxSteps cancelled expr env s = (do
      let ran ← run config cancelled maxSteps.toNat (.initial expr (env.getD .nil)) []
      pure ⟨ran.1, ran.2, .initial expr (env.getD .nil)⟩ : StoreM Evaluation) s := by
  have hintern {p : Pointer} (hp : s.Holds p) : internPointer p s = .ok p s := if_pos hp.contains
  unfold evaluate
  rw [if_neg (not_lt.2 hsteps)]
  dsimp only
  rw [EStateM.bind_of_ok (hintern hexpr)]
  cases env with
  | none => rfl
  | some env =>
    dsimp only
    rw [EStateM.bind_of_ok (hintern (henv env rfl))]
    rfl

theorem evaluate_not_misses (config : Config) (maxSteps : Int) (cancelled : Bool) (hs : Reachable s)
    (hexpr : s.Holds expr) (henv : ∀ p ∈ env, s.Holds p) :
    ¬Misses (answer (evaluate config maxSteps cancelled expr env) s) := by
  rintro ⟨q, hq⟩
  by_cases hnegative : maxSteps < 0
  · unfold evaluate at hq
    rw [if_pos hnegative] at hq
    cases hq
  · have hrun := run_not_misses config cancelled maxSteps.toNat [] hs
      (held_initial hexpr (holds_env henv))
    unfold answer at hq
    rw [evaluate_eq cancelled (not_lt.1 hnegative) hexpr henv] at hq
    cases hran : answer (run config cancelled maxSteps.toNat (.initial expr (env.getD .nil)) []) s with
    | error fault =>
      rw [bind_of_fault hran] at hq
      cases hq
      exact hrun ⟨q, hran⟩
    | ok ran =>
      rw [bind_of_answer hran] at hq
      cases hq

/-! ## Two stores -/

theorem builds_step (config : Config) (hs : Reachable s) (hstate : state.Canonical) :
    s.Builds (after (step config state) s) := by
  have hP := (Program.within_step config hstate).mono (fun _ => And.left) fun _ => id
  rw [← Program.run_step]
  exact (Program.run_builds hP hs).1

theorem builds_evaluate (config : Config) (maxSteps : Int) (cancelled : Bool) (hs : Reachable s)
    (hexpr : expr.Canonical) (henv : ∀ p ∈ env, p.Canonical) :
    s.Builds (after (evaluate config maxSteps cancelled expr env) s) := by
  have hP := (Program.within_evaluate config maxSteps cancelled hexpr henv).mono
    (fun _ => And.left) fun _ => id
  rw [← Program.run_evaluate]
  exact (Program.run_builds hP hs).1

/-- A step of a state that two stores hold is the same, unless what the first store has in the end and
the second one in the beginning collide. -/
theorem step_agrees (config : Config) (hA : Reachable A) (hB : Reachable B) (hstateA : state.Held A)
    (hstateB : state.Held B)
    (hinjective : Set.InjOn Sponge.hash ((after (step config state) A).content ∪ B.content)) :
    answer (step config state) A = answer (step config state) B := by
  have hcalm := Program.within_step config hstateA.canonical
  have hmissesA := step_not_misses config hA hstateA
  have hmissesB := step_not_misses config hB hstateB
  rw [← Program.run_step] at hinjective hmissesA hmissesB ⊢
  have hnameless := hcalm.mono (fun _ => And.right) fun _ _ => trivial
  exact (Program.agree hinjective (hcalm.mono (fun _ => And.left) fun _ => id) hA hB
    Set.subset_union_left (.inr ⟨hnameless, Set.subset_union_right⟩) hmissesA hmissesB).1

/-- An evaluation of what two stores hold is the same, unless what the first store has in the end and
the second one in the beginning collide. -/
theorem evaluate_agrees (config : Config) (maxSteps : Int) (cancelled : Bool) (hA : Reachable A)
    (hB : Reachable B) (hexprA : A.Holds expr) (hexprB : B.Holds expr)
    (henvA : ∀ p ∈ env, A.Holds p) (henvB : ∀ p ∈ env, B.Holds p)
    (hinjective : Set.InjOn Sponge.hash
      ((after (evaluate config maxSteps cancelled expr env) A).content ∪ B.content)) :
    answer (evaluate config maxSteps cancelled expr env) A =
      answer (evaluate config maxSteps cancelled expr env) B := by
  have hcalm := Program.within_evaluate config maxSteps cancelled hexprA.canonical
    fun p hp => (henvA p hp).canonical
  have hmissesA := evaluate_not_misses config maxSteps cancelled hA hexprA henvA
  have hmissesB := evaluate_not_misses config maxSteps cancelled hB hexprB henvB
  rw [← Program.run_evaluate] at hinjective hmissesA hmissesB ⊢
  have hnameless := hcalm.mono (fun _ => And.right) fun _ _ => trivial
  exact (Program.agree hinjective (hcalm.mono (fun _ => And.left) fun _ => id) hA hB
    Set.subset_union_left (.inr ⟨hnameless, Set.subset_union_right⟩) hmissesA hmissesB).1

/-! ## Small evaluations -/

/-- A number is its own value. -/
theorem step_number (config : Config) (hs : s.Sound) (n : Int) : ∃ F,
    step config (.initial (.number n) .nil) s = .ok F s ∧ F.output = ⟨.number n, .nil, .terminal⟩ := by
  have hstate : (State.initial (.number n) .nil).Held s :=
    held_initial (s.holds_immediate (Pointer.immediate_canonical .number n) rfl) s.holds_nil
  have hmiddle : middle config (.initial (.number n) .nil) s =
      (⟨.initial (.number n) .nil, true⟩, s) := rfl
  have hnext : next config (.initial (.number n) .nil) s = (⟨.number n, .nil, .terminal⟩, s) := rfl
  have hsilent : report? config (.initial (.number n) .nil) s = none := rfl
  obtain ⟨F, hstep, hfollows⟩ := step_silent config hs hstate hsilent
  rw [hnext] at hstep
  exact ⟨F, hstep, by rw [hfollows.output, hnext]⟩

theorem evaluate_number_eq (config : Config) {maxSteps : Int} (hsteps : 0 ≤ maxSteps) (n : Int) :
    evaluate config maxSteps false (.number n) none s = (do
      let ran ← run config false maxSteps.toNat (.initial (.number n) .nil) []
      pure ⟨ran.1, ran.2, .initial (.number n) .nil⟩ : StoreM Evaluation) s := by
  have hnumber : s.Holds (.number n) :=
    s.holds_immediate (Pointer.immediate_canonical .number n) rfl
  have henv : ∀ p ∈ (none : Option Pointer), s.Holds p := fun _ h => by cases h
  exact evaluate_eq false hsteps hnumber henv

/-- A number is evaluated in one step, if there may be one. -/
theorem evaluate_number_completed (config : Config) {maxSteps : Int} (hsteps : 0 < maxSteps)
    (hs : s.Sound) (n : Int) : ∃ F, F.output = ⟨.number n, .nil, .terminal⟩ ∧
      evaluate config maxSteps false (.number n) none s =
        .ok ⟨[F], .completed, .initial (.number n) .nil⟩ s := by
  obtain ⟨budget, hbudget⟩ : ∃ budget, maxSteps.toNat = budget + 1 :=
    Nat.exists_eq_add_one_of_ne_zero (by omega)
  obtain ⟨F, hstep, houtput⟩ := step_number config hs n
  have hrest : run config false budget F.output [F] s = .ok ([F], .completed) s := by
    rw [houtput]
    cases budget <;> rfl
  have hrun : run config false (budget + 1) (.initial (.number n) .nil) [] s =
      .ok ([F], .completed) s := (EStateM.bind_of_ok hstep _).trans hrest
  rw [evaluate_number_eq config hsteps.le, hbudget]
  exact ⟨F, houtput, EStateM.bind_of_ok hrun _⟩

/-- Evaluating a number takes nothing in. -/
theorem evaluate_number (config : Config) {maxSteps : Int} (hsteps : 0 ≤ maxSteps) (hs : s.Sound)
    (n : Int) : ∃ E, evaluate config maxSteps false (.number n) none s = .ok E s := by
  rcases hsteps.eq_or_lt with rfl | hpositive
  · rw [evaluate_number_eq config le_rfl]
    exact ⟨_, rfl⟩
  · obtain ⟨F, -, hE⟩ := evaluate_number_completed config hpositive hs n
    exact ⟨_, hE⟩

/-- An application of a number to nothing. -/
def calling : Pointer := nodePointer .cons [.number 5, .nil]

/-- A step of an application takes in a node that says how to go on. -/
theorem evaluate_calling (config : Config) (hs : s.Sound)
    (hnode : s.nodes[calling]? = some [.number 5, .nil]) : ∃ E,
    evaluate config 1 false calling none s = .ok E (s.put .call0 [.nil, .nil, .nil, .outermost]) := by
  have hheld : s.Holds calling := hs.contains_of_node hnode
  have hstate : (State.initial calling .nil).Held s := held_initial hheld s.holds_nil
  have henv : ∀ p ∈ (none : Option Pointer), s.Holds p := fun _ h => by cases h
  have hpart (i : ℕ) : s.part calling i = [.number 5, .nil].getD i .nil := part_of_node hnode i
  have hcar : s.car calling = .number 5 := hpart 0
  have hcdr : s.cdr calling = .nil := hpart 1
  have hexpression : s.expression calling = .call0 (.number 5) := by
    have htag : calling.tag = .cons := rfl
    unfold expression
    rw [htag, hcar, hcdr, formOf?_eq_none (by decide)]
    rfl
  have hmiddle : middle config (.initial calling .nil) s =
      EvalPhase.push .nil (.number 5) .call0 [.nil, .nil, .nil, .outermost] s := by
    change EvalPhase.evaluate config.lookupDepth ⟨calling, .nil, .outermost⟩ s = _
    unfold EvalPhase.evaluate
    dsimp only
    rw [hexpression]
  have hsilent : report? config (.initial calling .nil) s = none := by
    unfold report?
    rw [hmiddle]
    rfl
  obtain ⟨F, hstep, hfollows⟩ := step_silent config hs hstate hsilent
  have hnext : (next config (.initial calling .nil) s).2 =
      s.put .call0 [.nil, .nil, .nil, .outermost] := by
    unfold next
    rw [hmiddle]
    rfl
  rw [hnext] at hstep
  rw [evaluate_eq false (by decide) hheld henv]
  have hrun : run config false 1 (.initial calling .nil) [] s =
      .ok ([F], (stop? false 0 F.output).getD .maxStepsReached)
        (s.put .call0 [.nil, .nil, .nil, .outermost]) := EStateM.bind_of_ok hstep _
  exact ⟨_, EStateM.bind_of_ok hrun _⟩

end FieldLisp.Machine
