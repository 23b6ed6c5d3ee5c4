import FieldLisp.Proofs.Machine.Lookup
import FieldLisp.Proofs.Machine.RecursiveEvaluations

/-!
# Deeper lookups

The bound on lookups changes a run only where a lookup exceeds it. As long as none does, a larger bound gives the same
run:

* `Frame.Exceeds`: the frame of a lookup that inspected as many nodes as it may, and stopped;
* `Frame.Agrees`: frames that say the same, except for what was hashed on the way;
* `Machine.step_deeper`: a step whose lookup does not exceed the bound is the same under a larger one;
* `Machine.run_deeper`: so is a run, by induction on the budget;
* `Machine.evaluate_deeper`: so is an evaluation, and one that fails does so under any larger bound.
-/

namespace FieldLisp

open Store
open EStateM (bind_of_ok bind_of_error bind_eq_ok pure_eq_ok)

/-- A lookup stopped the machine, since it had inspected as many nodes as it may. -/
def Frame.Exceeds (F : Frame) : Prop :=
  F.rule = .lookup ∧ F.output.expr = .error .depthExceeded ∧ F.output.cont = .failed

theorem Frame.Exceeds.halted {F : Frame} (h : F.Exceeds) : F.output.isHalted = true := by
  rw [State.isHalted, h.2.2]
  rfl

/-- Two frames say the same of a step. They may differ in the slots, for a larger bound has more of them. -/
structure Frame.Agrees (F G : Frame) : Prop where
  input : G.input = F.input
  output : G.output = F.output
  rule : G.rule = F.rule
  returnRule : G.returnRule = F.returnRule
  intermediate : G.intermediate = F.intermediate
  returned : G.returned = F.returned
  emitted : G.emitted = F.emitted

variable {config config' : Config} {st : State} {s t : Store} {F : Frame} {e env : Pointer}

namespace Store

theorem formExpression_ne_variable (form : Form) (arguments : Pointer) :
    s.formExpression form arguments ≠ .variable := by
  intro h
  unfold formExpression bindExpression at h
  split at h
  all_goals repeat' split at h
  all_goals cases h

theorem callExpression_ne_variable (head arguments : Pointer) : s.callExpression head arguments ≠ .variable := by
  intro h
  unfold callExpression at h
  split_ifs at h

/-- An expression whose value is looked up is a symbol, and not the one that stands for itself. -/
theorem of_expression_variable (h : s.expression e = .variable) : e.tag = .symbol ∧ e ≠ Builtin.truthPointer := by
  unfold expression at h
  cases htag : e.tag <;> rw [htag] at h
  case symbol =>
    refine ⟨rfl, fun htruth => ?_⟩
    dsimp only at h
    rw [if_pos htruth] at h
    cases h
  case cons =>
    dsimp only at h
    split at h
    · exact absurd h (formExpression_ne_variable _ _)
    · exact absurd h (callExpression_ne_variable _ _)
  all_goals cases h

end Store

namespace Machine

theorem evalRule_of_variable (hmoving : st.isHalted = false) (h : s.expression st.expr = .variable) :
    evalRule st s = .lookup := by
  obtain ⟨htag, htruth⟩ := of_expression_variable h
  exact firing_lookup _ htag htruth hmoving

/-- The outcome between the phases is the same, unless a lookup goes beyond the bound. -/
theorem middle_deeper (hle : config.lookupDepth ≤ config'.lookupDepth)
    (h : st.isHalted = false → s.expression st.expr = .variable →
      s.search st.expr config.lookupDepth st.env ≠ .beyond) :
    middle config' st s = middle config st s := by
  obtain ⟨expr, env, cont⟩ := st
  unfold middle EvalPhase.reduct
  cases hmoving : State.isHalted ⟨expr, env, cont⟩ with
  | true => rfl
  | false =>
    simp only [Bool.false_eq_true, if_false]
    unfold EvalPhase.evaluate
    dsimp only at h ⊢
    cases hexpr : s.expression expr with
    | «variable» =>
      have hsearch := search_deeper (h hmoving hexpr) hle
      simp only [Store.lookup, hsearch]
    | _ => rfl

/-- A lookup that goes beyond the bound stops the machine. -/
theorem middle_of_beyond (hmoving : st.isHalted = false) (hexpr : s.expression st.expr = .variable)
    (hbeyond : s.search st.expr config.lookupDepth st.env = .beyond) :
    middle config st s = (⟨.fail st.env .depthExceeded, false⟩, s) := by
  unfold middle EvalPhase.reduct EvalPhase.evaluate
  rw [if_neg (by rw [hmoving]; exact Bool.false_ne_true)]
  dsimp only
  rw [hexpr]
  simp only [Store.lookup, hbeyond, EvalPhase.deliver]

theorem exceeds_of_beyond (hmoving : st.isHalted = false) (hexpr : s.expression st.expr = .variable)
    (hbeyond : s.search st.expr config.lookupDepth st.env = .beyond) (hfollows : Follows config st s F) :
    F.Exceeds := by
  have houtput : F.output = .fail st.env .depthExceeded := by
    rw [hfollows.output, next, middle_of_beyond hmoving hexpr hbeyond]
    rfl
  refine ⟨hfollows.rule.trans (evalRule_of_variable hmoving hexpr), ?_, ?_⟩
  · rw [houtput]
    rfl
  · rw [houtput]
    rfl

theorem follows_agrees {G : Frame} (hmiddle : middle config' st s = middle config st s)
    (hF : Follows config st s F) (hG : Follows config' st s G) : F.Agrees G where
  input := by rw [hG.input, hF.input]
  output := by rw [hG.output, hF.output, next, next, hmiddle]
  rule := by rw [hG.rule, hF.rule]
  returnRule := by rw [hG.returnRule, hF.returnRule, contRule, contRule, hmiddle]
  intermediate := by rw [hG.intermediate, hF.intermediate, hmiddle]
  returned := by rw [hG.returned, hF.returned, hmiddle]
  emitted := by rw [hG.emitted, hF.emitted, report?, report?, hmiddle]

/-! ## Steps and runs -/

section
variable (hle : config.lookupDepth ≤ config'.lookupDepth)
include hle

/-- A step that does not exceed the bound says the same under a larger one. -/
theorem step_deeper (hs : s.Sound) (hst : st.Held s) (hstep : step config st s = .ok F t) (hwithin : ¬F.Exceeds) :
    ∃ G, step config' st s = .ok G t ∧ F.Agrees G := by
  obtain ⟨rfl, hfollows⟩ := step_ok hs hst hstep
  have hmiddle : middle config' st s = middle config st s := middle_deeper hle fun hmoving hexpr hbeyond =>
    hwithin (exceeds_of_beyond hmoving hexpr hbeyond hfollows)
  rcases step_cases config' hs hst with ⟨G, hstep', hfollows'⟩ | ⟨v, fault, hreport, hrender, -⟩
  · rw [next, hmiddle] at hstep'
    exact ⟨G, hstep', follows_agrees hmiddle hfollows hfollows'⟩
  · -- What has no written form has none under the smaller bound either.
    rw [report?, hmiddle] at hreport
    rw [hmiddle] at hrender
    cases hstep.symm.trans (step_unwritten config hs hst hreport hrender)

/-- A step that fails does so under any larger bound. -/
theorem step_error_deeper {fault : Fault} (hs : s.Sound) (hst : st.Held s) (hstep : step config st s = .error fault t) :
    step config' st s = .error fault t := by
  rcases step_cases config hs hst with ⟨G, hstep', -⟩ | ⟨v, fault', hreport, hrender, hstep'⟩
  · cases hstep.symm.trans hstep'
  · obtain ⟨rfl, rfl⟩ := EStateM.Result.error.inj (hstep.symm.trans hstep')
    have hmiddle : middle config' st s = middle config st s := by
      apply middle_deeper hle
      intro hmoving hexpr hbeyond
      -- A lookup that goes beyond the bound reports nothing.
      rw [report?, middle_of_beyond hmoving hexpr hbeyond] at hreport
      cases hreport
    have hreport' : report? config' st s = some v := by
      rw [report?, hmiddle]
      exact hreport
    have hfails := step_unwritten config' hs hst hreport' (by rw [hmiddle]; exact hrender)
    rw [hmiddle] at hfails
    exact hfails

/-- Frames that exceed the bound end a run, so a run without them is the same under a larger bound. -/
theorem run_deeper {cancelled : Bool} {budget : ℕ} {taken taken' frames : List Frame} {reason : Reason}
    (hs : Reachable s) (hst : st.Held s) (htaken : List.Forall₂ Frame.Agrees taken taken')
    (hrun : run config cancelled budget st taken s = .ok (frames, reason) t) (hwithin : ∀ F ∈ frames, ¬F.Exceeds) :
    ∃ frames', run config' cancelled budget st taken' s = .ok (frames', reason) t ∧
      List.Forall₂ Frame.Agrees frames frames' := by
  induction budget generalizing st s taken taken' with
  | zero =>
    obtain ⟨hframes, rfl⟩ := pure_eq_ok.1 hrun
    obtain ⟨rfl, rfl⟩ := Prod.mk.inj hframes
    exact ⟨taken'.reverse, rfl, List.rel_reverse htaken⟩
  | succ budget ih =>
    rw [run] at hrun ⊢
    cases hstop : stop? cancelled (budget + 1) st with
    | some found =>
      rw [hstop] at hrun
      obtain ⟨hframes, rfl⟩ := pure_eq_ok.1 hrun
      obtain ⟨rfl, rfl⟩ := Prod.mk.inj hframes
      exact ⟨taken'.reverse, rfl, List.rel_reverse htaken⟩
    | none =>
      rw [hstop] at hrun
      dsimp only at hrun ⊢
      obtain ⟨F, u, hstep, hrest⟩ := bind_eq_ok.1 hrun
      obtain ⟨hu, houtput⟩ := reachable_step hs hst hstep
      have hF : F ∈ frames := by
        obtain ⟨added, rfl, -⟩ := run_ran hrest
        simp
      obtain ⟨G, hstep', hagrees⟩ := step_deeper hle (reachable_sound hs) hst hstep (hwithin F hF)
      obtain ⟨frames', hrun', hframes⟩ := ih hu houtput (.cons hagrees htaken) hrest
      refine ⟨frames', ?_, hframes⟩
      rw [bind_of_ok hstep', hagrees.output]
      exact hrun'

/-- A run that fails does so under any larger bound. -/
theorem run_error_deeper {cancelled : Bool} {budget : ℕ} {taken taken' : List Frame} {fault : Fault} (hs : Reachable s)
    (hst : st.Held s) (hrun : run config cancelled budget st taken s = .error fault t) :
    run config' cancelled budget st taken' s = .error fault t := by
  induction budget generalizing st s taken taken' with
  | zero => cases hrun
  | succ budget ih =>
    rw [run] at hrun ⊢
    cases hstop : stop? cancelled (budget + 1) st with
    | some found =>
      rw [hstop] at hrun
      cases hrun
    | none =>
      rw [hstop] at hrun
      dsimp only at hrun ⊢
      cases hstep : step config st s with
      | error fault' u =>
        rw [bind_of_error hstep] at hrun
        cases hrun
        exact bind_of_error (step_error_deeper hle (reachable_sound hs) hst hstep) _
      | ok F u =>
        rw [bind_of_ok hstep] at hrun
        obtain ⟨hu, houtput⟩ := reachable_step hs hst hstep
        have hwithin : ¬F.Exceeds := fun hexceeds => by
          rw [run_of_halted hexceeds.halted] at hrun
          cases hrun
        obtain ⟨G, hstep', hagrees⟩ := step_deeper hle (reachable_sound hs) hst hstep hwithin
        rw [bind_of_ok hstep', hagrees.output]
        exact ih hu houtput hrun

end

/-! ## Evaluations -/

/-- An evaluation from what is in the store is a run. -/
theorem evaluate_of_run {maxSteps : Int} {cancelled : Bool} {env : Option Pointer} (hsteps : ¬maxSteps < 0)
    (hexpr : s.Holds e) (henv : s.Holds (env.getD .nil)) :
    evaluate config maxSteps cancelled e env s = (do
      let ran ← run config cancelled maxSteps.toNat (.initial e (env.getD .nil)) []
      pure ⟨ran.1, ran.2, .initial e (env.getD .nil)⟩ : StoreM Evaluation) s := by
  have hintern : internPointer e s = .ok e s := internPointer_eq_ok.2 ⟨hexpr.contains, rfl, rfl⟩
  unfold evaluate
  rw [if_neg hsteps]
  dsimp only
  rw [bind_of_ok hintern]
  cases env with
  | none => rfl
  | some env =>
    have hintern' : internPointer env s = .ok env s := internPointer_eq_ok.2 ⟨henv.contains, rfl, rfl⟩
    dsimp only
    rw [bind_of_ok hintern']
    rfl

theorem emitted_of_agrees {frames frames' : List Frame} (h : List.Forall₂ Frame.Agrees frames frames') :
    frames'.flatMap Frame.emitted = frames.flatMap Frame.emitted := by
  induction h with
  | nil => rfl
  | cons hagrees _ ih => rw [List.flatMap_cons, List.flatMap_cons, hagrees.emitted, ih]

/-- A larger bound on lookups is conservative. In a store that operations built, an evaluation none of whose frames
exceeds the bound is the same under any larger bound: it ends for the same reason, on the same store, its frames say
the same, and it emits the same. An evaluation that fails does so under any larger bound. -/
theorem evaluate_deeper {maxSteps : Int} {cancelled : Bool} {env : Option Pointer} (hs : Reachable s)
    (hexpr : s.Holds e) (henv : s.Holds (env.getD .nil)) (hle : config.lookupDepth ≤ config'.lookupDepth) :
    (∀ E t, evaluate config maxSteps cancelled e env s = .ok E t → (∀ F ∈ E.frames, ¬F.Exceeds) →
      ∃ E', evaluate config' maxSteps cancelled e env s = .ok E' t ∧ E'.reason = E.reason ∧
        E'.initial = E.initial ∧ List.Forall₂ Frame.Agrees E.frames E'.frames ∧ E'.emitted = E.emitted) ∧
    ∀ fault t, evaluate config maxSteps cancelled e env s = .error fault t →
      evaluate config' maxSteps cancelled e env s = .error fault t := by
  have hst := held_initial hexpr henv
  constructor
  · intro E t heval hwithin
    obtain ⟨hsteps, hcontains, hcontains', hinitial, hrun⟩ := evaluate_eq_ok.1 heval
    rw [hinitial] at hrun
    obtain ⟨frames', hrun', hagree⟩ := run_deeper hle hs hst .nil hrun hwithin
    have heval' : evaluate config' maxSteps cancelled e env s = .ok ⟨frames', E.reason, E.initial⟩ t :=
      evaluate_eq_ok.2 ⟨hsteps, hcontains, hcontains', hinitial, by rw [hinitial]; exact hrun'⟩
    exact ⟨_, heval', rfl, rfl, hagree, emitted_of_agrees hagree⟩
  · intro fault t heval
    by_cases hsteps : maxSteps < 0
    · unfold evaluate at heval ⊢
      rw [if_pos hsteps] at heval ⊢
      exact heval
    · rw [evaluate_of_run hsteps hexpr henv] at heval ⊢
      cases hrun : run config cancelled maxSteps.toNat (.initial e (env.getD .nil)) [] s with
      | ok ran u =>
        rw [bind_of_ok hrun] at heval
        cases heval
      | error fault' u =>
        rw [bind_of_error hrun] at heval
        cases heval
        exact bind_of_error (run_error_deeper hle hs hst hrun) _

/-- A frame that exceeds the bound is the last one, and no evaluation is completed with it. -/
theorem not_exceeds_of_completed {maxSteps : Int} {cancelled : Bool} {env : Option Pointer} {E : Evaluation}
    (heval : evaluate config maxSteps cancelled e env s = .ok E t) (hcompleted : E.reason = .completed) :
    ∀ F ∈ E.frames, ¬F.Exceeds := by
  obtain ⟨-, -, -, hinitial, hrun⟩ := evaluate_eq_ok.1 heval
  obtain ⟨added, hframes, hran, hmoves, -, hstop⟩ := run_ran hrun
  rw [List.reverse_nil, List.nil_append] at hframes
  subst hframes
  have hterminal := (reason_of_stop hstop).1.1 hcompleted
  intro F hF hexceeds
  obtain ⟨i, hi, rfl⟩ := List.mem_iff_getElem.1 hF
  by_cases hlast : i + 1 < E.frames.length
  · have hmoving := hmoves _ (List.getElem_mem hlast)
    rw [← hran.contiguous i hlast, hexceeds.halted] at hmoving
    cases hmoving
  · have hfinal : finalState E.initial E.frames = E.frames[i].output := by
      have hnonempty : E.frames ≠ [] := List.ne_nil_of_mem hF
      rw [finalState, List.getLast?_eq_getElem?, List.getElem?_eq_getElem (by omega)]
      simp only [Option.map_some, Option.getD_some]
      congr 2
      omega
    rw [hfinal, hexceeds.2.2] at hterminal
    cases hterminal

open Capture in
/-- The form `(let ((x (lambda () y))) (x))`, evaluated where `y` is bound to five. Both lookups find their symbol
in the first node that they inspect. -/
theorem evaluate_deeper_closure : ∃ s E t, Reachable s ∧ s.Holds (program .bindLet abstraction call) ∧ s.Holds scope ∧
    evaluate ⟨1, none, none, by decide⟩ 5 false (program .bindLet abstraction call) (some scope) s = .ok E t ∧
    E.reason = .completed ∧ E.frames.length = 5 ∧ (∀ F ∈ E.frames, ¬F.Exceeds) ∧
    ∃ E', evaluate .standard 5 false (program .bindLet abstraction call) (some scope) s = .ok E' t ∧
      E'.reason = E.reason ∧ E'.initial = E.initial ∧ List.Forall₂ Frame.Agrees E.frames E'.frames ∧
      E'.emitted = E.emitted := by
  obtain ⟨s, h⟩ := exists_prepared
  have hs := h.bounded.reachable
  have hscope := (reachable_sound hs).contains_of_node h.scope
  have hp : s.Holds (program .bindLet abstraction call) := h.holds (.inl rfl) (.inl rfl) false
  let config : Config := ⟨1, none, none, by decide⟩
  obtain ⟨_, _, t, -, -, ht, hvisits⟩ := abstraction_runs config h false (by decide)
  have hlast := captured_ends config ht.toPrepared hvisits.held (search_here rfl (part_of_node ht.scope 0))
  obtain ⟨frames, hinputs, -, heval⟩ := hvisits.evaluates hs hp hscope rfl hlast rfl le_rfl
  have hlength : frames.length = 5 := by
    have h := congrArg List.length hinputs
    rwa [List.length_map] at h
  have hwithin := not_exceeds_of_completed heval rfl
  have henv : s.Holds ((some scope).getD .nil) := hscope
  have hle : config.lookupDepth ≤ Config.standard.lookupDepth := by decide
  have hdeeper := (evaluate_deeper hs hp henv hle).1 _ t heval hwithin
  exact ⟨s, _, t, hs, hp, hscope, heval, rfl, hlength, hwithin, hdeeper⟩

end Machine

end FieldLisp
