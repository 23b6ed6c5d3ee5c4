import FieldLisp.Proofs.Machine.Arithmetic
import FieldLisp.Proofs.Machine.BigStep

/-!
# Programs come to what recursion says

What recursion makes of an expression that was read, in an environment that a run of programs reaches,
the machine comes to, whatever continuation it starts with:

* `Store.Read`, `Store.Arises`: such expressions and environments;
* `Store.Read.sane`, `Store.Arises.sane`: no error value stands below them;
* `Machine.steps_compute`: the machine gives the value to the continuation, or stops with the error.
-/

namespace FieldLisp

open Store
open Machine (Ran)

variable {config : Config} {s t u : Store} {p expr env cont : Pointer}

/-! ## Runs of programs -/

namespace Store

/-- What a text was read as, in a store from which operations built this one. -/
def Read (s : Store) (p : Pointer) : Prop :=
  ∃ text r t, Reachable r ∧ FieldLisp.read text r = .ok p t ∧ t.Builds s

/-- The environments that runs reach, of expressions that were read, in environments that runs reach. -/
inductive Arises : Store → Pointer → Prop
  | nil (s : Store) : Arises s .nil
  | run {config : Config} {maxSteps : Int} {cancelled : Bool} {expr env : Pointer} {E : Evaluation}
      {F : Frame} {s t u : Store} (hs : Reachable s) (hexpr : s.Read expr) (henv : Arises s env)
      (hrun : Machine.evaluate config maxSteps cancelled expr (some env) s = .ok E t) (hF : F ∈ E.frames)
      (hbuilds : t.Builds u) : Arises u F.output.env

theorem Builds.grows (h : s.Builds t) (hs : Reachable s) : s.Grows t :=
  ⟨reachable_sound hs, reachable_sound (h.reachable hs), h.retains.extends_, h.retains.interned, h.retains.name,
    h.reachable⟩

theorem Read.sane (h : s.Read p) : Sane s p := by
  obtain ⟨text, r, t, hr, hread, hbuilds⟩ := h
  obtain ⟨hgrows, hp⟩ := read_inherits inherited_sane (reachable_sound hr) hread
  exact inherited_sane.mono (hbuilds.grows (hgrows.reachable hr)) hp

end Store

/-- What is inherited passes on to all states of a run. -/
theorem Machine.Ran.inherits {P : Store → Pointer → Prop} (hP : Inherited P) {st : State}
    {frames : List Frame} (h : Ran config st s frames t) (hs : s.Sound) (hst : st.Of P s) :
    s.Grows t ∧ ∀ F ∈ frames, P t F.output.env := by
  induction h with
  | nil => exact ⟨.refl hs, List.forall_mem_nil _⟩
  | @cons st s t u F frames hstep hrest ih =>
    obtain ⟨rfl, hfollows⟩ := step_ok hs (hst.held hP) hstep
    obtain ⟨hmiddle, hvalue⟩ := EvalPhase.reduct_inherits hP config.lookupDepth hs hst
    obtain ⟨hgrows, hnext⟩ := ContPhase.reduct_inherits hP hmiddle.1.sound hmiddle.2 hvalue
    have houtput : F.output.Of P (next config st s).2 := by
      rw [hfollows.output]
      exact hnext
    obtain ⟨hgrows', hall⟩ := ih hgrows.sound houtput
    have hfirst := hmiddle.1.trans hgrows
    exact ⟨hfirst.trans hgrows', List.forall_mem_cons.2 ⟨hP.mono hgrows' houtput.env, hall⟩⟩

theorem Store.Arises.sane (h : s.Arises p) : Sane s p := by
  induction h with
  | nil s => exact inherited_sane.nil s
  | @run config maxSteps cancelled expr env E F s t u hs hexpr henv hrun hF hbuilds ih =>
    obtain ⟨-, -, -, hinitial, hran⟩ := Machine.evaluate_eq_ok.1 hrun
    obtain ⟨added, hframes, hsteps, -⟩ := Machine.run_ran hran
    have hinitialOf : E.initial.Of Sane s := by
      rw [hinitial]
      exact ⟨.inl hexpr.sane, ih, inherited_sane.immediate s 0 rfl rfl (by decide)⟩
    obtain ⟨hgrows, hall⟩ := hsteps.inherits inherited_sane (reachable_sound hs) hinitialOf
    rw [List.reverse_nil, List.nil_append] at hframes
    exact inherited_sane.mono (hbuilds.grows (hgrows.reachable hs)) (hall F (hframes ▸ hF))

/-! ## The machine -/

namespace Machine

/-- What recursion makes of an expression that was read, in an environment that a run of programs
reaches, the machine comes to with every continuation: the first value that it gives to the continuation
is that of the recursion, or it stops with the error. The machine reads back continuations and thunks
that it has taken in, so no hashes may collide of what it takes in up to this step. -/
theorem steps_compute (config : Config) {fuel : ℕ} {r : Except ErrorCode (Pointer × Store)}
    (hs : Reachable s) (hexpr : s.Read expr) (henv : s.Arises env) (hcont : s.Holds cont)
    (hmoving : cont.tag.isHalted = false)
    (hinjective : Set.InjOn Sponge.hash
      (after (stepsTo config (some cont) (4 ^ fuel) ⟨expr, env, cont⟩) s).content)
    (hr : Direct.run config.lookupDepth fuel (.value expr env) s = some r) :
    (∀ v t, r = .ok (v, t) → ∃ frames F u, frames.length < 4 ^ fuel ∧
      steps config (frames.length + 1) ⟨expr, env, cont⟩ s = .ok (frames ++ [F]) u ∧
        F.returned = true ∧ F.intermediate.expr = v ∧ F.intermediate.cont = cont ∧
        ∀ G ∈ frames, ¬HandsTo G (some cont)) ∧
    (∀ code, r = .error code → ∃ frames env' u, frames.length ≤ 4 ^ fuel ∧
      steps config frames.length ⟨expr, env, cont⟩ s = .ok frames u ∧
        finalState ⟨expr, env, cont⟩ frames = .fail env' code ∧ ∀ G ∈ frames, ¬HandsTo G (some cont)) := by
  have hsound := reachable_sound hs
  have hheld : (⟨expr, env, cont⟩ : State).Held s := State.held_iff.2 ⟨hexpr.sane.1, henv.sane.1, hcont⟩
  have hreachable := (grows_after_stepsTo config (some cont) (4 ^ fuel) hs hheld).1.reachable hs
  have hfaithful : (after (stepsTo config (some cont) (4 ^ fuel) ⟨expr, env, cont⟩) s).Faithful :=
    fun tag cs p h => ((interned_iff_node hreachable hinjective).1 h).2
  have hstage : Stage config (some cont) _ (4 ^ fuel) ⟨expr, env, cont⟩ s := ⟨hs, hheld, .refl _⟩
  have hset := Setting.of_value hsound hexpr.sane henv.sane (.refl s) hstage hmoving .refl
  have hsimulates := run_simulates config cont hfaithful fuel
  have hcomes := hsimulates.comes hset hr
  constructor
  · rintro v t rfl
    obtain ⟨hgrows, hv⟩ := hsimulates.passes hsound hset.sane v t hr
    obtain ⟨k, st', m', env', u, F, hk, ⟨frames, hran, hlength, hfinal, hgoes⟩, hgives, -⟩ :=
      hcomes.gives hfaithful hstage hgrows hv
    subst hfinal
    have hall := (hran.append (.cons hgives.step (.nil _ _))).steps_eq
    rw [List.length_append] at hall
    refine ⟨frames, F, _, by omega, hall, hgives.returned, ?_, ?_, hgoes⟩
    · rw [hgives.intermediate]
    · rw [hgives.intermediate]
  · rintro code rfl
    obtain ⟨env', u, frames, hran, hlength, hfinal, hgoes⟩ := hcomes
    exact ⟨frames, env', u, hlength, hran.steps_eq, hfinal, hgoes⟩

/-- The expression `(+ 1 2)` of a fresh store, which recursion gives the value three. -/
theorem steps_compute_sum : ∃ s, Reachable s ∧ s.Read Addition.expression ∧ s.Arises .nil ∧ s.Holds .outermost ∧
    Pointer.outermost.tag.isHalted = false ∧
    Set.InjOn Sponge.hash
      (after (stepsTo .standard (some .outermost) (4 ^ 2) ⟨Addition.expression, .nil, .outermost⟩) s).content ∧
    Direct.run Config.standard.lookupDepth 2 (.value Addition.expression .nil) s = some (.ok (.number 3, s)) ∧
    ∃ frames F u,
      steps .standard (frames.length + 1) ⟨Addition.expression, .nil, .outermost⟩ s = .ok (frames ++ [F]) u ∧
      F.returned = true ∧ F.intermediate.expr = .number 3 ∧ F.intermediate.cont = .outermost := by
  obtain ⟨s, hread, h⟩ := Addition.reads false
  have hcont : s.Holds .outermost := holds_immediate _ (Pointer.immediate_canonical .outermost 0) rfl
  have hgrows := after_stepsTo_grows .standard (some .outermost) (4 ^ 2) h.bounded.reachable h.held
  have hinjective := Addition.injOn_preimages.mono
    (hgrows.content_subset.trans (Addition.content_run .standard h (4 ^ 2)))
  have hrun : Direct.run Config.standard.lookupDepth 2 (.value Addition.expression .nil) s =
      some (.ok (.number 3, s)) := by
    have hoperands : Direct.run Config.standard.lookupDepth 2 (.value Addition.expression .nil) s =
        EvalM.compute (·.binaryValue .add Addition.one Addition.two) s := by
      change Direct.expression _ _ _ _ (s.expression Addition.expression) s = _
      rw [h.expression_eq]
      rfl
    rw [hoperands]
    rfl
  have hprogram : s.Read Addition.expression := ⟨_, _, s, .empty false, hread, .refl⟩
  obtain ⟨frames, F, u, -, hsteps, hreturned, hvalue, hto, -⟩ :=
    (steps_compute .standard h.bounded.reachable hprogram (.nil s) hcont rfl hinjective hrun).1 _ _ rfl
  exact ⟨s, h.bounded.reachable, hprogram, .nil s, hcont, rfl, hinjective, hrun, frames, F, u, hsteps,
    hreturned, hvalue, hto⟩

end Machine

end FieldLisp
