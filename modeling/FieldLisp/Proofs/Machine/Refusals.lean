import FieldLisp.Proofs.Machine.Evaluations
import FieldLisp.Proofs.Machine.Grammar
import FieldLisp.Proofs.Machine.RecursiveBindings

/-!
# Forms that are refused

A form that breaks its grammar has no value. If a step sees where, the machine stops. The form of the bindings after the
first one breaks the grammar too, so the machine stops there if it comes to it. All this holds of a run that takes in
nothing that collides:

* `Machine.Delivers`, `Machine.Returns`: a run hands a value to a continuation, and the step that does;
* `Machine.Pending.returns_or_stays`: until it does, all its states are above the continuation, or failed;
* `Machine.Pending.binds_or_stays`: a run hands a value to the first binding and goes on to the others, or stays above;
* `Machine.unfinished_of_breaks`, `Machine.fails_of_breaks`: wherever a list of bindings breaks the grammar, no run is
  completed, and a run that hands all bindings values stops with an error value.
-/

namespace FieldLisp

open Store

variable {s t u r : Store} {config : Config} {e x init list rest body env env' base v : Pointer} {recursive : Bool}
  {pursuit : Pursuit} {frames : List Frame} {F : Frame} {st final : State}

namespace Machine

/-! ## Values for a continuation -/

/-- A run hands a value to a continuation. -/
def Delivers (config : Config) (base : Pointer) (st : State) (s : Store) : Prop :=
  ∃ frames t, Ran config st s frames t ∧ ∃ F ∈ frames, ∃ v, Hands F v base

/-- A run comes to the step that hands a value to the continuation below its pursuit, and goes on. -/
inductive Returns (config : Config) (base : Pointer) (st : State) (s : Store) (frames : List Frame) (t : Store) : Prop
  | intro (before : List Frame) (F : Frame) (after : List Frame) (pursuit : Pursuit) (m : Store) (v env : Pointer)
      (split : frames = before ++ F :: after) (ran : RanTo config st s before (pursuit.on base) m)
      (pending : Pending base pursuit m) (value : (middle config (pursuit.on base) m).1 = ⟨⟨v, env, base⟩, true⟩)
      (rest : Ran config (pursuit.on base) m (F :: after) t)

theorem Returns.before (h : Returns config base F.output u frames t) (hstep : step config st s = .ok F u) :
    Returns config base st s (F :: frames) t := by
  obtain ⟨before, G, after, pursuit, m, v, env, rfl, hran, hpending, hvalue, hrest⟩ := h
  exact ⟨F :: before, G, after, pursuit, m, v, env, rfl, (RanTo.step hstep).trans hran, hpending, hvalue, hrest⟩

/-- The frame of a step that hands a value on. -/
theorem hands_iff (hs : s.Sound) (hst : st.Held s) (hstep : step config st s = .ok F t) :
    Hands F v base ↔ ∃ env, (middle config st s).1 = ⟨⟨v, env, base⟩, true⟩ := by
  obtain ⟨-, hfollows⟩ := step_ok hs hst hstep
  constructor
  · rintro ⟨hreturned, rfl, rfl⟩
    rw [hfollows.returned] at hreturned
    exact ⟨F.intermediate.env, by rw [hfollows.intermediate, ← hreturned]⟩
  · rintro ⟨env, hvalue⟩
    have hintermediate := hfollows.intermediate
    have hreturned := hfollows.returned
    rw [hvalue] at hintermediate hreturned
    exact ⟨hreturned, by rw [hintermediate], by rw [hintermediate]⟩

/-- No frame of a run at rest hands a value on. -/
theorem Ran.not_hands_of_halted (h : Ran config st s frames t) (hs : Reachable s) (hst : st.Held s)
    (hhalted : st.isHalted = true) : ∀ F ∈ frames, ∀ v, ¬Hands F v base := by
  induction h with
  | nil => exact List.forall_mem_nil _
  | @cons st s t u F frames hstep hrest ih =>
    have hsound := reachable_sound hs
    obtain ⟨hu, hheld⟩ := reachable_step hs hst hstep
    obtain ⟨G, hrests, houtput⟩ := step_rests config hsound hst hhalted
    cases hstep.symm.trans hrests
    rw [houtput] at ih hheld
    refine List.forall_mem_cons.2 ⟨fun v hhands => ?_, ih hu hheld hhalted⟩
    obtain ⟨env, hvalue⟩ := (hands_iff hsound hst hstep).1 hhands
    rw [middle, EvalPhase.reduct, if_pos hhalted] at hvalue
    cases hvalue

/-- Until a run hands a value to the continuation below its pursuit, all its states are above the continuation, or
failed. -/
theorem Pending.returns_or_stays (h : Pending base pursuit s) (hbase : base.tag.isHalted = false)
    (hran : Ran config (pursuit.on base) s frames t) (hinjective : Set.InjOn Sponge.hash t.content) :
    Returns config base (pursuit.on base) s frames t ∨
      (∀ F ∈ frames, ∀ v, ¬Hands F v base) ∧
        ((∃ pursuit' : Pursuit, finalState (pursuit.on base) frames = pursuit'.on base) ∨
          (finalState (pursuit.on base) frames).isFailed = true) := by
  generalize hst : pursuit.on base = st at hran
  induction hran generalizing pursuit with
  | nil st s => exact .inr ⟨List.forall_mem_nil _, .inl ⟨pursuit, hst.symm⟩⟩
  | @cons st s t m F frames hstep hrest ih =>
    subst hst
    have hsound := reachable_sound h.reachable
    have hgrows := RanTo.grows ⟨.cons hstep hrest, rfl⟩ h.reachable h.held
    have hfaithful := faithful_of_injOn hinjective h.reachable hgrows.content_subset
    obtain ⟨hu, hheld⟩ := reachable_step h.reachable h.held hstep
    obtain ⟨hstore, hfollows⟩ := step_ok hsound h.held hstep
    have hreturns {v env : Pointer} (hvalue : (middle config (pursuit.on base) s).1 = ⟨⟨v, env, base⟩, true⟩) :
        Returns config base (pursuit.on base) s (F :: frames) t :=
      ⟨[], F, frames, pursuit, s, v, env, rfl, .nil _ _ _, h, hvalue, .cons hstep hrest⟩
    by_cases hhands : ∃ v, Hands F v base
    · obtain ⟨v, hhands⟩ := hhands
      obtain ⟨env, hvalue⟩ := (hands_iff hsound h.held hstep).1 hhands
      exact .inl (hreturns hvalue)
    have hfirst : ∀ v, ¬Hands F v base := fun v hv => hhands ⟨v, hv⟩
    rw [finalState_cons]
    rcases h.next hbase hfaithful (.refl _) with ⟨v, env, -, hvalue⟩ | ⟨hleads, -⟩
    · exact .inl (hreturns hvalue)
    rw [← hstore, ← hfollows.output] at hleads
    generalize pursuit.move config.lookupDepth (middle config (pursuit.on base) s).2 = move at hleads
    cases move with
    | returns v env => cases hleads
    | stops env code =>
      rw [Move.leads_stops_iff] at hleads
      have hhalted : F.output.isHalted = true := by rw [hleads]; rfl
      refine .inr ⟨List.forall_mem_cons.2 ⟨hfirst, hrest.not_hands_of_halted hu hheld hhalted⟩, .inr ?_⟩
      rw [hrest.final_of_halted hu hheld hhalted, hleads]
      rfl
    | goes pursuit' =>
      rw [Move.leads_goes_iff] at hleads
      obtain ⟨houtput, hstacked⟩ := hleads
      rw [houtput] at hheld
      refine (ih ⟨hu, hheld, hstacked⟩ hinjective houtput.symm).imp (fun hlast => hlast.before hstep) ?_
      rintro ⟨hothers, hfinal⟩
      exact ⟨List.forall_mem_cons.2 ⟨hfirst, hothers⟩, hfinal⟩

/-- A run that stays above a continuation, or fails, is not completed. -/
theorem not_terminal_of_stays (hbase : base.tag.isHalted = false)
    (hstays : (∃ pursuit : Pursuit, st = pursuit.on base) ∨ st.isFailed = true) : st.cont.tag ≠ .terminal := by
  intro hterminal
  rcases hstays with ⟨pursuit, rfl⟩ | hfailed
  · have hmoving := stackOn_not_halted hbase pursuit.stack
    change (stackOn base pursuit.stack).tag = .terminal at hterminal
    rw [hterminal] at hmoving
    cases hmoving
  · rw [State.isFailed, hterminal] at hfailed
    cases hfailed

/-- A run that has failed is never completed. -/
theorem RanTo.not_terminal {code : ErrorCode} {frames' : List Frame}
    (hran : RanTo config st s frames (.fail env code) t)
    (hs : Reachable s) (hst : st.Held s) (hran' : RanTo config st s frames' final r) : final.cont.tag ≠ .terminal := by
  intro hterminal
  have hhalted : final.isHalted = true := by rw [State.isHalted, hterminal]; rfl
  rw [← hran.halts_once hs hst rfl hran' hhalted] at hterminal
  cases hterminal

/-- The same frames lead to one state and one store. -/
theorem RanTo.unique {final' : State} {t' : Store} (h : RanTo config st s frames final t)
    (h' : RanTo config st s frames final' t') : final = final' ∧ t = t' := by
  cases h.ran.steps_eq.symm.trans h'.ran.steps_eq
  exact ⟨h.final.symm.trans h'.final, rfl⟩

/-! ## Forms of bindings -/

/-- A step refuses a form that breaks its grammar where the step looks. -/
theorem refuses_malformed (config : Config) (hs : Reachable s) (hst : st.Held s) (hmoving : st.isHalted = false)
    (hexpr : s.expression st.expr = .malformed) :
    ∃ F, RanTo config st s [F] (.fail st.env .invalidForm) s := by
  have hmiddle : middle config st s = (⟨.fail st.env .invalidForm, false⟩, s) := by
    unfold middle EvalPhase.reduct
    rw [if_neg (by rw [hmoving]; decide)]
    simp only [EvalPhase.evaluate, hexpr]
    rfl
  have hnext : next config st s = (.fail st.env .invalidForm, s) := by
    unfold next
    rw [hmiddle]
    rfl
  have hsilent : report? config st s = none := by
    unfold report?
    rw [hmiddle]
    rfl
  obtain ⟨F, hstep, hfollows⟩ := step_silent config (reachable_sound hs) hst hsilent
  have hran := RanTo.step hstep
  rw [hfollows.output, hnext] at hran
  exact ⟨F, hran⟩

/-- A list that was taken in is found again. -/
theorem items_of_hasList {ps : List Pointer} (h : u.HasList ps) : u.items ps.length (listPointer ps) = some ps := by
  induction ps with
  | nil => rfl
  | cons p ps ih =>
    have hpair : u.IsPair (listPointer (p :: ps)) p (listPointer ps) := ⟨rfl, h.1⟩
    rw [List.length_cons, hpair.items, ih h.2]
    rfl

/-- The form of the other bindings is found after the step that looked at the whole form. -/
theorem Pending.finds_nested {known : Set (List Int)} (h : Pending base ⟨e, env, []⟩ s)
    (hbase : base.tag.isHalted = false) (hinjective : Set.InjOn Sponge.hash known)
    (hran : RanTo config (Pursuit.on ⟨e, env, []⟩ base) s [F] st t) (hknown : t.content ⊆ known) (hu : t.Extends u)
    (hexpr : s.expression e = .bind recursive x init (some rest) body) :
    u.items 3 (nested (bindForm recursive) (some rest) body) = some [(bindForm recursive).symbol, rest, body] := by
  obtain ⟨he, -⟩ := State.held_iff.1 h.held
  obtain ⟨hgrows, hlater⟩ := middle_grows config h.reachable h.held
  rw [(eq_ok_iff.1 hran.single).2] at hlater
  have hsettled : (middle config (Pursuit.on ⟨e, env, []⟩ base) s).2.Settled u :=
    ⟨hlater.extends_.trans hu, faithful_of_injOn hinjective (hgrows.reachable h.reachable)
      (hlater.content_subset.trans hknown)⟩
  have hexpr' : u.expression e = .bind recursive x init (some rest) body :=
    (expression_within (hgrows.extends_.trans hsettled.extends_) (reachable_sound h.reachable) he).trans hexpr
  exact items_of_hasList ((h.looked hbase hsettled).bind hexpr' rest rfl)

/-- A form of several bindings evaluates the first initial expression. Once it is handed the value, it goes on to the
form of the other bindings. -/
theorem Pending.binds_or_stays (config : Config) (h : Pending .outermost ⟨e, env, []⟩ s)
    (hexpr : s.expression e = .bind recursive x init (some rest) body) :
    ∃ F t, RanTo config (.initial e env) s [F] ⟨init, env,
        (bindNode recursive x (nested (bindForm recursive) (some rest) body) env).onto .outermost⟩ t ∧
      ∀ frames final r, RanTo config ⟨init, env,
          (bindNode recursive x (nested (bindForm recursive) (some rest) body) env).onto .outermost⟩ t frames final r →
        Set.InjOn Sponge.hash r.content →
        (∃ before after env' m, s.Extends m ∧
          RanTo config (.initial e env) s (F :: before)
            (.initial (nested (bindForm recursive) (some rest) body) env') m ∧
          Pending .outermost ⟨nested (bindForm recursive) (some rest) body, env', []⟩ m ∧
          m.items 3 (nested (bindForm recursive) (some rest) body) = some [(bindForm recursive).symbol, rest, body] ∧
          RanTo config (.initial (nested (bindForm recursive) (some rest) body) env') m after final r) ∨
        (∀ G ∈ frames, ∀ v,
          ¬Hands G v ((bindNode recursive x (nested (bindForm recursive) (some rest) body) env).onto .outermost)) ∧
          final.cont.tag ≠ .terminal := by
  have hlook : (EvalPhase.look config.lookupDepth e env s).1 =
      .turn (.wait init env (bindNode recursive x (nested (bindForm recursive) (some rest) body) env)) := by
    simp only [EvalPhase.look, hexpr]
    rfl
  obtain ⟨F, t, -, hopens, hpending⟩ := h.waits config rfl hlook
  refine ⟨F, t, hopens, fun frames final r hran hinjective => ?_⟩
  have habove := hpending.above
  obtain ⟨hran, rfl⟩ := hran
  refine (habove.returns_or_stays (Waiting.not_halted _) hran hinjective).imp ?_ fun hstays =>
    ⟨hstays.1, not_terminal_of_stays (Waiting.not_halted _) hstays.2⟩
  rintro ⟨before, G, after, pursuit, m, v, env', rfl, hreaches, hpending', hvalue, hrest⟩
  -- What has been taken in so far does not collide.
  have hgrows := RanTo.grows ⟨hrest, rfl⟩ hpending'.reachable hpending'.held
  have hfaithful := faithful_of_injOn hinjective hpending'.reachable hgrows.content_subset
  obtain ⟨G', k, hbinds, -, hnext, -⟩ :=
    hpending'.bound hfaithful (hpending.stacked.mono (habove.grows hreaches)) hvalue
  cases hrest with
  | cons hstep hafter =>
    cases hstep.symm.trans hbinds.single
    have hbound := hreaches.trans hbinds
    have hwhole := hopens.trans hbound
    have hmore := habove.grows hbound
    have houtput : G.output = .initial (nested (bindForm recursive) (some rest) body) _ := hbinds.final
    rw [houtput] at hafter
    have hlater := RanTo.grows ⟨hafter, rfl⟩ hnext.reachable hnext.held
    have hnested := h.finds_nested rfl hinjective hopens (hmore.trans hlater).content_subset hmore.extends_ hexpr
    refine ⟨before ++ [G], after, _, k, (h.grows hwhole).extends_, hwhole, hnext, hnested, hafter, ?_⟩
    rw [finalState_append, finalState_cons, houtput]

/-- The run of a form whose bindings break the grammar is not completed. -/
theorem unfinished_of_breaks (hbreaks : s.BreaksBindings list) (hs : s.Sound) (hlist : s.Holds list)
    (hextends : s.Extends t) (h : Pending .outermost ⟨e, env, []⟩ t)
    (hitems : t.items 3 e = some [(bindForm recursive).symbol, list, body])
    (hran : RanTo config (.initial e env) t frames final r) (hinjective : Set.InjOn Sponge.hash r.content) :
    final.cont.tag ≠ .terminal := by
  induction hbreaks generalizing t e env frames with
  | @here list htag hfirst =>
    rw [← binding_within hextends hs hlist] at hfirst
    obtain ⟨F, hfails⟩ := refuses_malformed config h.reachable h.held rfl
      (expression_of_unbound hitems htag hfirst)
    exact hfails.not_terminal h.reachable h.held hran
  | @later list x init rest hfirst hothers ih =>
    have hexpr := expression_of_binding hitems ((binding_within hextends hs hlist).trans hfirst)
    obtain ⟨-, -, -, hmore⟩ := binding?_eq_some.1 hfirst
    obtain ⟨rfl, -⟩ := of_rest? hmore rest rfl
    obtain ⟨F, u, hopens, hgoes⟩ := h.binds_or_stays config hexpr
    intro hterminal
    have hhalted : final.isHalted = true := by rw [State.isHalted, hterminal]; rfl
    obtain ⟨others, rfl, hothers⟩ := hran.rest h.reachable h.held hhalted hopens (Waiting.not_halted _)
    rcases hgoes others final r hothers hinjective with
      ⟨before, after, env', m, hm, -, hnext, hnested, hafter⟩ | ⟨-, hunfinished⟩
    · exact ih (hs.holds_cdr hlist) (hextends.trans hm) hnext hnested hafter hterminal
    · exact hunfinished hterminal

/-- If all bindings are handed values, the run of a form whose bindings break the grammar stops with an error value. By
induction on the bindings before. -/
theorem fails_of_breaks (hbreaks : s.BreaksBindings list) (hs : s.Sound) (hlist : s.Holds list)
    (hextends : s.Extends t) (h : Pending .outermost ⟨e, env, []⟩ t)
    (hitems : t.items 3 e = some [(bindForm recursive).symbol, list, body])
    (hdelivers : ∀ x init inner env' frames u, s.HasBinding list x init →
      RanTo config (.initial e env) t frames ⟨init, env', (bindNode recursive x inner env').onto .outermost⟩ u →
      Delivers config ((bindNode recursive x inner env').onto .outermost)
        ⟨init, env', (bindNode recursive x inner env').onto .outermost⟩ u)
    (hinjective : ∀ frames final r, RanTo config (.initial e env) t frames final r → Set.InjOn Sponge.hash r.content) :
    ∃ frames env' r, RanTo config (.initial e env) t frames (.fail env' .invalidForm) r := by
  induction hbreaks generalizing t e env with
  | @here list htag hfirst =>
    rw [← binding_within hextends hs hlist] at hfirst
    obtain ⟨F, hfails⟩ := refuses_malformed config h.reachable h.held rfl
      (expression_of_unbound hitems htag hfirst)
    exact ⟨[F], env, t, hfails⟩
  | @later list x init rest hfirst hothers ih =>
    have hexpr := expression_of_binding hitems ((binding_within hextends hs hlist).trans hfirst)
    obtain ⟨hcons, -, hbinding, hmore⟩ := binding?_eq_some.1 hfirst
    obtain ⟨rfl, -⟩ := of_rest? hmore rest rfl
    obtain ⟨F, u, hopens, hgoes⟩ := h.binds_or_stays config hexpr
    -- The first binding is handed a value.
    obtain ⟨others, r, hran, G, hG, v, hhands⟩ := hdelivers x init _ env [F] u (.first hcons hbinding) hopens
    have hreaches : RanTo config _ u others _ r := ⟨hran, rfl⟩
    rcases hgoes others _ r hreaches (hinjective _ _ r (hopens.trans hreaches)) with
      ⟨before, after, env', m, hm, hpasses, hnext, hnested, -⟩ | ⟨hnever, -⟩
    · obtain ⟨frames, env'', r', hfails⟩ := ih (hs.holds_cdr hlist) (hextends.trans hm) hnext hnested
        (fun x init inner env' frames u hbinding hreached =>
          hdelivers x init inner env' _ u (.later hcons hbinding) (hpasses.trans hreached))
        fun frames final r hreached => hinjective _ _ r (hpasses.trans hreached)
      exact ⟨_, env'', r', hpasses.trans hfails⟩
    · exact absurd hhands (hnever G hG v)

end Machine

end FieldLisp
