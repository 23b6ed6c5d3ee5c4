import FieldLisp.Proofs.Machine.Recursion
import FieldLisp.Proofs.Machine.Reports

/-!
# A run and its companion

A run that binds a symbol plainly has a companion, which binds it recursively and takes a step for each of its steps.
What either one takes in before and after a step is in one large store, where their pursuits correspond:

* `Machine.Underway`: a run that goes on for some more steps, and stays within a larger store;
* `Corresponds.step`: the companion takes a step if the run does, unless the run fails or both tell the bindings apart;
* `Machine.Parts`: the frames in which a run and its companion tell the bindings apart;
* `Corresponds.completes`: if the run comes to a number, its companion does so in as many steps at most, or they part.
-/

namespace FieldLisp

open Store

/-- The node that waits is taken in last. -/
theorem Turn.Inherits.grows_store {s : Store} {result : Turn × Store} {cont : Pointer}
    (h : Turn.Inherits Holds s result) (hcont : s.Holds cont) :
    result.2.Grows (result.1.store cont result.2) := by
  obtain ⟨turn, t⟩ := result
  obtain ⟨hgrows, hparts⟩ := h
  cases turn with
  | stop | enter => exact .refl hgrows.sound
  | wait expr env w =>
    simp only [pointers, List.forall_mem_cons] at hparts
    exact (grows_put hgrows.sound w.arity (by simp [Waiting.children, hparts, hgrows.holds hcont])).1

theorem Turn.move_ne_returns (turn : Turn) (stack : List Waiting) (v env : Pointer) :
    turn.move stack ≠ .returns v env := by
  cases turn <;> exact nofun

/-- A step that hands a value to the continuation reports nothing from above it. -/
theorem Pursuit.silent_of_returns {pursuit : Pursuit} {depth : ℕ} {u : Store} {v env : Pointer}
    (h : pursuit.move depth u = .returns v env) : pursuit.report? depth u = none := by
  unfold Pursuit.move at h
  unfold Pursuit.report?
  cases hlook : (EvalPhase.look depth pursuit.expr pursuit.env u).1 with
  | turn turn => rfl
  | value r =>
    rw [hlook] at h
    cases hstack : pursuit.stack with
    | nil => rfl
    | cons w stack =>
      rw [hstack] at h
      exact absurd h (Turn.move_ne_returns _ _ _ _)

namespace Machine

variable {s s' t t' u : Store} {config : Config} {known : Set (List Int)} {base v env : Pointer}
  {pursuit pursuit' : Pursuit} {F : Frame} {w : Waiting} {stack : List Waiting} {n : ℕ}

/-! ## What steps take in -/

/-- What the evaluation phase takes in is in a store that is larger than the one it leaves. -/
theorem Pending.looked (h : Pending base pursuit s) (hbase : base.tag.isHalted = false)
    (hmiddle : (middle config (pursuit.on base) s).2.Settled u) :
    EvalPhase.Looked u config.lookupDepth pursuit.expr pursuit.env := by
  have hs := reachable_sound h.reachable
  obtain ⟨hexpr, henv, hcont⟩ : s.Holds pursuit.expr ∧ s.Holds pursuit.env ∧ s.Holds (stackOn base pursuit.stack) :=
    State.held_iff.1 h.held
  refine ⟨s, hs, hexpr, henv, ?_⟩
  have hlook := EvalPhase.look_inherits inherited_holds config.lookupDepth hs hexpr henv
  rw [middle_eq config pursuit hbase s] at hmiddle
  generalize EvalPhase.look config.lookupDepth pursuit.expr pursuit.env s = result at hlook hmiddle
  obtain ⟨decision, t⟩ := result
  cases decision with
  | value v => exact hmiddle
  | turn turn =>
    have hturn : Turn.Inherits Holds s (turn, t) := hlook
    exact hmiddle.before (hturn.grows_store hcont)

/-- What a pursuit decides of its expression on the store that it is in, it decides on larger ones. -/
theorem Pending.look_eq (h : Pending base pursuit s) (hu : s.Extends u) :
    pursuit.look config.lookupDepth u = (EvalPhase.look config.lookupDepth pursuit.expr pursuit.env s).1 := by
  obtain ⟨hexpr, henv, -⟩ : s.Holds pursuit.expr ∧ s.Holds pursuit.env ∧ _ := State.held_iff.1 h.held
  exact EvalPhase.look_within hu (reachable_sound h.reachable) hexpr henv _

/-- A value is handed to the node on top, which is found. -/
theorem Pending.middle_onto (h : Pending base pursuit s) (hbase : base.tag.isHalted = false)
    (hmiddle : (middle config (pursuit.on base) s).2.Settled u) (hv : pursuit.look config.lookupDepth u = .value v)
    (hstack : pursuit.stack = w :: stack) :
    middle config (pursuit.on base) s = (⟨⟨v, pursuit.env, w.onto (stackOn base stack)⟩, true⟩,
        (EvalPhase.look config.lookupDepth pursuit.expr pursuit.env s).2) ∧
      s.nodes[w.onto (stackOn base stack)]? = some (w.children (stackOn base stack)) := by
  have hgrows := (middle_moves config (reachable_sound h.reachable) h.held).1
  have hsettled := hmiddle.before hgrows
  rw [h.look_eq hsettled.extends_] at hv
  have hstacked := h.stacked
  rw [hstack] at hstacked
  rw [middle_eq config pursuit hbase s, hv, hstack]
  exact ⟨rfl, hsettled.faithful _ _ _ hstacked.1⟩

/-- What a node makes of a value that it is handed is in a store that is larger than the one the step leaves. -/
theorem turned_of_middle {st : State} {cont : Pointer} (hs : s.Sound) (hst : st.Held s)
    (hnode : s.nodes[w.onto cont]? = some (w.children cont))
    (hmiddle : (middle config st s).1 = ⟨⟨v, env, w.onto cont⟩, true⟩) (hnext : (next config st s).2.Settled u) :
    ContPhase.Turned u w v env := by
  obtain ⟨hgrows, hheld⟩ := middle_moves config hs hst
  have hvalue : middle config st s = (⟨⟨v, env, w.onto cont⟩, true⟩, (middle config st s).2) := Prod.ext hmiddle rfl
  rw [hmiddle] at hheld
  obtain ⟨hv, henv, -⟩ := State.held_iff.1 hheld
  have hfound := hgrows.extends_.node hnode
  obtain ⟨hw, hcont⟩ := Waiting.holds hgrows.sound hfound
  refine ⟨_, hgrows.sound, hw, hv, henv, ?_⟩
  rw [(next_onto hfound hvalue).1] at hnext
  have hturn := ContPhase.turn_inherits inherited_holds hgrows.sound hw hv henv
  exact hnext.before (hturn.grows_store hcont)

/-- What a step takes in is in a store that is larger than the one it leaves. -/
theorem Pending.stepped (h : Pending base pursuit s) (hbase : base.tag.isHalted = false)
    (hnext : (Machine.next config (pursuit.on base) s).2.Settled u) : pursuit.Stepped config.lookupDepth u := by
  have hs := reachable_sound h.reachable
  obtain ⟨hgrows, hheld⟩ := middle_moves config hs h.held
  have hmiddle := hnext.before (ContPhase.reduct_moves hgrows.sound hheld).1
  refine ⟨h.looked hbase hmiddle, fun v w stack hv hstack => ?_⟩
  obtain ⟨hvalue, hnode⟩ := h.middle_onto hbase hmiddle hv hstack
  exact turned_of_middle hs h.held hnode (congrArg Prod.fst hvalue) hnext

/-- A value that is handed to the outermost continuation is the result. -/
theorem next_outermost {st : State} (h : (middle config st s).1 = ⟨⟨v, env, .outermost⟩, true⟩) :
    next config st s = (⟨v, env, .terminal⟩, (middle config st s).2) ∧ report? config st s = none := by
  unfold next report?
  rw [h]
  exact ⟨rfl, rfl⟩

/-! ## Steps of both runs -/

/-- A pursuit on the outermost continuation. What its next steps take in, so many of them, is known, and is in a larger
store. -/
structure Underway (config : Config) (known : Set (List Int)) (u : Store) (n : ℕ) (pursuit : Pursuit) (s : Store) :
    Prop where
  pending : Pending .outermost pursuit s
  content : (after (steps config n (pursuit.on .outermost)) s).content ⊆ known
  extends_ : (after (steps config n (pursuit.on .outermost)) s).Extends u

namespace Underway

variable (h : Underway config known u (n + 1) pursuit s)
include h

theorem step_extends : (after (step config (pursuit.on .outermost)) s).Extends u :=
  (after_step_grows n h.pending.reachable h.pending.held).extends_.trans h.extends_

theorem step_known : (after (step config (pursuit.on .outermost)) s).content ⊆ known :=
  (content_step_subset n h.pending.reachable h.pending.held).trans h.content

theorem middle_known : Reachable (middle config (pursuit.on .outermost) s).2 ∧
    (middle config (pursuit.on .outermost) s).2.content ⊆ known := by
  obtain ⟨hgrows, hlater⟩ := middle_grows config h.pending.reachable h.pending.held
  exact ⟨hgrows.reachable h.pending.reachable, hlater.content_subset.trans h.step_known⟩

theorem middle_settled (hinjective : Set.InjOn Sponge.hash known) :
    (middle config (pursuit.on .outermost) s).2.Settled u :=
  ⟨(middle_grows config h.pending.reachable h.pending.held).2.extends_.trans h.step_extends,
    faithful_of_injOn hinjective h.middle_known.1 h.middle_known.2⟩

/-- What a step leads to. -/
theorem next (hinjective : Set.InjOn Sponge.hash known) :
    (∃ v env, pursuit.move config.lookupDepth u = .returns v env ∧
      (middle config (pursuit.on .outermost) s).1 = ⟨⟨v, env, .outermost⟩, true⟩) ∨
    (pursuit.move config.lookupDepth u).Leads .outermost (Machine.next config (pursuit.on .outermost) s).1
        (Machine.next config (pursuit.on .outermost) s).2 ∧
      report? config (pursuit.on .outermost) s = pursuit.report? config.lookupDepth u := by
  have hmiddle := h.middle_settled hinjective
  have hgrows := (middle_moves config (reachable_sound h.pending.reachable) h.pending.held).1
  exact h.pending.next rfl (hmiddle.before hgrows).faithful hmiddle.extends_

theorem returns (hinjective : Set.InjOn Sponge.hash known)
    (hmove : pursuit.move config.lookupDepth u = .returns v env) :
    (middle config (pursuit.on .outermost) s).1 = ⟨⟨v, env, .outermost⟩, true⟩ := by
  rcases h.next hinjective with ⟨v', env', hreturns, hmiddle⟩ | ⟨hleads, -⟩
  · cases hmove.symm.trans hreturns
    exact hmiddle
  · rw [hmove] at hleads
    cases hleads

theorem leads (hinjective : Set.InjOn Sponge.hash known)
    (hmove : ∀ v env, pursuit.move config.lookupDepth u ≠ .returns v env) :
    (pursuit.move config.lookupDepth u).Leads .outermost (Machine.next config (pursuit.on .outermost) s).1
      (Machine.next config (pursuit.on .outermost) s).2 := by
  rcases h.next hinjective with ⟨v, env, hreturns, -⟩ | ⟨hleads, -⟩
  · exact absurd hreturns (hmove v env)
  · exact hleads

theorem goes (hinjective : Set.InjOn Sponge.hash known) (hmove : pursuit.move config.lookupDepth u = .goes pursuit') :
    (Machine.next config (pursuit.on .outermost) s).1 = pursuit'.on .outermost ∧
      (Machine.next config (pursuit.on .outermost) s).2.Stacked .outermost pursuit'.stack := by
  have hleads := h.leads hinjective fun v env hreturns => by cases hmove.symm.trans hreturns
  rwa [hmove, Move.leads_goes_iff] at hleads

theorem stepped (hinjective : Set.InjOn Sponge.hash known) (hstep : step config (pursuit.on .outermost) s = .ok F t) :
    pursuit.Stepped config.lookupDepth u := by
  have hextends := h.step_extends
  have hknown := h.step_known
  have ht := (reachable_step h.pending.reachable h.pending.held hstep).1
  rw [(eq_ok_iff.1 hstep).2] at hextends hknown
  rw [(step_ok (reachable_sound h.pending.reachable) h.pending.held hstep).1] at hextends hknown ht
  exact h.pending.stepped rfl ⟨hextends, faithful_of_injOn hinjective ht hknown⟩

/-- A value that a step hands to the node on top. -/
theorem handing (hinjective : Set.InjOn Sponge.hash known) (hstep : step config (pursuit.on .outermost) s = .ok F t)
    (hv : pursuit.look config.lookupDepth u = .value v) (hstack : pursuit.stack = w :: stack) :
    F.returned = true ∧ F.intermediate = ⟨v, pursuit.env, w.onto (stackOn .outermost stack)⟩ ∧ t.Holds v ∧
      (∀ p ∈ [w.first, w.second, w.third], t.Holds p) ∧
      t.nodes[w.onto (stackOn .outermost stack)]? = some (w.children (stackOn .outermost stack)) := by
  have hs := reachable_sound h.pending.reachable
  obtain ⟨hgrows, hheld⟩ := middle_moves config hs h.pending.held
  obtain ⟨-, hlater⟩ := middle_grows config h.pending.reachable h.pending.held
  rw [(eq_ok_iff.1 hstep).2] at hlater
  obtain ⟨-, hfollows⟩ := step_ok hs h.pending.held hstep
  have hreturned := hfollows.returned
  have hintermediate := hfollows.intermediate
  obtain ⟨hvalue, hnode⟩ := h.pending.middle_onto rfl (h.middle_settled hinjective) hv hstack
  rw [hvalue] at hheld hreturned hintermediate hlater hgrows
  have hfound := (hgrows.trans hlater).extends_.node hnode
  exact ⟨hreturned, hintermediate, hlater.holds (State.held_iff.1 hheld).1, (Waiting.holds hlater.sound hfound).1,
    hfound⟩

/-- The pursuit that a step leads to. -/
theorem rest (hstep : step config (pursuit.on .outermost) s = .ok F t) (hF : F.output = pursuit'.on .outermost)
    (hstacked : t.Stacked .outermost pursuit'.stack) : Underway config known u n pursuit' t := by
  have hcontent := h.content
  have hextends := h.extends_
  obtain ⟨ht, hheld⟩ := reachable_step h.pending.reachable h.pending.held hstep
  rw [after_steps_of_ok n hstep, hF] at hcontent hextends
  rw [hF] at hheld
  exact ⟨⟨ht, hheld, hstacked⟩, hcontent, hextends⟩

end Underway

end Machine

open Machine

namespace Corresponds

variable {s s' t u : Store} {config : Config} {known : Set (List Int)} {pursuit pursuit' : Pursuit} {F : Frame}
  {f : Fork} {n n' : ℕ}

section
variable (hinjective : Set.InjOn Sponge.hash known) (hf : f.Fits u)
  (h : Corresponds u f pursuit pursuit') (hparting : ¬Parting config.lookupDepth u f pursuit pursuit')
  (hleft : Underway config known u (n + 1) pursuit s) (hright : Underway config known u (n' + 1) pursuit' s')
  (hstep : step config (pursuit.on .outermost) s = .ok F t)
include hinjective hf h hparting hleft hright hstep

section
variable (hgoes : ∀ env code, pursuit.move config.lookupDepth u ≠ .stops env code)
include hgoes

/-- If the second run reports a value, it can be written, since the first run reports one that it corresponds to. -/
theorem writes {v' : Pointer} (hreport' : report? config (pursuit'.on .outermost) s' = some v') :
    ∃ text, (middle config (pursuit'.on .outermost) s').2.render v' = .ok text := by
  have hs := reachable_sound hleft.pending.reachable
  have hs' := reachable_sound hright.pending.reachable
  have hmiddle := hleft.middle_settled hinjective
  have hmiddle' := hright.middle_settled hinjective
  have hreported' : pursuit'.report? config.lookupDepth u = some v' := by
    rcases hright.next hinjective with ⟨r, env, -, hreturns⟩ | ⟨-, hreported⟩
    · rw [(next_outermost hreturns).2] at hreport'
      cases hreport'
    · rw [← hreported, hreport']
  obtain ⟨v, hreported, hv⟩ := h.reports hf hparting hgoes (hleft.pending.looked rfl hmiddle)
    (hright.pending.looked rfl hmiddle') hreported'
  have hreport : report? config (pursuit.on .outermost) s = some v := by
    rcases hleft.next hinjective with ⟨r, env, hreturns, -⟩ | ⟨-, hagrees⟩
    · rw [Pursuit.silent_of_returns hreturns] at hreported
      cases hreported
    · rw [hagrees, hreported]
  have hvHeld : (middle config (pursuit.on .outermost) s).2.Holds v := by
    rw [(report?_eq_some hreport).2]
    exact (State.held_iff.1 (middle_moves config hs hleft.pending.held).2).1
  have hvHeld' : (middle config (pursuit'.on .outermost) s').2.Holds v' := by
    rw [(report?_eq_some hreport').2]
    exact (State.held_iff.1 (middle_moves config hs' hright.pending.held).2).1
  cases hrender : (middle config (pursuit.on .outermost) s).2.render v with
  | error fault =>
    cases hstep.symm.trans (step_unwritten config hs hleft.pending.held hreport hrender)
  | ok text =>
    exact hv.renders hinjective hleft.middle_known.1 hright.middle_known.1 hleft.middle_known.2 hright.middle_known.2
      hmiddle.extends_ hmiddle'.extends_ hvHeld hvHeld' hrender

/-- If the first run takes a step, the second one takes one. -/
theorem succeeds :
    ∃ F', step config (pursuit'.on .outermost) s' = .ok F' (next config (pursuit'.on .outermost) s').2 ∧
      F'.output = (next config (pursuit'.on .outermost) s').1 := by
  have hs' := reachable_sound hright.pending.reachable
  cases hreport' : report? config (pursuit'.on .outermost) s' with
  | none =>
    obtain ⟨F', hstep', hfollows⟩ := step_silent config hs' hright.pending.held hreport'
    exact ⟨F', hstep', hfollows.output⟩
  | some v' =>
    obtain ⟨text, htext⟩ := h.writes hinjective hf hparting hleft hright hstep hgoes hreport'
    obtain ⟨F', hstep', hfollows⟩ := step_written config hs' hright.pending.held hreport' htext
    exact ⟨F', hstep', hfollows.output⟩

end

/-- A step of the first run that does not fail: both runs hand on values that correspond, or go on alike. -/
theorem step (hmoves : F.output.isFailed = false) :
    (∃ v v' env env' F' t', Counterpart u f .value v v' ∧ F.output = ⟨v, env, .terminal⟩ ∧
      Machine.step config (pursuit'.on .outermost) s' = .ok F' t' ∧ F'.output = ⟨v', env', .terminal⟩) ∨
    ∃ next next' F' t', F.output = next.on .outermost ∧
      Machine.step config (pursuit'.on .outermost) s' = .ok F' t' ∧ F'.output = next'.on .outermost ∧
      Underway config known u n next t ∧ Underway config known u n' next' t' ∧ Corresponds u f next next' := by
  have hs := reachable_sound hleft.pending.reachable
  obtain ⟨rfl, hfollows⟩ := step_ok hs hleft.pending.held hstep
  have houtput := hfollows.output
  have hgoes : ∀ env code, pursuit.move config.lookupDepth u ≠ .stops env code := by
    intro env code hstops
    have hleads := hleft.leads hinjective fun v env hreturns => by cases hstops.symm.trans hreturns
    rw [hstops, Move.leads_stops_iff] at hleads
    rw [houtput, hleads] at hmoves
    cases hmoves
  obtain ⟨F', hstep', houtput'⟩ := h.succeeds hinjective hf hparting hleft hright hstep hgoes
  have hstepped := hleft.stepped hinjective hstep
  have hstepped' := hright.stepped hinjective hstep'
  rcases h.move hf hparting hgoes hstepped hstepped' with
    ⟨v, v', env, env', hmove, hmove', hv⟩ | ⟨next, next', hmove, hmove', hcorresponds⟩
  · rw [(next_outermost (hleft.returns hinjective hmove)).1] at houtput
    rw [(next_outermost (hright.returns hinjective hmove')).1] at houtput'
    exact .inl ⟨v, v', env, env', F', _, hv, houtput, hstep', houtput'⟩
  · obtain ⟨hnext, hstacked⟩ := hleft.goes hinjective hmove
    obtain ⟨hnext', hstacked'⟩ := hright.goes hinjective hmove'
    rw [hnext] at houtput
    rw [hnext'] at houtput'
    exact .inr ⟨next, next', F', _, houtput, hstep', houtput', hleft.rest hstep houtput hstacked,
      hright.rest hstep' houtput' hstacked', hcorresponds⟩

end

end Corresponds

/-! ## Runs that part -/

/-- What strays in a larger store strays where the environments are. -/
theorem Fork.Strays.before {r u : Store} {f : Fork} {depth : ℕ} {sought env : Pointer}
    (h : f.Strays u depth sought env) (hu : r.Extends u) (hr : r.Sound) (henv : r.Holds env) (hplain : r.Holds f.plain)
    (hvalue : r.Holds f.value) : f.Strays r depth sought env := by
  have harity : f.value.tag.arity? = some 3 := by rw [h.function]; rfl
  have hscope : r.Holds (r.part f.value 2) := hr.holds_part harity hvalue 2
  have hpart := hu.part_eq hr harity hvalue
  obtain ⟨hfunction, hleads, hdiffers⟩ := h
  rw [hpart] at hleads hdiffers
  rw [lookup_within hu hr _ _ hscope, lookup_within hu hr _ _ hplain] at hdiffers
  exact ⟨hfunction, hleads.before hu hr henv, hdiffers⟩

namespace Machine

/-- A frame compares two operands. -/
structure Compares (F : Frame) (r : Store) (a b : Pointer) : Prop where
  returned : F.returned = true
  tag : F.intermediate.cont.tag = .binary2
  operator : binaryOf? (r.part F.intermediate.cont 0) = some .same
  first : r.part F.intermediate.cont 1 = a
  second : F.intermediate.expr = b

/-- How two runs part after the first one has bound a symbol plainly, and the second one recursively. -/
inductive Parts (config : Config) (r : Store) (f : Fork) (st' : State) (s' : Store) (frames : List Frame) : Prop
  /-- Both runs look up a symbol that has another value in the environment of the function than in the one of the
  binding. The search of the first run comes to the former, that of the second run to the latter instead. -/
  | strays (passed others : List Frame) {rest : List Frame} {F : Frame} {st : State} {r' : Store}
      (hframes : frames = passed ++ F :: rest) (hran : RanTo config st' s' others st r')
      (hlength : others.length = passed.length) (hvariable : r.expression F.input.expr = .variable)
      (hsame : st.expr = F.input.expr) (hstrays : f.Strays r config.lookupDepth F.input.expr F.input.env)
      (hleads : r'.Leads F.input.expr st.env f.recursive)
  /-- The second run fails in a lookup that exceeds its bound. -/
  | exceeds {frames' : List Frame} {env : Pointer} {r' : Store} (hfunction : f.value.tag = .function)
      (hran : RanTo config st' s' frames' (.fail env .depthExceeded) r') (hlength : frames'.length ≤ frames.length)
  /-- Both runs compare two operands in which functions stand, and they are the same in one run only. -/
  | compares (passed others : List Frame) {rest : List Frame} {F F' : Frame} {a b a' b' : Pointer} {r' : Store}
      (hframes : frames = passed ++ F :: rest) (hran : RanTo config st' s' (others ++ [F']) F'.output r')
      (hlength : others.length = passed.length) (hcompares : Compares F r a b) (hcompares' : Compares F' r' a' b')
      (hcarries : r.Carries a ∧ r.Carries b) (hdiffers : (a' == b') ≠ (a == b))

variable {s s' t t' r u : Store} {config : Config} {known : Set (List Int)} {pursuit pursuit' : Pursuit} {F F' : Frame}
  {frames : List Frame} {f : Fork} {st st' : State} {n n' : ℕ}

/-- Runs that part after a step part. -/
theorem Parts.cons (F : Frame) (hran : RanTo config st' s' [F'] st t') (h : Parts config r f st t' frames) :
    Parts config r f st' s' (F :: frames) := by
  cases h with
  | strays passed others hframes hrest hlength hvariable hsame hstrays hleads =>
    rw [hframes]
    exact .strays (F :: passed) (F' :: others) rfl (hran.trans hrest) (congrArg (· + 1) hlength) hvariable hsame
      hstrays hleads
  | exceeds hfunction hrest hlength => exact .exceeds hfunction (hran.trans hrest) (Nat.succ_le_succ hlength)
  | @compares passed others _ G G' _ _ _ _ _ hframes hrest hlength hcompares hcompares' hcarries hdiffers =>
    rw [hframes]
    exact .compares (F :: passed) (F' :: others) rfl (hran.trans hrest)
      (congrArg (· + 1) hlength) hcompares hcompares' hcarries hdiffers

section
variable (hinjective : Set.InjOn Sponge.hash known) (hright : Underway config known u (n' + 1) pursuit' s')
include hinjective hright

/-- A step that reports nothing and hands nothing to the outermost continuation is taken. -/
theorem Underway.silent (hreport : pursuit'.report? config.lookupDepth u = none) :
    ∃ F', step config (pursuit'.on .outermost) s' = .ok F' (Machine.next config (pursuit'.on .outermost) s').2 ∧
      F'.output = (Machine.next config (pursuit'.on .outermost) s').1 := by
  have hsilent : report? config (pursuit'.on .outermost) s' = none := by
    rcases hright.next hinjective with ⟨v, env, -, hreturns⟩ | ⟨-, hreported⟩
    · exact (next_outermost hreturns).2
    · rw [hreported, hreport]
  obtain ⟨F', hstep', hfollows⟩ :=
    step_silent config (reachable_sound hright.pending.reachable) hright.pending.held hsilent
  exact ⟨F', hstep', hfollows.output⟩

/-- A lookup that exceeds its bound fails. -/
theorem Underway.exceeds (hvariable : u.expression pursuit'.expr = .variable)
    (hbeyond : u.search pursuit'.expr config.lookupDepth pursuit'.env = .beyond) :
    ∃ F' t', RanTo config (pursuit'.on .outermost) s' [F'] (.fail pursuit'.env .depthExceeded) t' := by
  have hlook : (EvalPhase.look config.lookupDepth pursuit'.expr pursuit'.env u).1 =
      .turn (.stop pursuit'.env .depthExceeded) := by
    simp only [EvalPhase.look, hvariable, Store.lookup, hbeyond, EvalPhase.found]
  have hmove : pursuit'.move config.lookupDepth u = .stops pursuit'.env .depthExceeded := by
    rw [Pursuit.move, hlook]
    rfl
  obtain ⟨F', hstep', houtput⟩ := hright.silent hinjective (by rw [Pursuit.report?, hlook])
  have hleads := hright.leads hinjective fun v env hreturns => by cases hmove.symm.trans hreturns
  rw [hmove, Move.leads_stops_iff] at hleads
  have hran := RanTo.step hstep'
  rw [houtput, hleads] at hran
  exact ⟨F', _, hran⟩

/-- A step that compares two operands is a frame that does. -/
theorem Underway.compares {w : Waiting} {stack : List Waiting} {v : Pointer}
    (hstep : step config (pursuit'.on .outermost) s' = .ok F' t')
    (hcompares : pursuit'.Compares config.lookupDepth u w stack v) (hr : t'.Grows r) :
    Compares F' r w.second v ∧ r.Holds w.second ∧ r.Holds v := by
  obtain ⟨hlook, hstack, htag, hoperator⟩ := hcompares
  obtain ⟨hreturned, hintermediate, hv, hw, hnode⟩ := hright.handing hinjective hstep hlook hstack
  have hpart := part_of_node (hr.extends_.node hnode)
  refine ⟨⟨hreturned, ?_, ?_, ?_, ?_⟩, hr.holds (hw w.second (by simp)), hr.holds hv⟩
  · rw [hintermediate]
    exact htag
  · rw [hintermediate, hpart]
    exact hoperator
  · rw [hintermediate, hpart]
    rfl
  · rw [hintermediate]

variable (hleft : Underway config known u (n + 1) pursuit s)
  (hstep : step config (pursuit.on .outermost) s = .ok F t) (hr : t.Grows r) (hu : r.Extends u) (hf : f.Fits u)
  (hplain : r.Holds f.plain)
include hleft hstep hr hu hf hplain

/-- Steps that tell the bindings apart are frames that do. -/
theorem Parts.of_parting (hparting : Parting config.lookupDepth u f pursuit pursuit') :
    Parts config r f (pursuit'.on .outermost) s' (F :: frames) := by
  have hinput := input_of_step hstep
  have hgrows := ((RanTo.step hstep).grows hleft.pending.reachable hleft.pending.held).trans hr
  obtain ⟨hexpr, henv, -⟩ : s.Holds pursuit.expr ∧ s.Holds pursuit.env ∧ _ := State.held_iff.1 hleft.pending.held
  cases hparting with
  | strays hvariable hsame hstrays hleads =>
    have hvalue : r.Holds f.value := by
      have hpart : u.part f.plain 1 = f.value := hf.plain.part 1
      have hheld := hgrows.sound.holds_part rfl hplain 1
      rwa [← hu.part_eq hgrows.sound rfl hplain, hpart] at hheld
    rw [expression_within hu hgrows.sound (hgrows.holds hexpr)] at hvariable
    have hs' := hright.pending.reachable
    obtain ⟨-, henv', -⟩ : _ ∧ s'.Holds pursuit'.env ∧ _ := State.held_iff.1 hright.pending.held
    have hu' := (grows_after_steps config (n' + 1) hs' hright.pending.held).1.extends_.trans hright.extends_
    have hbefore := hstrays.before hu hgrows.sound (hgrows.holds henv) hplain hvalue
    have hleads' := hleads.before hu' (reachable_sound hs') henv'
    have hsought : pursuit.expr = F.input.expr := congrArg State.expr hinput.symm
    have hscope : pursuit.env = F.input.env := congrArg State.env hinput.symm
    rw [hsought] at hvariable hsame hbefore hleads'
    rw [hscope] at hbefore
    exact .strays [] [] rfl (.nil config _ s') rfl hvariable hsame hbefore hleads'
  | exceeds hfunction hvariable hbeyond =>
    obtain ⟨F', t', hran'⟩ := hright.exceeds hinjective hvariable hbeyond
    exact .exceeds hfunction hran' (by simp)
  | @compares v v' w w' _ _ hcompares hcompares' hcarries hdiffers =>
    have hquiet : w'.report? v' = none := Waiting.silent (by rw [hcompares'.tag]; decide) v'
    have hreport : pursuit'.report? config.lookupDepth u = none := by
      rw [Pursuit.report?, ← Pursuit.look, hcompares'.look, hcompares'.stack]
      exact hquiet
    obtain ⟨F', hstep', -⟩ := hright.silent hinjective hreport
    obtain ⟨ht', -⟩ := reachable_step hright.pending.reachable hright.pending.held hstep'
    obtain ⟨hframe, hsecond, hv⟩ := hleft.compares hinjective hstep hcompares hr
    obtain ⟨hframe', -, -⟩ := hright.compares hinjective hstep' hcompares' (.refl (reachable_sound ht'))
    exact .compares [] [] rfl (.step hstep') rfl hframe hframe'
      ⟨carries_within hu hgrows.sound hsecond hcarries.1, carries_within hu hgrows.sound hv hcarries.2⟩ hdiffers

end

end Machine

/-- If the first run comes to a number, the second one comes to it in as many steps at most, or they part. -/
theorem Corresponds.completes {s s' r u : Store} {config : Config} {known : Set (List Int)} {pursuit pursuit' : Pursuit}
    {frames : List Frame} {f : Fork} {final : State} (hinjective : Set.InjOn Sponge.hash known)
    (hf : f.Fits u) (hu : r.Extends u) (hplain : r.Holds f.plain) (h : Corresponds u f pursuit pursuit')
    (hleft : Underway config known u frames.length pursuit s)
    (hright : Underway config known u frames.length pursuit' s')
    (hran : RanTo config (pursuit.on .outermost) s frames final r) (hfinal : final.cont.tag = .terminal)
    (hnumber : final.expr.tag = .number) :
    (∃ frames' env t', frames'.length ≤ frames.length ∧ (∀ F ∈ frames', F.input.isHalted = false) ∧
      RanTo config (pursuit'.on .outermost) s' frames' ⟨final.expr, env, .terminal⟩ t') ∨
    Parts config r f (pursuit'.on .outermost) s' frames := by
  induction frames generalizing pursuit pursuit' s s' with
  | nil =>
    obtain ⟨-, hsame⟩ := hran
    have hmoving : (stackOn .outermost pursuit.stack).tag.isHalted = false := stackOn_not_halted rfl _
    have hcont : (stackOn .outermost pursuit.stack).tag = .terminal := by rw [← hfinal, ← hsame]; rfl
    rw [hcont] at hmoving
    cases hmoving
  | cons F frames ih =>
    obtain ⟨hall, hlast⟩ := hran
    rw [finalState_cons] at hlast
    cases hall with
    | @cons _ _ t _ _ _ hstep hrest =>
    obtain ⟨ht, hheld⟩ := reachable_step hleft.pending.reachable hleft.pending.held hstep
    have hgrows := RanTo.grows ⟨hrest, hlast⟩ ht hheld
    by_cases hparting : Parting config.lookupDepth u f pursuit pursuit'
    · exact .inr (.of_parting hinjective hright hleft hstep hgrows hu hf hplain hparting)
    have hmoving {F' : Frame} {t' : Store} (hstep' : Machine.step config (pursuit'.on .outermost) s' = .ok F' t') :
        F'.input.isHalted = false := by
      rw [input_of_step hstep']
      exact stackOn_not_halted rfl _
    have hmoves : F.output.isFailed = false := by
      rw [Bool.eq_false_iff]
      intro hfailed
      have htag : F.output.cont.tag = .failed := beq_iff_eq.1 hfailed
      have hrested := hrest.final_of_halted ht hheld (by rw [State.isHalted, htag]; rfl)
      rw [← hrested, hlast, hfinal] at htag
      cases htag
    rcases h.step hinjective hf hparting hleft hright hstep hmoves with
      ⟨v, v', env, env', F', t', hv, hF, hstep', hF'⟩ |
        ⟨next, next', F', t', hF, hstep', hF', hleft', hright', hcorresponds⟩
    · have hrested := hrest.final_of_halted ht hheld (by rw [hF]; rfl)
      rw [hlast, hF] at hrested
      rw [hrested] at hnumber ⊢
      have hsame := hv.eq_of_leaf (by rw [hnumber]; rfl)
      rw [hsame] at hF'
      have hran' := RanTo.step hstep'
      rw [hF'] at hran'
      exact .inl ⟨[F'], env', t', by simp, List.forall_mem_singleton.2 (hmoving hstep'), hran'⟩
    · have hran' := RanTo.step hstep'
      rw [hF'] at hran'
      rw [hF] at hrest hlast
      rcases ih hcorresponds hleft' hright' ⟨hrest, hlast⟩ with
        ⟨others, env, u', hlength, hmoves, hothers⟩ | hparts
      · exact .inl ⟨F' :: others, env, u', Nat.succ_le_succ hlength,
          List.forall_mem_cons.2 ⟨hmoving hstep', hmoves⟩, hran'.trans hothers⟩
      · exact .inr (hparts.cons F hran')

end FieldLisp
