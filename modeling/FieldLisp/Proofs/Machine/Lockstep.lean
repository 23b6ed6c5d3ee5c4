import FieldLisp.Proofs.Machine.Pairs
import FieldLisp.Proofs.Machine.Pursuits
import FieldLisp.Proofs.Machine.Reaching

/-!
# Runs in lockstep

Two runs that begin with one pursuit, each on its own continuation and store, take the same steps, until both
hand the same value to their continuations, both stop with the same error value, or both raise the same
exception. So it is as long as nothing collides that they take in.

* `Machine.RanTo`, `Machine.Apart`: where frames lead, and that nothing collides in so many frames;
* `Machine.Abreast`, `Machine.Departs`: two runs with one pursuit, and how they leave it;
* `Machine.Abreast.step`, `Machine.Abreast.advance`: one step, and any number of them;
* `Machine.InStep.stays_or_departs`: two runs keep one pursuit for so many frames, or leave it together before;
* `Machine.InStep.captured_or_departs`: they keep it until something collides, or leave it together before;
* `Machine.InStep.hands`: both hand a value to the node on top of their continuations.
-/

namespace FieldLisp

variable {s s' t t' : Store} {config : Config}

namespace Store

theorem Grows.content_subset (h : s.Grows t) : s.content ⊆ t.content := by
  rintro xs (⟨tag, cs, p, hp, rfl⟩ | ⟨p, name, hp, rfl⟩)
  · exact mem_content_of_interned (h.interned hp)
  · exact mem_content_of_name (h.name hp)

/-- Without collisions a store is faithful. -/
theorem faithful_of_injOn {known : Set (List Int)} (hinjective : Set.InjOn Sponge.hash known)
    (hs : Reachable s) (hknown : s.content ⊆ known) : s.Faithful :=
  fun _ _ _ h => ((interned_iff_node hs (hinjective.mono hknown)).1 h).2

section
variable {known : Set (List Int)} (hinjective : Set.InjOn Sponge.hash known)
  (hs : Reachable s) (ht : Reachable t) (hsknown : s.content ⊆ known) (htknown : t.content ⊆ known)
include hinjective hs ht hsknown htknown

/-- Without collisions some store has the nodes of both. -/
theorem exists_common : ∃ u : Store, s.Extends u ∧ t.Extends u := by
  refine ⟨{ s with nodes := s.nodes ∪ t.nodes, names := s.names ∪ t.names }, ⟨?_, ?_⟩, ⟨?_, ?_⟩⟩
  · intro p cs hcs
    rw [Std.HashMap.getElem?_union, hcs]
    cases hds : t.nodes[p]? with
    | none => rfl
    | some ds => rw [node_unique hinjective hs ht hsknown htknown hcs hds]; rfl
  · intro p hp
    rw [Std.HashMap.contains_union, hp, Bool.true_or]
  · intro p ds hds
    rw [Std.HashMap.getElem?_union, hds]
    rfl
  · intro p hp
    rw [Std.HashMap.contains_union, hp, Bool.or_true]

/-- Without collisions both write the same for what is in both. -/
theorem render_agrees {p : Pointer} (hp : s.Holds p) (hp' : t.Holds p) : s.render p = t.render p := by
  obtain ⟨level, level', htwins⟩ := exists_twins hinjective hs ht hsknown htknown
  have hbounded := htwins.leveled.bounded p
  have hbounded' := htwins.leveled'.bounded p
  exact (htwins.renderWithin_eq _).1 _ p hp hp' (by omega) (by omega)

end

end Store

open Store

namespace Machine

variable {st st' : State} {frames frames' : List Frame} {base base' expr env v : Pointer}
  {pursuit pursuit' : Pursuit} {w : Waiting} {u : Store}

/-! ## Where frames lead -/

/-- Frames that lead from a state on a store to another state on another store. -/
structure RanTo (config : Config) (st : State) (s : Store) (frames : List Frame) (st' : State) (t : Store) :
    Prop where
  ran : Ran config st s frames t
  final : finalState st frames = st'

namespace RanTo

theorem nil (config : Config) (st : State) (s : Store) : RanTo config st s [] st s := ⟨.nil st s, rfl⟩

theorem step {F : Frame} (h : Machine.step config st s = .ok F t) : RanTo config st s [F] F.output t :=
  ⟨.cons h (.nil _ _), rfl⟩

theorem single {F : Frame} (h : RanTo config st s [F] st' t) : Machine.step config st s = .ok F t := by
  obtain ⟨hran, -⟩ := h
  cases hran with
  | cons hstep hrest =>
    cases hrest
    exact hstep

theorem trans {st'' : State} {u : Store} (h : RanTo config st s frames st' t)
    (h' : RanTo config st' t frames' st'' u) : RanTo config st s (frames ++ frames') st'' u := by
  obtain ⟨hran, rfl⟩ := h
  obtain ⟨hran', rfl⟩ := h'
  exact ⟨hran.append hran', finalState_append _ _ _⟩

theorem reachable (h : RanTo config st s frames st' t) (hs : Reachable s) (hst : st.Held s) :
    Reachable t ∧ st'.Held t := by
  obtain ⟨hran, rfl⟩ := h
  exact hran.reachable hs hst

/-- What a run takes in after some frames it takes in. -/
theorem after_steps (h : RanTo config st s frames st' t) (n : ℕ) :
    after (steps config (frames.length + n) st) s = after (steps config n st') t := by
  obtain ⟨hran, rfl⟩ := h
  induction hran with
  | nil => rw [List.length_nil, Nat.zero_add]; rfl
  | cons hstep _ ih =>
    rw [List.length_cons, Nat.add_right_comm, after_steps_of_ok _ hstep, ih, finalState_cons]

/-- A run raises what is raised after some frames of it. -/
theorem raises (h : RanTo config st s frames st' t) {n : ℕ} {fault : Fault} {u : Store}
    (hsteps : steps config n st' t = .error fault u) :
    steps config (frames.length + n) st s = .error fault u := by
  obtain ⟨hran, rfl⟩ := h
  induction hran with
  | nil => rw [List.length_nil, Nat.zero_add]; exact hsteps
  | cons hfirst _ ih =>
    rw [finalState_cons] at hsteps
    rw [List.length_cons, Nat.add_right_comm, steps, EStateM.bind_of_ok hfirst]
    exact EStateM.bind_of_error (ih hsteps) _

end RanTo

/-- The frames of the second run are so many more, and report the same. -/
structure Matched (lag : ℕ) (frames frames' : List Frame) : Prop where
  length : frames'.length = frames.length + lag
  emitted : frames'.flatMap Frame.emitted = frames.flatMap Frame.emitted

theorem Matched.append {lag lag' : ℕ} {others others' : List Frame} (h : Matched lag frames frames')
    (h' : Matched lag' others others') : Matched (lag + lag') (frames ++ others) (frames' ++ others') := by
  constructor
  · rw [List.length_append, List.length_append, h.length, h'.length]
    omega
  · rw [List.flatMap_append, List.flatMap_append, h.emitted, h'.emitted]

theorem content_after_steps_mono {m n : ℕ} (hmn : m ≤ n) (hs : Reachable s) (hst : st.Held s) :
    (after (steps config m st) s).content ⊆ (after (steps config n st) s).content :=
  (after_steps_mono hmn hs hst).content_subset

/-- What frames take in is taken in by so many steps. -/
theorem RanTo.content_subset {n : ℕ} (h : RanTo config st s frames st' t) (hs : Reachable s) (hst : st.Held s)
    (hle : frames.length ≤ n) : t.content ⊆ (after (steps config n st) s).content := by
  obtain ⟨m, rfl⟩ := Nat.exists_eq_add_of_le hle
  obtain ⟨ht, hheld⟩ := h.reachable hs hst
  rw [h.after_steps]
  exact content_after_steps_mono (Nat.zero_le m) ht hheld

/-- Nothing collides that two runs take in, the first one in so many steps, the second one in some more. -/
def Apart (config : Config) (lag n : ℕ) (st : State) (s : Store) (st' : State) (s' : Store) : Prop :=
  Set.InjOn Sponge.hash
    ((after (steps config n st) s).content ∪ (after (steps config (n + lag) st') s').content)

namespace Apart

variable {lag m n : ℕ} {st₁ st₂ : State}

/-- Fewer steps take in less. -/
theorem mono (h : Apart config lag n st s st' s') (hmn : m ≤ n) (hs : Reachable s) (hst : st.Held s)
    (hs' : Reachable s') (hst' : st'.Held s') : Apart config lag m st s st' s' := by
  apply Set.InjOn.mono _ h
  apply Set.union_subset_union
  · exact content_after_steps_mono hmn hs hst
  · exact content_after_steps_mono (Nat.add_le_add_right hmn lag) hs' hst'

/-- Nothing that is taken in later collides, in the steps that are left. -/
theorem later (h : Apart config lag n st s st' s') (hran : RanTo config st s frames st₁ t)
    (hran' : RanTo config st' s' frames' st₂ t') (hn : frames.length + m = n)
    (hlag : frames'.length = frames.length + lag) : Apart config 0 m st₁ t st₂ t' := by
  have hn' : n + lag = frames'.length + m := by omega
  unfold Apart at h
  rw [hn', ← hn, hran.after_steps, hran'.after_steps] at h
  exact h

/-- The stores that both runs have come to are faithful. -/
theorem faithful (h : Apart config 0 n st s st' s') (hs : Reachable s) (hst : st.Held s) (hs' : Reachable s')
    (hst' : st'.Held s') : s.Faithful ∧ s'.Faithful := by
  have hhere := (RanTo.nil config st s).content_subset hs hst (Nat.zero_le n)
  have hhere' := (RanTo.nil config st' s').content_subset hs' hst' (Nat.zero_le (n + 0))
  exact ⟨faithful_of_injOn h hs (hhere.trans Set.subset_union_left),
    faithful_of_injOn h hs' (hhere'.trans Set.subset_union_right)⟩

end Apart

/-! ## One step of a pursuit -/

theorem RanTo.grows (h : RanTo config st s frames st' t) (hs : Reachable s) (hst : st.Held s) : s.Grows t := by
  have hsteps := h.ran.steps_eq
  have hgrows := (grows_after_steps config frames.length hs hst).1
  rwa [(eq_ok_iff.1 hsteps).2] at hgrows

theorem Pending.grows (h : Pending base pursuit s) (hran : RanTo config (pursuit.on base) s frames st t) :
    s.Grows t := hran.grows h.reachable h.held

/-- What is pursued on a continuation is pursued on what the continuation leads to. -/
theorem Pending.above {stack : List Waiting} (h : Pending base ⟨expr, env, stack⟩ s) :
    Pending (stackOn base stack) ⟨expr, env, []⟩ s := ⟨h.reachable, h.held, trivial⟩

/-- A step that reports nothing and leads to a pursuit. -/
theorem Pending.goes (config : Config) (h : Pending base pursuit s)
    (hleads : (Move.goes pursuit').Leads base (Machine.next config (pursuit.on base) s).1
      (Machine.next config (pursuit.on base) s).2)
    (hsilent : report? config (pursuit.on base) s = none) :
    ∃ F t, F.emitted = [] ∧ RanTo config (pursuit.on base) s [F] (pursuit'.on base) t ∧ Pending base pursuit' t := by
  rw [Move.leads_goes_iff] at hleads
  obtain ⟨hnext, hstacked⟩ := hleads
  obtain ⟨F, hstep, hfollows⟩ := step_silent config (reachable_sound h.reachable) h.held hsilent
  obtain ⟨ht, hheld⟩ := reachable_step h.reachable h.held hstep
  have houtput : F.output = pursuit'.on base := hfollows.output.trans hnext
  have hemitted := hfollows.emitted
  have hran := RanTo.step hstep
  rw [houtput] at hran hheld
  rw [hsilent] at hemitted
  exact ⟨F, _, hemitted, hran, ht, hheld, hstacked⟩

/-- A step that looks at an expression and waits for the value of another one. It reads no node of the continuation. -/
theorem Pending.waits (config : Config) (h : Pending base pursuit s) (hbase : base.tag.isHalted = false)
    (hlook : (EvalPhase.look config.lookupDepth pursuit.expr pursuit.env s).1 = .turn (.wait expr env w)) :
    ∃ F t, F.emitted = [] ∧ RanTo config (pursuit.on base) s [F] (Pursuit.on ⟨expr, env, w :: pursuit.stack⟩ base) t ∧
      Pending base ⟨expr, env, w :: pursuit.stack⟩ t := by
  have hs := reachable_sound h.reachable
  obtain ⟨hexpr, henv, -⟩ : s.Holds pursuit.expr ∧ s.Holds pursuit.env ∧ _ := State.held_iff.1 h.held
  have hgrows := (middle_moves config hs h.held).1
  have hlater := EvalPhase.look_within hgrows.extends_ hs hexpr henv config.lookupDepth
  rw [hlook] at hlater
  obtain ⟨hleads, hreported⟩ := h.turns hbase (.refl _) hlook
  apply h.goes config
  · rw [Pursuit.move, hlater] at hleads
    exact hleads
  · rw [hreported, Pursuit.report?, hlater]

/-- A step that hands a value to a node goes on as the node says. -/
theorem Pending.hands (h : Pending (w.onto base) pursuit s)
    (hnode : s.nodes[w.onto base]? = some (w.children base))
    (hmiddle : (middle config (pursuit.on (w.onto base)) s).1 = ⟨⟨v, env, w.onto base⟩, true⟩)
    (hu : (middle config (pursuit.on (w.onto base)) s).2.Extends u) (hreport : w.report? v = none) :
    ∃ F t, step config (pursuit.on (w.onto base)) s = .ok F t ∧ F.emitted = [] ∧ F.returned = true ∧
      F.intermediate = ⟨v, env, w.onto base⟩ ∧ ((ContPhase.turn w v env u).1.move []).Leads base F.output t ∧
      (middle config (pursuit.on (w.onto base)) s).2.Grows t := by
  have hs := reachable_sound h.reachable
  obtain ⟨hgrows, hheld⟩ := middle_moves config hs h.held
  have hfull : middle config (pursuit.on (w.onto base)) s =
      (⟨⟨v, env, w.onto base⟩, true⟩, (middle config (pursuit.on (w.onto base)) s).2) := Prod.ext hmiddle rfl
  generalize (middle config (pursuit.on (w.onto base)) s).2 = m at hgrows hheld hu hfull
  rw [hmiddle] at hheld
  obtain ⟨hv, henv, -⟩ : m.Holds v ∧ m.Holds env ∧ _ := State.held_iff.1 hheld
  have hfound := hgrows.extends_.node hnode
  obtain ⟨hw, hbase⟩ := Waiting.holds hgrows.sound hfound
  obtain ⟨hnext, hreported⟩ := next_onto hfound hfull
  obtain ⟨F, hstep, hfollows⟩ := step_silent config hs h.held (hreported.trans hreport)
  have hinherits := ContPhase.turn_inherits inherited_holds hgrows.sound hw hv henv
  have hleads := Turn.leads base [] hinherits hbase trivial
  have hput := (Turn.inherits_state inherited_holds hinherits hbase).1
  have hemitted := hfollows.emitted
  rw [hreported, hreport] at hemitted
  have hintermediate := hfollows.intermediate
  have hreturned := hfollows.returned
  rw [hfull] at hintermediate hreturned
  have houtput := hfollows.output
  rw [hnext] at hstep houtput
  refine ⟨F, _, hstep, hemitted, hreturned, hintermediate, ?_, hput⟩
  rw [houtput, ContPhase.turn_within hu hgrows.sound hw hv env]
  exact hleads

/-! ## One pursuit on two continuations -/

/-- A pursuit on two continuations, each on its own store. -/
structure Abreast (base base' : Pointer) (pursuit : Pursuit) (s s' : Store) : Prop where
  left : Pending base pursuit s
  right : Pending base' pursuit s'

/-- Two runs that have come to one pursuit on two continuations, the second one so many frames later. -/
structure InStep (config : Config) (lag : ℕ) (st : State) (s : Store) (st' : State) (s' : Store)
    (frames frames' : List Frame) (base base' : Pointer) (pursuit : Pursuit) (t t' : Store) : Prop where
  left : RanTo config st s frames (pursuit.on base) t
  right : RanTo config st' s' frames' (pursuit.on base') t'
  matched : Matched lag frames frames'
  abreast : Abreast base base' pursuit t t'

theorem Abreast.inStep (h : Abreast base base' pursuit s s') :
    InStep config 0 (pursuit.on base) s (pursuit.on base') s' [] [] base base' pursuit s s' :=
  ⟨.nil _ _ _, .nil _ _ _, ⟨rfl, rfl⟩, h⟩

theorem InStep.trans {lag lag' : ℕ} {others others' : List Frame} {last last' : Pointer} {u u' : Store}
    (h : InStep config lag st s st' s' frames frames' base base' pursuit t t')
    (h' : InStep config lag' (pursuit.on base) t (pursuit.on base') t' others others' last last' pursuit' u u') :
    InStep config (lag + lag') st s st' s' (frames ++ others) (frames' ++ others') last last' pursuit' u u' :=
  ⟨h.left.trans h'.left, h.right.trans h'.right, h.matched.append h'.matched, h'.abreast⟩

/-- How both runs leave a pursuit in one step. -/
inductive Departs (config : Config) (base base' : Pointer) (pursuit : Pursuit) (s s' : Store) : Prop
  /-- Both hand a value to their continuations. -/
  | returns (v env : Pointer) (left : (middle config (pursuit.on base) s).1 = ⟨⟨v, env, base⟩, true⟩)
      (right : (middle config (pursuit.on base') s').1 = ⟨⟨v, env, base'⟩, true⟩)
  /-- Both stop with an error value. -/
  | stops (F F' : Frame) (t t' : Store) (env : Pointer) (code : ErrorCode)
      (left : step config (pursuit.on base) s = .ok F t) (right : step config (pursuit.on base') s' = .ok F' t')
      (final : F.output = .fail env code) (final' : F'.output = .fail env code)
      (emitted : F'.emitted = F.emitted)
  /-- Both raise an exception. -/
  | raises (fault : Fault) (t t' : Store) (left : step config (pursuit.on base) s = .error fault t)
      (right : step config (pursuit.on base') s' = .error fault t')

theorem after_steps_one (config : Config) (st : State) (s : Store) :
    after (steps config 1 st) s = after (step config st) s := by
  cases hstep : step config st s with
  | ok F t =>
    rw [after_steps_of_ok 0 hstep]
    unfold after
    rw [hstep]
    rfl
  | error fault t => rw [after_steps_of_error 0 hstep, after, hstep]

/-- What a step takes in is there after any number of steps. -/
theorem after_step_grows (n : ℕ) (hs : Reachable s) (hst : st.Held s) :
    (after (step config st) s).Grows (after (steps config (n + 1) st) s) := by
  rw [← after_steps_one]
  exact after_steps_mono (Nat.le_add_left 1 n) hs hst

theorem content_step_subset (n : ℕ) (hs : Reachable s) (hst : st.Held s) :
    (after (step config st) s).content ⊆ (after (steps config (n + 1) st) s).content :=
  (after_step_grows n hs hst).content_subset

/-- What the first step of each run takes in does not collide. -/
theorem Apart.known {n : ℕ} (h : Apart config 0 n st s st' s') (hpos : 0 < n) (hs : Reachable s) (hst : st.Held s)
    (hs' : Reachable s') (hst' : st'.Held s') : ∃ known : Set (List Int), Set.InjOn Sponge.hash known ∧
      (after (step config st) s).content ⊆ known ∧ (after (step config st') s').content ⊆ known := by
  obtain ⟨m, rfl⟩ := Nat.exists_eq_succ_of_ne_zero hpos.ne'
  exact ⟨_, h, (content_step_subset m hs hst).trans Set.subset_union_left,
    (content_step_subset m hs' hst').trans Set.subset_union_right⟩

/-- What the evaluation phase takes in is taken in by the step. -/
theorem middle_grows (config : Config) (hs : Reachable s) (hst : st.Held s) :
    s.Grows (middle config st s).2 ∧ (middle config st s).2.Grows (after (step config st) s) := by
  obtain ⟨-, hmiddle⟩ := grows_after_steps config 1 hs hst
  rw [after_steps_one] at hmiddle
  exact ⟨(middle_moves config (reachable_sound hs) hst).1, hmiddle Nat.one_pos⟩

section
variable {known : Set (List Int)} (hbase : base.tag.isHalted = false) (hbase' : base'.tag.isHalted = false)
  (hinjective : Set.InjOn Sponge.hash known)
include hbase hbase' hinjective

omit hbase hbase' in
/-- Two steps that report the same both succeed or both fail. -/
theorem steps_alike (hs : Reachable s) (hs' : Reachable s') (hst : st.Held s) (hst' : st'.Held s')
    (hknown : (after (step config st) s).content ⊆ known)
    (hknown' : (after (step config st') s').content ⊆ known)
    (hreports : report? config st s = report? config st' s') :
    (∃ F F', step config st s = .ok F (next config st s).2 ∧
      step config st' s' = .ok F' (next config st' s').2 ∧ F.output = (next config st s).1 ∧
      F'.output = (next config st' s').1 ∧ F'.emitted = F.emitted) ∨
    ∃ fault t t', step config st s = .error fault t ∧ step config st' s' = .error fault t' := by
  have hsound := reachable_sound hs
  have hsound' := reachable_sound hs'
  obtain ⟨hgrows, hmiddle⟩ := middle_grows config hs hst
  obtain ⟨hgrows', hmiddle'⟩ := middle_grows config hs' hst'
  have both {F F' : Frame} (hF : Follows config st s F) (hF' : Follows config st' s' F') :
      F.output = (next config st s).1 ∧ F'.output = (next config st' s').1 ∧ F'.emitted = F.emitted :=
    ⟨hF.output, hF'.output, by rw [hF.emitted, hF'.emitted, hreports]⟩
  cases hreported : report? config st s with
  | none =>
    obtain ⟨F, hstep, hF⟩ := step_silent config hsound hst hreported
    obtain ⟨F', hstep', hF'⟩ := step_silent config hsound' hst' (hreports ▸ hreported)
    exact .inl ⟨F, F', hstep, hstep', both hF hF'⟩
  | some v =>
    have hreported' := hreports ▸ hreported
    have hv : (middle config st s).2.Holds v := by
      rw [(report?_eq_some hreported).2]
      exact (State.held_iff.1 (middle_moves config hsound hst).2).1
    have hv' : (middle config st' s').2.Holds v := by
      rw [(report?_eq_some hreported').2]
      exact (State.held_iff.1 (middle_moves config hsound' hst').2).1
    have hrenders := render_agrees hinjective (hgrows.reachable hs) (hgrows'.reachable hs')
      (hmiddle.content_subset.trans hknown) (hmiddle'.content_subset.trans hknown') hv hv'
    cases hrender : (middle config st s).2.render v with
    | ok text =>
      obtain ⟨F, hstep, hF⟩ := step_written config hsound hst hreported hrender
      obtain ⟨F', hstep', hF'⟩ := step_written config hsound' hst' hreported' (hrenders ▸ hrender)
      exact .inl ⟨F, F', hstep, hstep', both hF hF'⟩
    | error fault =>
      exact .inr ⟨fault, _, _, step_unwritten config hsound hst hreported hrender,
        step_unwritten config hsound' hst' hreported' (hrenders ▸ hrender)⟩

namespace Abreast

/-- Two runs with one pursuit leave it together in a step, or have one pursuit after it. -/
theorem step (h : Abreast base base' pursuit s s') (hknown : (after (step config (pursuit.on base)) s).content ⊆ known)
    (hknown' : (after (step config (pursuit.on base')) s').content ⊆ known) :
    Departs config base base' pursuit s s' ∨ ∃ F F' pursuit' t t', Machine.step config (pursuit.on base) s = .ok F t ∧
      Machine.step config (pursuit.on base') s' = .ok F' t' ∧
      InStep config 0 (pursuit.on base) s (pursuit.on base') s' [F] [F'] base base' pursuit' t t' := by
  obtain ⟨hs, hst, -⟩ := h.left
  obtain ⟨hs', hst', -⟩ := h.right
  obtain ⟨hgrows, hmiddle⟩ := middle_grows config hs hst
  obtain ⟨hgrows', hmiddle'⟩ := middle_grows config hs' hst'
  have hall := hgrows.trans hmiddle
  have hall' := hgrows'.trans hmiddle'
  have hfaithful := faithful_of_injOn hinjective hs (hall.content_subset.trans hknown)
  have hfaithful' := faithful_of_injOn hinjective hs' (hall'.content_subset.trans hknown')
  obtain ⟨u, hu, hu'⟩ := exists_common hinjective (hall.reachable hs) (hall'.reachable hs') hknown hknown'
  rcases h.left.next hbase hfaithful (hmiddle.extends_.trans hu) with ⟨v, env, hmove, hv⟩ | ⟨hleads, hreport⟩ <;>
    rcases h.right.next hbase' hfaithful' (hmiddle'.extends_.trans hu') with
      ⟨v', env', hmove', hv'⟩ | ⟨hleads', hreport'⟩
  · rw [hmove] at hmove'
    cases hmove'
    exact .inl (.returns v env hv hv')
  · rw [hmove] at hleads'
    cases hleads'
  · rw [hmove'] at hleads
    cases hleads
  · rcases steps_alike hinjective hs hs' hst hst' hknown hknown' (hreport.trans hreport'.symm) with
      ⟨F, F', hstep, hstep', hF, hF', hemitted⟩ | ⟨fault, t, t', hstep, hstep'⟩
    · obtain ⟨ht, hheld⟩ := reachable_step hs hst hstep
      obtain ⟨ht', hheld'⟩ := reachable_step hs' hst' hstep'
      cases hmove : pursuit.move config.lookupDepth u with
      | returns v env =>
        rw [hmove] at hleads
        cases hleads
      | stops env code =>
        rw [hmove, Move.leads_stops_iff] at hleads hleads'
        rw [hleads] at hF
        rw [hleads'] at hF'
        exact .inl (.stops F F' _ _ env code hstep hstep' hF hF' hemitted)
      | goes pursuit' =>
        rw [hmove, Move.leads_goes_iff] at hleads hleads'
        rw [hleads.1] at hF
        rw [hleads'.1] at hF'
        rw [hF] at hheld
        rw [hF'] at hheld'
        have hran := RanTo.step hstep
        have hran' := RanTo.step hstep'
        rw [hF] at hran
        rw [hF'] at hran'
        exact .inr ⟨F, F', pursuit', _, _, hstep, hstep', hran, hran', ⟨rfl, by simp [hemitted]⟩,
          ⟨ht, hheld, hleads.2⟩, ⟨ht', hheld', hleads'.2⟩⟩
    · exact .inl (.raises fault t t' hstep hstep')

/-- Any number of steps: two runs with one pursuit have one pursuit after so many frames, or leave it together
before that. -/
theorem advance (n : ℕ) (h : Abreast base base' pursuit s s')
    (hknown : (after (steps config n (pursuit.on base)) s).content ⊆ known)
    (hknown' : (after (steps config n (pursuit.on base')) s').content ⊆ known) :
    ∃ frames frames' pursuit' t t',
      InStep config 0 (pursuit.on base) s (pursuit.on base') s' frames frames' base base' pursuit' t t' ∧
      (frames.length = n ∨ frames.length < n ∧ Departs config base base' pursuit' t t') := by
  induction n generalizing pursuit s s' with
  | zero => exact ⟨[], [], pursuit, s, s', h.inStep, .inl rfl⟩
  | succ n ih =>
    have hfirst := (content_step_subset n h.left.reachable h.left.held).trans hknown
    have hfirst' := (content_step_subset n h.right.reachable h.right.held).trans hknown'
    rcases h.step hbase hbase' hinjective hfirst hfirst' with
      hdeparts | ⟨F, F', pursuit', t, t', hstep, hstep', hnext⟩
    · exact ⟨[], [], pursuit, s, s', h.inStep, .inr ⟨Nat.succ_pos n, hdeparts⟩⟩
    · have hF : F.output = pursuit'.on base := hnext.left.final
      have hF' : F'.output = pursuit'.on base' := hnext.right.final
      rw [after_steps_of_ok n hstep, hF] at hknown
      rw [after_steps_of_ok n hstep', hF'] at hknown'
      obtain ⟨frames, frames', last, u, u', hrest, hend⟩ := ih hnext.abreast hknown hknown'
      exact ⟨F :: frames, F' :: frames', last, u, u', hnext.trans hrest,
        hend.imp (congrArg (· + 1)) fun hdeparts => ⟨Nat.succ_lt_succ hdeparts.1, hdeparts.2⟩⟩

end Abreast

end

section
variable {lag : ℕ} (h : InStep config lag st s st' s' frames frames' base base' pursuit t t')
  (hbase : base.tag.isHalted = false) (hbase' : base'.tag.isHalted = false)
include h hbase hbase'

/-- Two runs that have come to one pursuit keep it for so many frames, or leave it together before. -/
theorem InStep.stays_or_departs {n : ℕ} (hapart : Apart config 0 n (pursuit.on base) t (pursuit.on base') t') :
    (∃ more more' pursuit' u u', more.length = n ∧
      InStep config lag st s st' s' (frames ++ more) (frames' ++ more') base base' pursuit' u u') ∨
    ∃ more more' pursuit' u u', more.length < n ∧ t.Grows u ∧ t'.Grows u' ∧
      InStep config lag st s st' s' (frames ++ more) (frames' ++ more') base base' pursuit' u u' ∧
      Apart config 0 (n - more.length) (pursuit'.on base) u (pursuit'.on base') u' ∧
      Departs config base base' pursuit' u u' := by
  obtain ⟨more, more', pursuit', u, u', hsteps, hend⟩ :=
    h.abreast.advance hbase hbase' hapart n Set.subset_union_left Set.subset_union_right
  cases hend with
  | inl hlength => exact .inl ⟨more, more', pursuit', u, u', hlength, h.trans hsteps⟩
  | inr hend =>
    obtain ⟨hlength, hdeparts⟩ := hend
    have hrest : more.length + (n - more.length) = n := Nat.add_sub_cancel' hlength.le
    exact .inr ⟨more, more', pursuit', u, u', hlength, h.abreast.left.grows hsteps.left,
      h.abreast.right.grows hsteps.right, h.trans hsteps,
      hapart.later hsteps.left hsteps.right hrest hsteps.matched.length, hdeparts⟩

/-- Two runs that have come to one pursuit keep it as long as nothing collides, or leave it together before anything
does. -/
theorem InStep.captured_or_departs :
    (∀ n, Apart config 0 n (pursuit.on base) t (pursuit.on base') t' → ∃ more more' pursuit' u u', more.length = n ∧
      InStep config lag st s st' s' (frames ++ more) (frames' ++ more') base base' pursuit' u u') ∨
    ∃ n more more' pursuit' u u', 0 < n ∧ t.Grows u ∧ t'.Grows u' ∧
      InStep config lag st s st' s' (frames ++ more) (frames' ++ more') base base' pursuit' u u' ∧
      Apart config 0 n (pursuit'.on base) u (pursuit'.on base') u' ∧ Departs config base base' pursuit' u u' := by
  by_cases hleaves : ∃ n more more' pursuit' u u', 0 < n ∧ t.Grows u ∧ t'.Grows u' ∧
      InStep config lag st s st' s' (frames ++ more) (frames' ++ more') base base' pursuit' u u' ∧
      Apart config 0 n (pursuit'.on base) u (pursuit'.on base') u' ∧ Departs config base base' pursuit' u u'
  · exact .inr hleaves
  · left
    intro n hapart
    rcases h.stays_or_departs hbase hbase' hapart with hstays | ⟨more, more', pursuit', u, u', hlength, hdeparts⟩
    · exact hstays
    · exact absurd ⟨_, more, more', pursuit', u, u', Nat.sub_pos_of_lt hlength, hdeparts⟩ hleaves

end

/-! ## A value for two nodes -/

/-- A frame hands a value to a continuation. -/
structure Hands (F : Frame) (v cont : Pointer) : Prop where
  returned : F.returned = true
  expr : F.intermediate.expr = v
  cont : F.intermediate.cont = cont

/-- Where two runs are after both have handed a value to a node. A larger store says what both nodes make of
it. -/
structure Handed (config : Config) (lag : ℕ) (st : State) (s : Store) (st' : State) (s' : Store)
    (frames frames' : List Frame) (F F' : Frame) (w w' : Waiting) (base base' v env : Pointer)
    (t t' u : Store) : Prop where
  left : RanTo config st s (frames ++ [F]) F.output t
  right : RanTo config st' s' (frames' ++ [F']) F'.output t'
  matched : Matched lag (frames ++ [F]) (frames' ++ [F'])
  hands : Hands F v (w.onto base)
  leads : ((ContPhase.turn w v env u).1.move []).Leads base F.output t
  leads' : ((ContPhase.turn w' v env u).1.move []).Leads base' F'.output t'
  common : t.Extends u
  common' : t'.Extends u

/-- Two runs that hand a value to nodes go on as the nodes say. -/
theorem InStep.hands {lag n : ℕ} {w' : Waiting}
    (h : InStep config lag st s st' s' frames frames' (w.onto base) (w'.onto base') pursuit t t')
    (hapart : Apart config 0 n (pursuit.on (w.onto base)) t (pursuit.on (w'.onto base')) t') (hpos : 0 < n)
    (hw : t.Stacked base [w]) (hw' : t'.Stacked base' [w']) (hsilent : w.report? v = none)
    (hsilent' : w'.report? v = none)
    (hleft : (middle config (pursuit.on (w.onto base)) t).1 = ⟨⟨v, env, w.onto base⟩, true⟩)
    (hright : (middle config (pursuit.on (w'.onto base')) t').1 = ⟨⟨v, env, w'.onto base'⟩, true⟩) :
    ∃ F F' r r' u, Handed config lag st s st' s' frames frames' F F' w w' base base' v env r r' u ∧
      t.Grows r ∧ t'.Grows r' := by
  obtain ⟨hpending, hpending'⟩ := h.abreast
  obtain ⟨ht, hheld, -⟩ := hpending
  obtain ⟨ht', hheld', -⟩ := hpending'
  obtain ⟨hgrows, hmiddle⟩ := middle_grows config ht hheld
  obtain ⟨hgrows', hmiddle'⟩ := middle_grows config ht' hheld'
  have hall := hgrows.trans hmiddle
  have hall' := hgrows'.trans hmiddle'
  obtain ⟨known, hinjective, hknown, hknown'⟩ := hapart.known hpos ht hheld ht' hheld'
  obtain ⟨u, hu, hu'⟩ := exists_common hinjective (hall.reachable ht) (hall'.reachable ht') hknown hknown'
  have hfaithful := faithful_of_injOn hinjective ht (hall.content_subset.trans hknown)
  have hfaithful' := faithful_of_injOn hinjective ht' (hall'.content_subset.trans hknown')
  obtain ⟨F, r, hstep, hemitted, hreturned, hintermediate, hleads, -⟩ :=
    h.abreast.left.hands (hfaithful _ _ _ hw.1) hleft (hmiddle.extends_.trans hu) hsilent
  obtain ⟨F', r', hstep', hemitted', -, -, hleads', -⟩ :=
    h.abreast.right.hands (hfaithful' _ _ _ hw'.1) hright (hmiddle'.extends_.trans hu') hsilent'
  have hafter : after (step config (pursuit.on (w.onto base))) t = r := (eq_ok_iff.1 hstep).2
  have hafter' : after (step config (pursuit.on (w'.onto base'))) t' = r' := (eq_ok_iff.1 hstep').2
  rw [hafter] at hall hu
  rw [hafter'] at hall' hu'
  have hmatched : Matched 0 [F] [F'] := ⟨rfl, by simp [hemitted, hemitted']⟩
  exact ⟨F, F', r, r', u, {
    left := h.left.trans (.step hstep)
    right := h.right.trans (.step hstep')
    matched := h.matched.append hmatched
    hands := ⟨hreturned, by rw [hintermediate], by rw [hintermediate]⟩
    leads := hleads
    leads' := hleads'
    common := hu
    common' := hu' }, hall, hall'⟩

end Machine

end FieldLisp
