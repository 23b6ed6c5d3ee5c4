import FieldLisp.Proofs.Machine.Course

/-!
# A step in the marked model

Wherever a step is computed on a store, it runs through in the marked model, in every setting but for
two cases: what a lambda without parameters reads off a slot that is switched off, and signs.

* `EvalPhase.follows`, `ContPhase.follows`: a phase runs through;
* `Passage`: a step that runs through in the marked model;
* `Machine.passage`: a step that is computed is one;
* `Passage.slot_of_cons`: what its first slot for a pair holds.
-/

namespace FieldLisp

open MarkM
open EStateM (bind_eq_ok)

variable {c : Setting} {fill : SlotKey → List Pointer}

/-! ## Phases -/

/-- All rules that are not selected run, with their slots switched off. -/
def Course.Idles {κ σ : Type} (y : Course (MarkM (c.idle fill)) (Marked Int) MarkedPointer κ σ)
    (scope : σ) (W : MarkWorld) : Prop :=
  ∀ rule, ∃ o W', (y.run rule scope).run W.beginRules = some (o, W')

namespace EvalPhase

/-- The evaluation phase runs through. A lambda without parameters looks at a slot that is switched
off, which asks for more. -/
theorem follows (hcomputes : c.Computes) (hproper : c.Proper) (hidle : (c.idle fill).Proper)
    (depth : ℕ) {W : MarkWorld} (hsound : W.store.Sound) {expr env cont : MarkedPointer}
    (hexpr : Reliable W.store expr) (henv : Reliable W.store env) (hcont : Reliable W.store cont)
    (hcloses : ∀ {head arguments parameters rest}, W.store.nodes[expr.value]? = some [head, arguments] →
      W.store.nodes[arguments]? = some [parameters, rest] → parameters.tag = .nil →
      firing expr.value head cont.value = .lambda →
      c.honest = true ∨ c.sealed ⟨W.cursor.phase, 2, W.cursor.used 2 + 4⟩ 1 = true) :
    ∃ scope W₁ head out W₂, (course depth expr env cont : Course (MarkM c) _ _ _ _).Follows
        EvalRule.all W scope W₁ (firing expr.value head cont.value) out W₂ ∧
      (course depth expr env cont : Course (MarkM (c.idle fill)) _ _ _ _).Idles scope W₁ ∧
      (expr.value.tag = .cons → ∃ arguments, W.store.nodes[expr.value]? = some [head, arguments]) := by
  obtain ⟨scope, W₁, hprelude, hstore, hused, rfl, rfl, rfl, hread⟩ :=
    yields_prelude hcomputes hproper hsound hexpr henv hcont
  have hphase := (MarkM.passes _ hprelude).phase
  have hread₁ : scope.Read c.honest W₁.beginRules.store := by
    change scope.Read c.honest W₁.store
    rwa [hstore]
  have hsound₁ : W₁.beginRules.store.Sound := by
    change W₁.store.Sound
    rwa [hstore]
  have hcloses₁ (hlambda : .lambda = firing scope.expr.value scope.head.value scope.cont.value) :
      Closes c W₁.beginRules scope := by
    by_cases hnone : scope.arguments.value.tag = .cons ∧ scope.a1.value.tag = .nil
    · have hcons := tag_of_firing hlambda (rfl : subject .lambda = some .cons)
      rcases hcloses (hread.exprNode hcons) (hread.argumentsNode hnone.1) hnone.2 hlambda.symm with
        hhonest | hsealed
      · refine .inl ⟨hhonest, ?_⟩
        rw [hcomputes.fill]
        change W₁.store.Holds ((List.replicate _ Pointer.nil).getD 1 .nil)
        rw [List.getD_eq_getElem?_getD, List.getElem?_replicate]
        split <;> exact Store.holds_nil _
      · refine .inr (.inl ?_)
        rw [← hphase, ← hused] at hsealed
        exact hsealed
    · exact .inr (.inr fun h₁ h₂ => hnone ⟨h₁, h₂⟩)
  obtain ⟨out, W₂, hrun, hout⟩ := yields_run depth _ hproper hsound₁ hread₁ (fun _ => rfl)
    fun hlambda _ => hcloses₁ hlambda.symm
  refine ⟨scope, W₁, scope.head.value, out, W₂,
    ⟨hprelude, guards_eq hread, hrun, hout hcomputes.gate⟩, fun rule => ?_, fun hcons => ?_⟩
  · obtain ⟨o, W', hidling, _⟩ := yields_run depth rule hidle hsound₁ hread₁ nofun nofun
    exact ⟨o, W', hidling⟩
  · exact ⟨scope.arguments.value, hread.exprNode hcons⟩

end EvalPhase

namespace ContPhase

/-- The continuation phase runs through. Operators that look at signs ask for more. -/
theorem follows (hcomputes : c.Computes) (hproper : c.Proper) (hidle : (c.idle fill).Proper)
    {W : MarkWorld} (hsound : W.store.Sound) {mid : Step (Marked Int) MarkedPointer}
    (hmid : mid.Concluded W.store) {returns : Bool} (hret : mid.ret = .bit true returns)
    (hsigned : ∀ {op rest}, W.store.nodes[mid.cont.value]? = some (op :: rest) →
      firing returns mid.cont.value = .binary2 →
      among (formOf? op) (signedOps.map Form.binary) = true → c.signs = true) :
    ∃ scope W₁ out W₂, (course mid : Course (MarkM c) _ _ _ _).Follows ContRule.all W scope W₁
        (firing returns mid.cont.value) out W₂ ∧
      (course mid : Course (MarkM (c.idle fill)) _ _ _ _).Idles scope W₁ := by
  obtain ⟨scope, W₁, hprelude, hstore, -, -, hcont, hread⟩ :=
    yields_prelude hcomputes hproper hsound hmid hret
  rw [← hcont] at hsigned ⊢
  have hread₁ : scope.Read c.honest W₁.beginRules.store returns := by
    change scope.Read c.honest W₁.store returns
    rwa [hstore]
  have hsound₁ : W₁.beginRules.store.Sound := by
    change W₁.store.Sound
    rwa [hstore]
  obtain ⟨out, W₂, hrun, hout⟩ := yields_run _ hproper hsound₁ hread₁ (fun _ => rfl)
    fun hbinary _ hop => hsigned (hread.contNode (live_of_firing hbinary.symm rfl)) hbinary hop
  refine ⟨scope, W₁, out, W₂, ⟨hprelude, guards_eq hread, hrun, hout hcomputes.gate⟩, fun rule => ?_⟩
  obtain ⟨o, W', hidling, _⟩ := yields_run rule hidle hsound₁ hread₁ nofun nofun
  exact ⟨o, W', hidling⟩

end ContPhase

/-! ## Steps that are computed -/

/-- The world in which a step begins. -/
def MarkWorld.ofStore (store : Store) : MarkWorld := ⟨store, .start, []⟩

theorem Workspace.mirrors_ofStore {store : Store} (h : store.Sound) :
    Mirrors (.ofStore store) (.ofStore store) :=
  ⟨rfl, rfl, rfl, h, fun hget => nomatch hget⟩

/-- A state that all admitted witnesses agree on. -/
def State.marked (s : State) (returned : Bool) : Step (Marked Int) MarkedPointer :=
  ⟨.certain s.expr, .certain s.env, .certain s.cont, .bit true returned⟩

/-- The state that an outcome stands for. -/
def Step.state (x : Step (Marked Int) MarkedPointer) : State :=
  ⟨x.expr.value, x.env.value, x.cont.value⟩

/-- All pointers of the state are in the store. -/
def State.Held (s : State) (store : Store) : Prop := ∀ p ∈ s.pointers, store.Holds p

theorem State.held_of_within {s : State} {store : Store} (hcanonical : s.Canonical)
    (hwithin : s.within store = true) : s.Held store := by
  simp only [State.within, Bool.and_eq_true] at hwithin
  simp only [State.Held, State.pointers, List.mem_cons, List.not_mem_nil, or_false,
    forall_eq_or_imp, forall_eq]
  exact ⟨⟨hcanonical.1, hwithin.1.1⟩, ⟨hcanonical.2.1, hwithin.1.2⟩, ⟨hcanonical.2.2, hwithin.2⟩⟩

namespace State.Held
variable {s : State} {store : Store}

theorem canonical (h : s.Held store) : s.Canonical :=
  ⟨(h _ (by simp [State.pointers])).canonical, (h _ (by simp [State.pointers])).canonical,
    (h _ (by simp [State.pointers])).canonical⟩

theorem within (h : s.Held store) : s.within store = true := by
  simp only [State.Held, State.pointers, List.forall_mem_cons] at h
  simp only [State.within, h.1.contains, h.2.1.contains, h.2.2.1.contains, Bool.and_self]

theorem marked (h : s.Held store) (returned : Bool) : (s.marked returned).Concluded store where
  expr := reliable_certain (h _ (by simp [State.pointers]))
  env := reliable_certain (h _ (by simp [State.pointers]))
  cont := reliable_certain (h _ (by simp [State.pointers]))
  ret := ⟨returned, rfl⟩

end State.Held

theorem Step.Concluded.held {x : Step (Marked Int) MarkedPointer} {store : Store}
    (h : x.Concluded store) : x.state.Held store := by
  simp only [State.Held, State.pointers, Step.state, List.mem_cons, List.not_mem_nil, or_false,
    forall_eq_or_imp, forall_eq]
  exact ⟨h.expr.holds, h.env.holds, h.cont.holds⟩

namespace Machine

variable {config : Config} {state : State} {store store' : Store} {F : Frame}

/-- The phases of a step that is computed. -/
structure Phases (config : Config) (store : Store) (F : Frame) (store' : Store)
    (mid out : Step Int Pointer) (w w' : Workspace) : Prop where
  eval : evalPhase config F.input (.ofStore store) = .ok (F.rule, mid) w
  cont : contPhase mid w = .ok (F.returnRule, out) w'
  intermediate : F.intermediate = ⟨mid.expr, mid.env, mid.cont⟩
  returned : F.returned = (mid.ret != 0)
  output : F.output = ⟨out.expr, out.env, out.cont⟩
  slots : F.slots = w'.slots
  store : store' = w'.store

theorem phases_of_step (h : step config state store = .ok F store') :
    F.input = state ∧ ∃ mid out w w', Phases config store F store' mid out w w' := by
  unfold step at h
  cases hframe : frame config state (.ofStore store) with
  | error fault w => simp [hframe] at h
  | ok G w' =>
    rw [hframe] at h
    cases h
    obtain ⟨⟨rule, mid⟩, w, heval, hframe⟩ := bind_eq_ok.1 hframe
    obtain ⟨⟨returnRule, out⟩, w'', hcont, hframe⟩ := bind_eq_ok.1 hframe
    cases hframe
    exact ⟨rfl, mid, out, w, w', heval, hcont, rfl, rfl, rfl, rfl, rfl⟩

end Machine

/-! ## Steps that run through -/

/-- The evaluation phase of a frame runs through, from a world to another one. -/
structure Frame.Evaluates (c : Setting) (fill : SlotKey → List Pointer) (config : Config)
    (store : Store) (F : Frame) (scope : EvalPhase.Scope (Marked Int) MarkedPointer) (W₁ : MarkWorld)
    (outcome : Step (Marked Int) MarkedPointer) (W₂ : MarkWorld) : Prop where
  follows : (EvalPhase.course config.lookupDepth (.certain F.input.expr) (.certain F.input.env)
    (.certain F.input.cont) : Course (MarkM c) _ _ _ _).Follows EvalRule.all
      ((MarkWorld.ofStore store).beginPhase .eval) scope W₁ F.rule outcome W₂
  idles : (EvalPhase.course config.lookupDepth (.certain F.input.expr) (.certain F.input.env)
    (.certain F.input.cont) : Course (MarkM (c.idle fill)) _ _ _ _).Idles scope W₁
  state : outcome.state = F.intermediate
  ret : outcome.ret = .bit true F.returned

/-- The continuation phase of a frame runs through, from a world to another one. -/
structure Frame.Continues (c : Setting) (fill : SlotKey → List Pointer) (F : Frame) (W₂ : MarkWorld)
    (scope : ContPhase.Scope (Marked Int) MarkedPointer) (W₃ : MarkWorld)
    (outcome : Step (Marked Int) MarkedPointer) (W₄ : MarkWorld) : Prop where
  follows : (ContPhase.course (F.intermediate.marked F.returned) : Course (MarkM c) _ _ _ _).Follows
    ContRule.all (W₂.beginPhase .cont) scope W₃ F.returnRule outcome W₄
  idles : (ContPhase.course (F.intermediate.marked F.returned) :
    Course (MarkM (c.idle fill)) _ _ _ _).Idles scope W₃
  state : outcome.state = F.output

/-- A step that runs through in the marked model, and what it leaves behind. -/
structure Passage (c : Setting) (fill : SlotKey → List Pointer) (config : Config) (store : Store)
    (F : Frame) (store' : Store) where
  evalScope : EvalPhase.Scope (Marked Int) MarkedPointer
  evalRead : MarkWorld
  mid : Step (Marked Int) MarkedPointer
  middle : MarkWorld
  evaluates : F.Evaluates c fill config store evalScope evalRead mid middle
  contScope : ContPhase.Scope (Marked Int) MarkedPointer
  contRead : MarkWorld
  out : Step (Marked Int) MarkedPointer
  last : MarkWorld
  continues : F.Continues c fill middle contScope contRead out last
  store : last.store = store'
  sound : last.store.Sound
  slots : last.slots = F.slots
  records : ∀ {key preimage}, F.slots.get? key = some preimage → Workspace.Records store' key preimage

namespace Machine

variable {config : Config} {state : State} {store store' : Store} {F : Frame}
  {mid out : Step Int Pointer} {w w' : Workspace}

namespace Phases

theorem evaluates (h : Phases config store F store' mid out w w') (hcomputes : c.Computes)
    (hproper : c.Proper) (hidle : (c.idle fill).Proper) (hsound : store.Sound)
    (hheld : F.input.Held store)
    (hcloses : ∀ {head arguments parameters rest}, store.nodes[F.input.expr]? = some [head, arguments] →
      store.nodes[arguments]? = some [parameters, rest] → parameters.tag = .nil →
      EvalPhase.firing F.input.expr head F.input.cont = .lambda →
      c.honest = true ∨ c.sealed ⟨.eval, 2, 4⟩ 1 = true) :
    ∃ scope W₁ outcome W₂, F.Evaluates c fill config store scope W₁ outcome W₂ ∧
      Workspace.Mirrors w W₂ ∧ mid.ret = Workspace.bit F.returned ∧
      ∃ head, F.rule = EvalPhase.firing F.input.expr head F.input.cont ∧ (F.input.expr.tag = .cons →
        ∃ arguments, store.nodes[F.input.expr]? = some [head, arguments]) := by
  have hmarked := hheld.marked false
  obtain ⟨scope, W₁, head, outcome, W₂, hfollows, hidles, hhead⟩ :=
    EvalPhase.follows hcomputes hproper hidle config.lookupDepth
      (W := (MarkWorld.ofStore store).beginPhase .eval) hsound hmarked.expr hmarked.env hmarked.cont hcloses
  obtain ⟨hrule, hrelated, hmirrors⟩ := Course.compute_ok hcomputes
    (Course.related_eval (Workspace.computing hcomputes) config.lookupDepth
      ⟨rfl, hheld.canonical.1⟩ ⟨rfl, hheld.canonical.2.1⟩ ⟨rfl, hheld.canonical.2.2⟩)
    EvalRule.nodup_all (EvalRule.mem_all _) hfollows (Workspace.mirrors_ofStore hsound)
    (h.eval : (EvalPhase.course config.lookupDepth F.input.expr F.input.env F.input.cont).compute
      EvalRule.name .eval _ = _)
  obtain ⟨v, hv⟩ := hfollows.concluded.ret
  have hmid : mid.ret = Workspace.bit v := by
    rw [hrelated.ret.eq, hv]
    rfl
  have hreturned : F.returned = v := by
    rw [h.returned, hmid]
    cases v <;> rfl
  refine ⟨scope, W₁, outcome, W₂, ⟨hrule ▸ hfollows, hidles, ?_, hreturned ▸ hv⟩, hmirrors,
    hreturned ▸ hmid, head, hrule, hhead⟩
  rw [h.intermediate, hrelated.expr.eq, hrelated.env.eq, hrelated.cont.eq]
  rfl

theorem continues (h : Phases config store F store' mid out w w') (hcomputes : c.Computes)
    (hproper : c.Proper) (hidle : (c.idle fill).Proper) {W₂ : MarkWorld}
    (hmirrors : Workspace.Mirrors w W₂) (hheld : F.intermediate.Held W₂.store)
    (hret : mid.ret = Workspace.bit F.returned)
    (hsigned : ∀ {op rest}, W₂.store.nodes[F.intermediate.cont]? = some (op :: rest) →
      ContPhase.firing F.returned F.intermediate.cont = .binary2 →
      ContPhase.among (formOf? op) (ContPhase.signedOps.map Form.binary) = true → c.signs = true) :
    ∃ scope W₃ outcome W₄, F.Continues c fill W₂ scope W₃ outcome W₄ ∧ Workspace.Mirrors w' W₄ ∧
      F.returnRule = ContPhase.firing F.returned F.intermediate.cont := by
  have hintermediate := h.intermediate
  obtain ⟨scope, W₃, outcome, W₄, hfollows, hidles⟩ :=
    ContPhase.follows hcomputes hproper hidle (W := W₂.beginPhase .cont) hmirrors.sound
      (hheld.marked F.returned) rfl hsigned
  have hmid : Step.Related Workspace.SameElement Workspace.SamePointer mid
      (F.intermediate.marked F.returned) := by
    refine ⟨⟨?_, hheld.canonical.1⟩, ⟨?_, hheld.canonical.2.1⟩, ⟨?_, hheld.canonical.2.2⟩, ?_⟩
    · rw [hintermediate]
      rfl
    · rw [hintermediate]
      rfl
    · rw [hintermediate]
      rfl
    · rw [hret]
      exact Workspace.sameElement_bit true F.returned
  obtain ⟨hrule, hrelated, hmirrors'⟩ := Course.compute_ok hcomputes
    (Course.related_cont (Workspace.computing hcomputes) hmid) ContRule.nodup_all (ContRule.mem_all _)
    hfollows hmirrors (h.cont : (ContPhase.course mid).compute ContRule.name .cont _ = _)
  refine ⟨scope, W₃, outcome, W₄, ⟨hrule ▸ hfollows, hidles, ?_⟩, hmirrors', hrule⟩
  rw [h.output, hrelated.expr.eq, hrelated.env.eq, hrelated.cont.eq]
  rfl

end Phases

end Machine

/-! ## Settings of a selected rule -/

namespace Setting

/-- A setting of the rule that is selected. What is switched off gives nil there. -/
def selected (honest signs : Bool) (closed : SlotKey → ℕ → Bool) : Setting :=
  ⟨true, honest, signs, closed, fun key => List.replicate key.arity.toNat .nil⟩

theorem selected_computes (honest signs : Bool) (closed : SlotKey → ℕ → Bool) :
    (selected honest signs closed).Computes := ⟨rfl, fun _ => rfl⟩

theorem selected_proper {honest signs : Bool} (h : honest = true → signs = true)
    (closed : SlotKey → ℕ → Bool) : (selected honest signs closed).Proper where
  length key hkey := by simp [selected, hkey]
  signs := h
  sealed hp _ := by
    rw [(List.mem_replicate.1 (List.mem_of_getElem? hp)).2]
    nofun

/-- The setting of the machine itself. -/
def own : Setting := selected true true fun _ _ => false

end Setting

/-! ## Exceptions -/

/-- The frame evaluates a lambda without parameters. -/
structure Frame.IsBareLambda (F : Frame) (store : Store) : Prop where
  rule : F.rule = .lambda
  bare : ∃ head arguments parameters rest, store.nodes[F.input.expr]? = some [head, arguments] ∧
    store.nodes[arguments]? = some [parameters, rest] ∧ parameters.tag = .nil

/-- The frame applies an operator that looks at signs. -/
structure Frame.IsSigned (F : Frame) (store : Store) : Prop where
  returnRule : F.returnRule = .binary2
  operator : ∃ op ∈ ContPhase.signedOps, ∃ rest,
    store.nodes[F.intermediate.cont]? = some ((Form.binary op).symbol :: rest)

namespace Machine

variable {config : Config} {state : State} {store store' : Store} {F : Frame}
  {mid out : Step Int Pointer} {w w' : Workspace}

namespace Phases

/-- In the machine's own setting every step runs through. This says which rules it follows. -/
theorem rules_eq (h : Phases config store F store' mid out w w') (hsound : store.Sound)
    (hheld : F.input.Held store) :
    (∃ head, F.rule = EvalPhase.firing F.input.expr head F.input.cont ∧ (F.input.expr.tag = .cons →
      ∃ arguments, store.nodes[F.input.expr]? = some [head, arguments])) ∧
    F.returnRule = ContPhase.firing F.returned F.intermediate.cont ∧
    ∀ {p : Pointer} {cs : List Pointer}, w.store.nodes[p]? = some cs →
      store'.nodes[p]? = some cs := by
  have hcomputes : Setting.own.Computes := Setting.selected_computes _ _ _
  have hproper : Setting.own.Proper := Setting.selected_proper (fun _ => rfl) _
  have hidle : (Setting.own.idle Setting.own.fill).Proper :=
    ⟨hproper.length, hproper.signs, hproper.sealed⟩
  obtain ⟨_, _, outcome, W₂, hevaluates, hmirrors, hret, hrule⟩ :=
    h.evaluates hcomputes hproper hidle hsound hheld fun _ _ _ _ => .inl rfl
  have hintermediate : F.intermediate.Held W₂.store :=
    hevaluates.state ▸ hevaluates.follows.concluded.held
  obtain ⟨scope, W₃, out', W₄, hcontinues, hmirrors', hreturnRule⟩ :=
    h.continues hcomputes hproper hidle hmirrors hintermediate hret fun _ _ _ => rfl
  refine ⟨hrule, hreturnRule, fun hnode => ?_⟩
  have hread := MarkM.passes _ hcontinues.follows.read
  have hrun := MarkM.passes _ hcontinues.follows.run
  rw [h.store, hmirrors'.store]
  rw [hmirrors.store] at hnode
  exact hrun.nodes (hread.nodes hnode)

end Phases

/-- A step that is computed runs through in the marked model. -/
theorem passage {honest signs : Bool} {closed : SlotKey → ℕ → Bool}
    (hstep : step config state store = .ok F store') (hsound : store.Sound)
    (hheld : state.Held store) (hsigns : honest = true → signs = true)
    (hidle : ((Setting.selected honest signs closed).idle fill).Proper)
    (hbare : honest = false → F.IsBareLambda store → closed ⟨.eval, 2, 4⟩ 1 = true)
    (hsigned : signs = false → ¬F.IsSigned store') :
    Nonempty (Passage (Setting.selected honest signs closed) fill config store F store') := by
  obtain ⟨rfl, mid, out, w, w', h⟩ := phases_of_step hstep
  have hcomputes := Setting.selected_computes honest signs closed
  have hproper := Setting.selected_proper hsigns closed
  obtain ⟨⟨head, hrule, hhead⟩, hreturnRule, hnodes⟩ := h.rules_eq hsound hheld
  obtain ⟨scope, W₁, outcome, W₂, hevaluates, hmirrors, hret, -⟩ :=
    h.evaluates hcomputes hproper hidle hsound hheld fun {head' arguments parameters rest} h₁ h₂ h₃ h₄ => by
      cases hhonest : honest with
      | true => exact .inl rfl
      | false =>
        refine .inr (hbare hhonest ⟨?_, head', arguments, parameters, rest, h₁, h₂, h₃⟩)
        obtain ⟨arguments', hnode⟩ := hhead (EvalPhase.tag_of_firing h₄.symm rfl)
        rw [h₁] at hnode
        cases hnode
        rw [hrule, h₄]
  have hintermediate : F.intermediate.Held W₂.store :=
    hevaluates.state ▸ hevaluates.follows.concluded.held
  obtain ⟨scope', W₃, outcome', W₄, hcontinues, hmirrors', -⟩ :=
    h.continues hcomputes hproper hidle hmirrors hintermediate hret fun {op rest} h₁ h₂ h₃ => by
      cases hsign : signs with
      | true => rfl
      | false =>
        refine absurd ⟨hreturnRule.trans h₂, ?_⟩ (hsigned hsign)
        obtain ⟨_, hform, hop⟩ := ContPhase.among_iff.1 h₃
        obtain ⟨o, ho, rfl⟩ := List.mem_map.1 hform
        have hsymbol : op = (Form.binary o).symbol := by
          rw [← beq_iff_eq, beq_symbol, hop, beq_self_eq_true]
        refine ⟨o, ho, rest, hnodes ?_⟩
        rw [hmirrors.store, h₁, hsymbol]
  refine ⟨⟨scope, W₁, outcome, W₂, hevaluates, scope', W₃, outcome', W₄, hcontinues, ?_,
    hmirrors'.sound, ?_, ?_⟩⟩
  · rw [h.store, hmirrors'.store]
  · rw [h.slots, hmirrors'.slots]
  · rw [h.slots, hmirrors'.slots, h.store, hmirrors'.store]
    exact hmirrors'.records

/-- In its own setting every step of the machine runs through. -/
theorem own_passage (hstep : step config state store = .ok F store') (hsound : store.Sound)
    (hheld : state.Held store) :
    Nonempty (Passage Setting.own Setting.own.fill config store F store') :=
  have hproper := Setting.selected_proper (fun _ => rfl) fun _ _ => false
  passage hstep hsound hheld (fun _ => rfl) ⟨hproper.length, hproper.signs, hproper.sealed⟩ nofun nofun

end Machine

namespace Passage
variable {config : Config} {store store' : Store} {F : Frame}

theorem intermediate_held (P : Passage c fill config store F store') :
    F.intermediate.Held P.middle.store :=
  P.evaluates.state ▸ P.evaluates.follows.concluded.held

theorem output_held (P : Passage c fill config store F store') : F.output.Held P.last.store :=
  P.continues.state ▸ P.continues.follows.concluded.held

/-- What the evaluation phase has filled when its rules begin, nothing fills again. -/
theorem slots_of_evalRead (P : Passage c fill config store F store') {key : SlotKey} (hphase : key.phase = .eval)
    (hkey : ¬P.evalRead.Ahead key) : F.slots.get? key = P.evalRead.slots.get? key := by
  have hrun := (MarkM.passes _ P.evaluates.follows.run).slots key hkey
  have hread := MarkM.passes _ P.continues.follows.read
  have hbegun : ¬(P.middle.beginPhase .cont).Ahead key := fun h => by cases hphase.symm.trans h.1
  have hcont := hread.slots key hbegun
  have hlast := (MarkM.passes _ P.continues.follows.run).slots key (hread.not_ahead hbegun)
  rw [← P.slots]
  exact (hlast.trans hcont).trans hrun

/-- A step on a pair holds the pair in its first slot for two children. -/
theorem slot_of_cons (P : Passage c fill config store F store') (hgate : c.gate = true) {cs : List Pointer}
    (hcons : F.input.expr.tag = .cons) (hnode : store.nodes[F.input.expr]? = some cs) :
    F.slots.get? ⟨.eval, 2, 0⟩ = some (nodePreimage .cons cs) := by
  obtain ⟨W, hW⟩ : ∃ W, W = (MarkWorld.ofStore store).beginPhase .eval := ⟨_, rfl⟩
  have hkey : W.key 2 = ⟨.eval, 2, 0⟩ := hW ▸ rfl
  have hread : (EvalPhase.prelude (.certain F.input.expr) (.certain F.input.env) (.certain F.input.cont) :
      MarkM c _).run W = some (P.evalScope, P.evalRead) := hW ▸ P.evaluates.follows.read
  have hrecord : (unhash (.certain F.input.expr) 2 (some (.bit true true)) : MarkM c _).run W =
      some (cs.map .certain, W.record 2 W.store (nodePreimage .cons cs)) := by
    have hon : c.on (some (.bit true true)) = true := by
      rw [Setting.on, hgate]
      rfl
    have hadmits : c.Admits (some (.bit true true)) := fun _ x hx => .inr (by cases hx; exact ⟨rfl, rfl⟩)
    have hsure : (MarkedPointer.certain F.input.expr).sure = true := rfl
    have hfetch : W.store.fetch (MarkedPointer.certain F.input.expr).value (some 2) = .ok cs :=
      Store.fetch_eq (by change F.input.expr.tag.arity? = _; rw [hcons]; rfl) (hW ▸ hnode)
    simp only [unhash, if_pos hadmits, hon, hsure, if_true, hfetch, ← hcons]
    rfl
  -- The prelude takes the pair apart first.
  unfold EvalPhase.prelude at hread
  rw [tagIn_eq (by decide) (by decide) (by decide) (.inl rfl), pure_bind, tagIs_eq, pure_bind] at hread
  obtain ⟨⟨pair, W₁⟩, hpair, hrest⟩ := Option.bind_eq_some_iff.1 hread
  obtain ⟨⟨children, W₂⟩, hchildren, hpure⟩ := Option.bind_eq_some_iff.1 hpair
  cases hpure
  have hflag : ((MarkedPointer.certain F.input.expr).value.tag == Tag.cons) = true := beq_iff_eq.2 hcons
  rw [hflag] at hchildren
  cases hrecord.symm.trans hchildren
  have hbehind : ¬(W.record 2 W.store (nodePreimage .cons cs)).Ahead ⟨.eval, 2, 0⟩ := by
    rw [← hkey]
    exact W.not_ahead_record 2 W.store _
  have hprelude := MarkM.passes _ hrest
  rw [P.slots_of_evalRead rfl (hprelude.not_ahead hbehind), hprelude.slots _ hbehind, ← hkey]
  exact Table.get?_set_self ..
end Passage

end FieldLisp
