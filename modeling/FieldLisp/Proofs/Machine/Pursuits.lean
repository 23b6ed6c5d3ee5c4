import FieldLisp.Proofs.Machine.Faithful
import FieldLisp.Proofs.Machine.Safety

/-!
# Pursuits on a continuation

While the machine computes a value for a continuation, it puts nodes on top of the continuation and takes
them off again. What it does until then does not depend on the continuation:

* `EvalPhase.look_within`, `ContPhase.turn_within`: larger stores decide alike;
* `Pursuit`: an expression, an environment, and the nodes on top of a continuation;
* `Pursuit.move`: what a step makes of a pursuit, whatever the continuation is;
* `Machine.Pending.turns`, `Machine.Pending.next`: a step on a state that holds a pursuit on a continuation does that.
-/

namespace FieldLisp

open Store

variable {s t u : Store} {expr env cont base v : Pointer}

/-! ## Decisions on larger stores -/

/-- What the evaluation phase decides does not depend on what else is in the store. -/
theorem EvalPhase.look_within (h : s.Extends u) (hs : s.Sound) (hexpr : s.Holds expr) (henv : s.Holds env)
    (depth : ℕ) : (look depth expr env u).1 = (look depth expr env s).1 := by
  unfold look
  rw [expression_within h hs hexpr]
  cases s.expression expr with
  | «variable» =>
    dsimp only
    rw [lookup_within h hs depth expr henv]
  | _ => rfl

namespace ContPhase

theorem delivery_fst (env : Pointer) {result result' : Except ErrorCode Pointer × Store}
    (h : result'.1 = result.1) : (delivery env result').1 = (delivery env result).1 := by
  obtain ⟨found, t⟩ := result
  obtain ⟨found', t'⟩ := result'
  cases h
  cases found <;> rfl

theorem entry_within (h : s.Extends u) (hs : s.Sound) {function caller : Pointer} {more : Option Pointer}
    (hfunction : s.Holds function) (hmore : ∀ p ∈ more, p.tag = .cons ∧ s.Holds p) :
    (entry u function v caller env more).1 = (entry s function v caller env more).1 := by
  unfold entry
  by_cases htag : function.tag = .function
  · have hpart := h.part_eq hs (by rw [htag]; rfl) hfunction
    rw [if_pos htag, if_pos htag, hpart]
    by_cases hdummy : s.part function 0 = Builtin.noParameterPointer
    · rw [if_pos hdummy, if_pos hdummy]
    · rw [if_neg hdummy, if_neg hdummy]
      cases more with
      | none => simp only [hpart]
      | some rest =>
        obtain ⟨hcons, hrest⟩ := hmore rest rfl
        have hrestPart := h.part_eq hs (by rw [hcons]; rfl) hrest
        simp only [hpart, hrestPart]
  · rw [if_neg htag, if_neg htag]

/-- What the continuation phase decides does not depend on what else is in the store. -/
theorem turn_within (h : s.Extends u) (hs : s.Sound) {w : Waiting}
    (hw : ∀ p ∈ [w.first, w.second, w.third], s.Holds p) (hv : s.Holds v) (env : Pointer) :
    (turn w v env u).1 = (turn w v env s).1 := by
  simp only [List.forall_mem_cons, List.not_mem_nil, false_imp_iff, implies_true, and_true] at hw
  unfold turn
  split
  · by_cases htag : v.tag = .function
    · have hpart := h.part_eq hs (by rw [htag]; rfl) hv
      rw [if_pos htag, if_pos htag, hpart, hpart, hpart]
      split <;> rfl
    · rw [if_neg htag, if_neg htag]
  · split <;> rfl
  · cases hmore : Store.rest? w.second with
    | none => rfl
    | some more =>
      apply entry_within h hs hw.1
      intro p hp
      obtain ⟨rfl, hcons⟩ := Store.of_rest? hmore p hp
      exact ⟨hcons, hw.2.1⟩
  · rfl
  · rfl
  · rfl
  · exact delivery_fst env (unary_within h hs _ hv)
  · rfl
  · exact delivery_fst env (binary_within s u _ _ v)
  · rfl

end ContPhase

/-! ## Pursuits -/

/-- Nodes on top of a continuation, the top one first. -/
def stackOn (base : Pointer) : List Waiting → Pointer
  | [] => base
  | w :: stack => w.onto (stackOn base stack)

/-- An expression to evaluate in an environment, and the nodes that wait for its value. -/
structure Pursuit where
  expr : Pointer
  env : Pointer
  stack : List Waiting

/-- A pursuit on a continuation. -/
def Pursuit.on (pursuit : Pursuit) (base : Pointer) : State := ⟨pursuit.expr, pursuit.env, stackOn base pursuit.stack⟩

/-- What a step makes of a pursuit. -/
inductive Move where
  /-- There is more to do. -/
  | goes (pursuit : Pursuit)
  /-- A value is handed to the continuation. -/
  | returns (v env : Pointer)
  /-- The machine stops with an error value. -/
  | stops (env : Pointer) (code : ErrorCode)

/-- What a turn below some nodes makes of a pursuit. -/
def Turn.move (stack : List Waiting) : Turn → Move
  | stop env code => .stops env code
  | enter expr env => .goes ⟨expr, env, stack⟩
  | wait expr env w => .goes ⟨expr, env, w :: stack⟩

namespace Pursuit

/-- What a step makes of a pursuit, whatever the continuation is. -/
def move (depth : ℕ) (pursuit : Pursuit) (s : Store) : Move :=
  match (EvalPhase.look depth pursuit.expr pursuit.env s).1, pursuit.stack with
  | .value v, [] => .returns v pursuit.env
  | .value v, w :: stack => (ContPhase.turn w v pursuit.env s).1.move stack
  | .turn turn, stack => turn.move stack

/-- The value that is reported in a step, if one is. -/
def report? (depth : ℕ) (pursuit : Pursuit) (s : Store) : Option Pointer :=
  match (EvalPhase.look depth pursuit.expr pursuit.env s).1, pursuit.stack with
  | .value v, w :: _ => w.report? v
  | _, _ => none

end Pursuit

/-- The nodes on top of a continuation were taken in. -/
def Store.Stacked (s : Store) (base : Pointer) : List Waiting → Prop
  | [] => True
  | w :: stack => s.interned[(w.tag, w.children (stackOn base stack))]? = some (w.onto (stackOn base stack)) ∧
      s.Stacked base stack

theorem Store.Stacked.mono {stack : List Waiting} (hgrows : s.Grows t) (h : s.Stacked base stack) :
    t.Stacked base stack := by
  induction stack with
  | nil => trivial
  | cons w stack ih => exact ⟨hgrows.interned h.1, ih h.2⟩

/-- A state and a store that a move leads to, other than one that hands a value to the continuation. -/
inductive Move.Leads (base : Pointer) : Move → State → Store → Prop
  | goes {pursuit : Pursuit} {s : Store} (stacked : s.Stacked base pursuit.stack) :
    Leads base (.goes pursuit) (pursuit.on base) s
  | stops (env : Pointer) (code : ErrorCode) (s : Store) : Leads base (.stops env code) (.fail env code) s

theorem Move.leads_goes_iff {pursuit : Pursuit} {st : State} :
    (goes pursuit).Leads base st s ↔ st = pursuit.on base ∧ s.Stacked base pursuit.stack := by
  constructor
  · rintro ⟨hstacked⟩
    exact ⟨rfl, hstacked⟩
  · rintro ⟨rfl, hstacked⟩
    exact .goes hstacked

theorem Move.leads_stops_iff {st : State} {code : ErrorCode} :
    (stops env code).Leads base st s ↔ st = .fail env code := by
  constructor
  · rintro ⟨⟩
    rfl
  · rintro rfl
    exact .stops env code s

/-- A turn leads to the state that it says. -/
theorem Turn.leads (base : Pointer) (stack : List Waiting) {result : Turn × Store}
    (h : Turn.Inherits Holds s result) (hcont : s.Holds (stackOn base stack)) (hstacked : s.Stacked base stack) :
    (result.1.move stack).Leads base (result.1.state (stackOn base stack))
      (result.1.store (stackOn base stack) result.2) := by
  obtain ⟨turn, t⟩ := result
  obtain ⟨hgrows, hparts⟩ := h
  have hstacked := hstacked.mono hgrows
  cases turn with
  | stop env code => exact .stops env code t
  | enter expr env => exact Move.leads_goes_iff.2 ⟨rfl, hstacked⟩
  | wait expr env w =>
    have hchildren : ∀ c ∈ w.children (stackOn base stack), t.Holds c := by
      simp only [pointers, List.forall_mem_cons] at hparts
      simp [Waiting.children, hparts, hgrows.holds hcont]
    obtain ⟨hput, -⟩ := grows_put hgrows.sound w.arity hchildren
    have hnode := (interned_put_iff hgrows.sound w.arity hchildren).2 (.inr ⟨rfl, rfl⟩)
    exact Move.leads_goes_iff.2 ⟨rfl, hnode, hstacked.mono hput⟩

/-- The children of a node that is found are there. -/
theorem Waiting.holds {w : Waiting} (hs : s.Sound) (hnode : s.nodes[w.onto cont]? = some (w.children cont)) :
    (∀ p ∈ [w.first, w.second, w.third], s.Holds p) ∧ s.Holds cont := by
  obtain ⟨-, -, hheld⟩ := hs.node hnode
  simp only [children, List.forall_mem_cons, List.not_mem_nil, false_imp_iff, implies_true, and_true] at hheld ⊢
  exact ⟨⟨hheld.1, hheld.2.1, hheld.2.2.1⟩, hheld.2.2.2⟩

theorem Waiting.not_halted (w : Waiting) : w.tag.isHalted = false := by
  have harity := w.arity
  cases htag : w.tag <;> rw [htag] at harity <;> first | rfl | cases harity

theorem stackOn_not_halted (hbase : base.tag.isHalted = false) (stack : List Waiting) :
    (stackOn base stack).tag.isHalted = false := by
  cases stack with
  | nil => exact hbase
  | cons w stack => exact w.not_halted

namespace Machine

variable {config : Config} {pursuit : Pursuit}

/-- A pursuit on a continuation, in a store that operations built. -/
structure Pending (base : Pointer) (pursuit : Pursuit) (s : Store) : Prop where
  reachable : Reachable s
  held : (pursuit.on base).Held s
  stacked : s.Stacked base pursuit.stack

theorem middle_eq (config : Config) (pursuit : Pursuit) (hbase : base.tag.isHalted = false) (s : Store) :
    middle config (pursuit.on base) s =
      ((EvalPhase.look config.lookupDepth pursuit.expr pursuit.env s).1.outcome pursuit.env
          (stackOn base pursuit.stack),
        (EvalPhase.look config.lookupDepth pursuit.expr pursuit.env s).1.store (stackOn base pursuit.stack)
          (EvalPhase.look config.lookupDepth pursuit.expr pursuit.env s).2) := by
  have hhalted : ¬(pursuit.on base).isHalted = true := by
    change ¬(stackOn base pursuit.stack).tag.isHalted = true
    rw [stackOn_not_halted hbase]
    exact Bool.false_ne_true
  unfold middle EvalPhase.reduct
  rw [if_neg hhalted]
  exact EvalPhase.evaluate_eq _ _ _ _ s

/-- A step that hands a value to a node leads on as the node says. -/
theorem next_onto {w : Waiting} {st : State} (hnode : t.nodes[w.onto cont]? = some (w.children cont))
    (hmiddle : middle config st s = (⟨⟨v, env, w.onto cont⟩, true⟩, t)) :
    Machine.next config st s = ((ContPhase.turn w v env t).1.state cont,
      (ContPhase.turn w v env t).1.store cont (ContPhase.turn w v env t).2) ∧
    Machine.report? config st s = w.report? v := by
  obtain ⟨hwaiting, hbelow⟩ := waiting_onto hnode
  unfold Machine.next Machine.report?
  rw [hmiddle]
  constructor
  · change ContPhase.resume ⟨v, env, w.onto cont⟩ t = _
    rw [ContPhase.resume_eq w.arity, hwaiting, hbelow]
  · have hfirst : t.part (w.onto cont) 0 = w.first := part_of_node hnode 0
    change (if true = true ∧ w.tag = .unary ∧
      unaryOf? (t.part (w.onto cont) 0) = some .emit then some v else none) = w.report? v
    rw [hfirst]
    simp only [true_and, Waiting.report?]

/-- A step of a pursuit that looks at an expression and goes on leads on as the pursuit says. It reads no node of
the continuation. -/
theorem Pending.turns (h : Pending base pursuit s) (hbase : base.tag.isHalted = false)
    (hu : (middle config (pursuit.on base) s).2.Extends u) {turn : Turn}
    (hturn : (EvalPhase.look config.lookupDepth pursuit.expr pursuit.env s).1 = .turn turn) :
    (pursuit.move config.lookupDepth u).Leads base (next config (pursuit.on base) s).1
        (next config (pursuit.on base) s).2 ∧
      Machine.report? config (pursuit.on base) s = pursuit.report? config.lookupDepth u := by
  have hs := reachable_sound h.reachable
  obtain ⟨hexpr, henv, hcont⟩ : s.Holds pursuit.expr ∧ s.Holds pursuit.env ∧ s.Holds (stackOn base pursuit.stack) :=
    State.held_iff.1 h.held
  obtain ⟨hgrows, -⟩ := middle_moves config hs h.held
  have hlook := EvalPhase.look_within (hgrows.extends_.trans hu) hs hexpr henv config.lookupDepth
  have hinherits := EvalPhase.look_inherits inherited_holds config.lookupDepth hs hexpr henv
  have hmiddle := middle_eq config pursuit hbase s
  unfold Pursuit.move Pursuit.report?
  rw [hlook]
  generalize EvalPhase.look config.lookupDepth pursuit.expr pursuit.env s = result at hinherits hturn hmiddle
  obtain ⟨decision, t⟩ := result
  obtain rfl : decision = .turn turn := hturn
  unfold Machine.next Machine.report?
  rw [hmiddle]
  have hpointers : Turn.Inherits Holds s (turn, t) := hinherits
  exact ⟨Turn.leads base _ hpointers hcont h.stacked, rfl⟩

/-- A step of a pursuit on a continuation hands a value to the continuation, or leads on as the pursuit says. -/
theorem Pending.next (h : Pending base pursuit s) (hbase : base.tag.isHalted = false) (hfaithful : s.Faithful)
    (hu : (middle config (pursuit.on base) s).2.Extends u) :
    (∃ v env, pursuit.move config.lookupDepth u = .returns v env ∧
      (middle config (pursuit.on base) s).1 = ⟨⟨v, env, base⟩, true⟩) ∨
    (pursuit.move config.lookupDepth u).Leads base (next config (pursuit.on base) s).1
        (next config (pursuit.on base) s).2 ∧
      Machine.report? config (pursuit.on base) s = pursuit.report? config.lookupDepth u := by
  cases hdecision : (EvalPhase.look config.lookupDepth pursuit.expr pursuit.env s).1 with
  | turn turn => exact .inr (h.turns hbase hu hdecision)
  | value v =>
  have hs := reachable_sound h.reachable
  obtain ⟨hexpr, henv, -⟩ : s.Holds pursuit.expr ∧ s.Holds pursuit.env ∧ s.Holds (stackOn base pursuit.stack) :=
    State.held_iff.1 h.held
  obtain ⟨hgrows, -⟩ := middle_moves config hs h.held
  have hlook := EvalPhase.look_within (hgrows.extends_.trans hu) hs hexpr henv config.lookupDepth
  obtain ⟨hlookGrows, hlookParts⟩ := EvalPhase.look_inherits inherited_holds config.lookupDepth hs hexpr henv
  have hmiddle := middle_eq config pursuit hbase s
  unfold Pursuit.move Pursuit.report?
  rw [hlook]
  rw [hmiddle] at hu
  have hstacked := h.stacked
  generalize EvalPhase.look config.lookupDepth pursuit.expr pursuit.env s = result
    at hlookGrows hlookParts hu hmiddle hdecision
  obtain ⟨decision, t⟩ := result
  obtain rfl : decision = .value v := hdecision
  have hv : t.Holds v := hlookParts v (by simp [Look.pointers])
  cases hstack : pursuit.stack with
  | nil =>
    rw [hstack] at hmiddle
    exact .inl ⟨v, pursuit.env, rfl, by rw [hmiddle]; rfl⟩
  | cons w stack =>
    right
    rw [hstack] at hstacked hmiddle
    -- The top of the continuation is found, and all its children are there.
    have hnode := hlookGrows.extends_.node (hfaithful _ _ _ hstacked.1)
    obtain ⟨hw, hbelow⟩ := Waiting.holds hlookGrows.sound hnode
    obtain ⟨hnext, hreport⟩ := next_onto hnode hmiddle
    have hturn := ContPhase.turn_within hu hlookGrows.sound hw hv pursuit.env
    have hinherits := ContPhase.turn_inherits inherited_holds hlookGrows.sound hw hv
      (hlookGrows.holds henv)
    rw [hnext, hreport]
    constructor
    · change Move.Leads base ((ContPhase.turn w v pursuit.env u).1.move stack) _ _
      rw [hturn]
      exact Turn.leads base stack hinherits hbelow (hstacked.2.mono hlookGrows)
    · rfl

end Machine

end FieldLisp
