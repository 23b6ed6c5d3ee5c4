import FieldLisp.Proofs.Machine.Currying

/-!
# Bindings and applications

To bind a symbol to a value is to apply a function to it at once, unless the symbol is the one that stands for
no parameter:

* `Machine.bindNode`: a form of bindings waits for a value;
* `Machine.Pending.binds`, `Machine.Pending.applies`, `Machine.Pending.closes`: how either run comes to the value of the
  symbol;
* `Machine.binding_goes`: for so many frames both go on, or they have ended in the same way;
* `Machine.binding_alike`: both go on, halt in one state, or raise the same exception;
* `Specimen.binding_halts`, `Specimen.application_halts`: the forms `(let ((x 5)) x)` and `((lambda (x) x) 5)`.
-/

namespace FieldLisp

open Store

variable {s t u : Store} {config : Config} {p q g x e body others function env base k v : Pointer}
  {recursive : Bool}

namespace Machine

theorem arity_bindTag (recursive : Bool) : (bindTag recursive).arity? = some 4 := by cases recursive <;> rfl

/-- A form of bindings waits for the value of a symbol: its body, and the environment. -/
def bindNode (recursive : Bool) (x body env : Pointer) : Waiting :=
  ⟨bindTag recursive, arity_bindTag recursive, x, body, env⟩

theorem bindNode_silent (recursive : Bool) (x body env v : Pointer) :
    (bindNode recursive x body env).report? v = none :=
  Waiting.silent (show bindTag recursive ≠ .unary by cases recursive <;> decide) v

/-- The value is bound in front of the environment, and the body is entered. -/
theorem turn_bindNode (x body env v env' : Pointer) (u : Store) :
    (ContPhase.turn (bindNode false x body env) v env' u).1 = .enter body (nodePointer .env [x, v, env]) := rfl

/-- A value is bound as the form says. -/
theorem enters_bindNode (recursive : Bool) (x body env v env' : Pointer) (u : Store) :
    (ContPhase.turn (bindNode recursive x body env) v env' u).1 =
      .enter body (nodePointer (bindEnv recursive) [x, v, env]) := by cases recursive <;> rfl

/-- A function takes its last argument. -/
theorem turn_argumentNode (hothers : others.tag = .nil) (hfunction : function.tag = .function)
    (hnode : u.nodes[function]? = some [x, body, env]) (hx : x ≠ Builtin.noParameterPointer)
    (caller v env' : Pointer) :
    (ContPhase.turn (argumentNode function others caller) v env' u).1 =
      .enter body (nodePointer .env [x, v, env]) := by
  have hpart := part_of_node hnode
  have hturn : ContPhase.turn (argumentNode function others caller) v env' u =
      ContPhase.entry u function v caller env' none := by
    simp only [ContPhase.turn, argumentNode, rest?_of_nil hothers]
  rw [hturn, ContPhase.entry, if_pos hfunction, if_neg (by rw [hpart]; exact hx), hpart, hpart, hpart]
  rfl

/-- A form of bindings evaluates what the symbol is bound to. -/
theorem Pending.binds (config : Config) (h : Pending base ⟨p, env, []⟩ s) (hbase : base.tag.isHalted = false)
    (hp : s.IsBind recursive p x e body) (hx : x.tag = .symbol) :
    ∃ F t, F.emitted = [] ∧
      RanTo config (Pursuit.on ⟨p, env, []⟩ base) s [F] (Pursuit.on ⟨e, env, [bindNode recursive x body env]⟩ base) t ∧
      Pending base ⟨e, env, [bindNode recursive x body env]⟩ t := by
  apply h.waits config hbase
  simp only [EvalPhase.look, hp.expression_eq hx]
  rfl

/-- A call with one argument evaluates its head. -/
theorem Pending.applies (config : Config) (h : Pending base ⟨q, env, []⟩ s) (hbase : base.tag.isHalted = false)
    (hq : s.items 2 q = some [g, e]) (hg : formOf? g = none) :
    ∃ others F t, others.tag = .nil ∧ F.emitted = [] ∧
      RanTo config (Pursuit.on ⟨q, env, []⟩ base) s [F] (Pursuit.on ⟨g, env, [callNode e others env]⟩ base) t ∧
      Pending base ⟨g, env, [callNode e others env]⟩ t := by
  obtain ⟨others, hothers, hcall⟩ := expression_call hq hg
  have hlook : (EvalPhase.look config.lookupDepth q env s).1 = .turn (.wait g env (callNode e others env)) := by
    simp only [EvalPhase.look, hcall]
    rfl
  obtain ⟨F, t, hemitted, hran, hpending⟩ := h.waits config hbase hlook
  exact ⟨others, F, t, hothers, hemitted, hran, hpending⟩

/-- The head of a call has a function for its value, which waits for the argument. -/
theorem Pending.closes (config : Config) (h : Pending base ⟨g, env, [callNode e others env]⟩ s)
    (hbase : base.tag.isHalted = false)
    (hfaithful : s.Faithful) (hg : s.expression g = .lambda x none body) :
    ∃ F t, F.emitted = [] ∧ RanTo config (Pursuit.on ⟨g, env, [callNode e others env]⟩ base) s [F]
        (Pursuit.on ⟨e, env, [argumentNode (nodePointer .function [x, body, env]) others env]⟩ base) t ∧
      Pending base ⟨e, env, [argumentNode (nodePointer .function [x, body, env]) others env]⟩ t ∧
      t.interned[(Tag.function, [x, body, env])]? = some (nodePointer .function [x, body, env]) := by
  have hs := reachable_sound h.reachable
  obtain ⟨hheld, henv, -⟩ : s.Holds g ∧ s.Holds env ∧ _ := State.held_iff.1 h.held
  have hmiddle := middle_eq config ⟨g, env, [callNode e others env]⟩ hbase s
  have hlook : EvalPhase.look config.lookupDepth g env s =
      (.value (nodePointer .function [x, body, env]), s.put .function [x, body, env]) := by
    simp only [EvalPhase.look, hg]
    rfl
  obtain ⟨hgrows, -⟩ := EvalPhase.look_inherits inherited_holds config.lookupDepth hs hheld henv
  have hlater := EvalPhase.look_within hgrows.extends_ hs hheld henv config.lookupDepth
  rw [hlook] at hmiddle hlater
  have hmove : Pursuit.move config.lookupDepth ⟨g, env, [callNode e others env]⟩ (s.put .function [x, body, env]) =
      .goes ⟨e, env, [argumentNode (nodePointer .function [x, body, env]) others env]⟩ := by
    rw [Pursuit.move, hlater]
    rfl
  have hreport : Pursuit.report? config.lookupDepth ⟨g, env, [callNode e others env]⟩
      (s.put .function [x, body, env]) = none := by
    rw [Pursuit.report?, hlater]
    exact callNode_silent ..
  have hu : (middle config (Pursuit.on ⟨g, env, [callNode e others env]⟩ base) s).2.Extends
      (s.put .function [x, body, env]) := by
    rw [hmiddle]
    exact .refl _
  obtain ⟨hleads, hreported⟩ := (h.next hbase hfaithful hu).resolve_left (by
    rintro ⟨v, env', hreturns, -⟩
    cases hmove.symm.trans hreturns)
  rw [hmove] at hleads
  obtain ⟨F, t, hemitted, hran, hpending⟩ := h.goes config hleads (hreported.trans hreport)
  have hparts := inherited_holds.expression hs hheld
  rw [hg] at hparts
  have hchildren : ∀ c ∈ [x, body, env], s.Holds c := by
    simp only [Expression.pointers, List.forall_mem_cons] at hparts
    simp [hparts, henv]
  have harity : Tag.function.arity? = some [x, body, env].length := rfl
  have htaken := (interned_put_iff hs harity hchildren).2 (.inr ⟨rfl, rfl⟩)
  obtain ⟨-, hgrows⟩ := middle_grows config h.reachable h.held
  rw [hmiddle, (eq_ok_iff.1 hran.single).2] at hgrows
  exact ⟨F, t, hemitted, hran, hpending, hgrows.interned htaken⟩

section
variable (hs : Reachable s) (hp : s.IsBind false p x e body) (hq : s.items 2 q = some [g, e])
  (hg : s.IsLambda g x body) (hx : x.tag = .symbol) (hpHeld : s.Holds p) (hqHeld : s.Holds q)
  (henv : s.Holds env) (hk : s.Holds k) (hmoving : k.tag.isHalted = false)
include hs hp hq hg hx hpHeld hqHeld henv hk hmoving

/-- Both runs come to the evaluation of what the symbol is bound to, the application a frame later. -/
theorem binding_opens {n : ℕ} (hapart : Apart config 1 (n + 1) ⟨p, env, k⟩ s ⟨q, env, k⟩ s) :
    ∃ function others frames frames' t t', function = nodePointer .function [x, body, env] ∧
      others.tag = .nil ∧ t'.nodes[function]? = some [x, body, env] ∧
      t.Stacked k [bindNode false x body env] ∧ t'.Stacked k [argumentNode function others env] ∧
      frames.length = 1 ∧ InStep config 1 ⟨p, env, k⟩ s ⟨q, env, k⟩ s frames frames'
        ((bindNode false x body env).onto k) ((argumentNode function others env).onto k) ⟨e, env, []⟩ t t' := by
  have hsound := reachable_sound hs
  have hheld : State.Held ⟨p, env, k⟩ s := State.held_iff.2 ⟨hpHeld, henv, hk⟩
  have hheld' : State.Held ⟨q, env, k⟩ s := State.held_iff.2 ⟨hqHeld, henv, hk⟩
  have hleft : Pending k ⟨p, env, []⟩ s := ⟨hs, hheld, trivial⟩
  have hright : Pending k ⟨q, env, []⟩ s := ⟨hs, hheld', trivial⟩
  obtain ⟨F, t, hemitted, hran, hpending⟩ := hleft.binds config hmoving hp hx
  -- The application first makes a function of its head.
  obtain ⟨others, F₁, t₁, hothers, hemitted₁, hran₁, hpending₁⟩ := hright.applies config hmoving hq hg.formOf?_eq
  have hgHeld : s.Holds g := (items_cons.1 hq).2.1 ▸ hsound.holds_car hqHeld
  have hlambda := expression_within (hright.grows hran₁).extends_ hsound hgHeld
  rw [hg.expression_eq hx] at hlambda
  have hknown₁ := hran₁.content_subset hs hheld' (show [F₁].length ≤ n + 1 + 1 by simp)
  have hfaithful₁ := faithful_of_injOn hapart hpending₁.reachable (hknown₁.trans Set.subset_union_right)
  obtain ⟨F₂, t₂, hemitted₂, hran₂, hpending₂, hfunction⟩ :=
    hpending₁.closes config hmoving hfaithful₁ hlambda
  have hran' := hran₁.trans hran₂
  have hknown₂ := hran'.content_subset hs hheld' (show [F₁, F₂].length ≤ n + 1 + 1 by simp)
  have hfaithful₂ := faithful_of_injOn hapart hpending₂.reachable (hknown₂.trans Set.subset_union_right)
  exact ⟨_, others, [F], [F₁, F₂], t, t₂, rfl, hothers, hfaithful₂ _ _ _ hfunction, hpending.stacked,
    hpending₂.stacked, rfl, hran, hran', ⟨rfl, by simp [hemitted, hemitted₁, hemitted₂]⟩, hpending.above,
    hpending₂.above⟩

/-- For so many frames in which nothing collides, both runs go on, or they have ended in the same way. -/
theorem binding_goes {n : ℕ} (hnamed : x ≠ Builtin.noParameterPointer)
    (hapart : Apart config 1 n ⟨p, env, k⟩ s ⟨q, env, k⟩ s) :
    Ongoing config 1 n ⟨p, env, k⟩ s ⟨q, env, k⟩ s ∨ Ends config 1 ⟨p, env, k⟩ s ⟨q, env, k⟩ s := by
  have hheld : State.Held ⟨p, env, k⟩ s := State.held_iff.2 ⟨hpHeld, henv, hk⟩
  have hheld' : State.Held ⟨q, env, k⟩ s := State.held_iff.2 ⟨hqHeld, henv, hk⟩
  cases n with
  | zero =>
    have hright : Pending k ⟨q, env, []⟩ s := ⟨hs, hheld', trivial⟩
    obtain ⟨others, F, t, -, hemitted, hran, -⟩ := hright.applies config hmoving hq hg.formOf?_eq
    exact .inl ⟨[], [F], _, _, s, t, Nat.le_refl 0, .nil _ _ _, hran, ⟨rfl, by simp [hemitted]⟩, hmoving,
      Waiting.not_halted _⟩
  | succ n =>
  obtain ⟨function, others, frames, frames', t, t', hfunction, hothers, hnode, hstacked, hstacked', hfirst, hopen⟩ :=
    binding_opens hs hp hq hg hx hpHeld hqHeld henv hk hmoving hapart
  have hlater : Apart config 0 n _ t _ t' := hapart.later hopen.left hopen.right (by omega) hopen.matched.length
  rw [show n + 1 = frames.length + n by omega]
  apply hopen.ongoing_or_ends (Waiting.not_halted _) (Waiting.not_halted _) hlater
  intro more more' pursuit u u' v env' hlength hgrows hgrows' hreached hrest hvalue hvalue'
  -- Both bind the value in front of the environment, and go on in one state.
  obtain ⟨F, F', r, r', m, hhanded, -, hkept⟩ := hreached.hands hrest (Nat.sub_pos_of_lt hlength)
    (hstacked.mono hgrows) (hstacked'.mono hgrows') (bindNode_silent ..) (argumentNode_silent ..) hvalue hvalue'
  obtain ⟨hleft, hright, hmatched, -, hleads, hleads', -, hcommon⟩ := hhanded
  have hfound := hcommon.node ((hgrows'.trans hkept).extends_.node hnode)
  rw [turn_bindNode, Turn.move, Move.leads_goes_iff] at hleads
  rw [turn_argumentNode hothers (by rw [hfunction]; rfl) hfound hnamed, Turn.move, Move.leads_goes_iff] at hleads'
  rw [hleads.1] at hleft
  rw [hleads'.1] at hright
  obtain ⟨hr, hrheld⟩ := hleft.reachable hs hheld
  obtain ⟨hr', hrheld'⟩ := hright.reachable hs hheld'
  have hframes : (frames ++ more ++ [F]).length + (n - more.length - 1) = frames.length + n := by
    simp only [List.length_append, List.length_singleton]
    omega
  have hlast := hapart.later hleft hright (hframes.trans (by omega)) hmatched.length
  rw [← hframes]
  exact (ongoing_or_ends hr hr' hrheld hrheld' hlast).imp (Ongoing.before hleft hright hmatched)
    (Ends.before hleft hright hmatched)

/-- To bind a symbol is to apply a function to the value at once, unless the symbol stands for no parameter: both
runs go on for as many frames as nothing collides in, both halt in one state and have reported the same, or both raise
the same exception. -/
theorem binding_alike (hnamed : x ≠ Builtin.noParameterPointer) : Alike config 1 ⟨p, env, k⟩ s ⟨q, env, k⟩ s :=
  .of_forall fun _ hapart => binding_goes hs hp hq hg hx hpHeld hqHeld henv hk hmoving hnamed hapart

end

end Machine

/-! ### The identity -/

namespace Specimen

open Machine

section
variable (config : Config) (hx : x = named ∨ x = Builtin.noParameterPointer) (h : Prepared s)
include hx h

/-- The number is found in the environment of the binding, and the run ends. -/
theorem body_visits (hdeep : 0 < config.lookupDepth) (hst : State.Held ⟨x, scope x five, .outermost⟩ s)
    (hscope : s.nodes[scope x five]? = some [x, five, .nil]) :
    Visits config {xs | xs ∈ preimages} [⟨x, scope x five, .outermost⟩] ⟨x, scope x five, .outermost⟩ s
      ⟨five, scope x five, .terminal⟩ s :=
  (h.bounded.ends config hst (look_body config hx hdeep hscope) h.bounded.content).visits

/-- The form `(let ((x 5)) x)` comes to the number. -/
theorem binding_halts (hdeep : 0 < config.lookupDepth) : ∃ inputs t, Visits config {xs | xs ∈ preimages} inputs
    ⟨letForm x, .nil, .outermost⟩ s ⟨five, scope x five, .terminal⟩ t := by
  have htag : x.tag = .symbol := by rcases hx with rfl | rfl <;> rfl
  have hsound := reachable_sound h.bounded.reachable
  have hheld := (h.pair_letForm hx).holds hsound
  have hst : State.Held ⟨letForm x, .nil, .outermost⟩ s := held_initial hheld.1 s.holds_nil
  have hlook : EvalPhase.look config.lookupDepth (letForm x) .nil s =
      (.turn (.wait five .nil (bindNode false x x .nil)), s) := by
    simp only [EvalPhase.look, (h.isBind hx).expression_eq htag]
    rfl
  obtain ⟨t, hpasses, hnode⟩ := h.bounded.looks config injOn_preimages hst rfl hlook h.bounded.content
    (formTaken_mem hx (by simp [formTaken, bindNode, bindTag, Waiting.children]))
  have ht := hpasses.bounded
  have hwaiting := (reachable_sound ht.reachable).node hnode
  simp only [Waiting.children, bindNode, List.forall_mem_cons] at hwaiting
  have hfive : t.Holds five := t.holds_immediate (Pointer.immediate_canonical _ _) rfl
  have harity : Tag.env.arity? = some [x, five, .nil].length := rfl
  obtain ⟨hput, -, hscope⟩ := ht.put injOn_preimages harity (by simp [hwaiting, hfive])
    (formTaken_mem hx (by simp [formTaken]))
  have hturn : ContPhase.turn (bindNode false x x .nil) five .nil t =
      (.enter x (scope x five), t.put .env [x, five, .nil]) := rfl
  obtain ⟨u, hpasses', hmore, -⟩ := ht.hands config injOn_preimages hpasses.held hnode rfl (bindNode_silent ..) hturn
    hput.content trivial
  have hu := h.mono hpasses'.bounded (hpasses.grows.trans hpasses'.grows)
  have hends := body_visits config hx hu hdeep hpasses'.held (hmore.extends_.node hscope)
  exact ⟨_, u, hpasses.visits.trans (hpasses'.visits.trans hends)⟩

/-- The form `((lambda (x) x) 5)` comes to the number too, or fails if the symbol stands for no parameter. -/
theorem application_halts (hdeep : 0 < config.lookupDepth) :
    ∃ inputs final t,
      Visits config {xs | xs ∈ preimages} inputs ⟨application x, .nil, .outermost⟩ s final t ∧
      final.isHalted = true ∧ (x = Builtin.noParameterPointer → final.isFailed = true) := by
  have happlication := h.pair_application hx
  have hst : State.Held ⟨application x, .nil, .outermost⟩ s :=
    held_initial (happlication.holds (reachable_sound h.bounded.reachable)).1 s.holds_nil
  obtain ⟨_, t, hvisits, ht⟩ := Specimen.applies config hx h hst rfl happlication h.pair_fives
    (taken_mem (by simp [taken, callTaken])) (formTaken_mem hx (by simp [formTaken]))
  by_cases hparameter : x = Builtin.noParameterPointer
  · have hpart := part_of_node ht.closure
    have hturn : ContPhase.turn (argumentNode (closure x) .nil .nil) five .nil t = (.stop .nil .argumentError, t) := by
      have hfunction : (closure x).tag = .function := rfl
      change ContPhase.entry t (closure x) five .nil .nil none = _
      rw [ContPhase.entry, if_pos hfunction, hpart]
      exact if_pos hparameter
    obtain ⟨u, hpasses, -⟩ := ht.bounded.hands config injOn_preimages hvisits.held ht.waiting rfl
      (argumentNode_silent ..) hturn ht.bounded.content trivial
    exact ⟨_, _, u, hvisits.trans hpasses.visits, rfl, fun _ => rfl⟩
  · have hfive : t.Holds five := t.holds_immediate (Pointer.immediate_canonical _ _) rfl
    obtain ⟨hcontent, hscope⟩ := put_scope ht.bounded ht.closure hfive (formTaken_mem hx (by simp [formTaken]))
    obtain ⟨u, hpasses, hgrows, -⟩ := ht.bounded.hands config injOn_preimages hvisits.held ht.waiting rfl
      (argumentNode_silent ..) (turn_identity ht.closure hparameter) hcontent trivial
    have hu := ht.toPrepared.mono hpasses.bounded hpasses.grows
    have hends := body_visits config hx hu hdeep hpasses.held (hgrows.extends_.node hscope)
    exact ⟨_, _, u, hvisits.trans (hpasses.visits.trans hends), rfl, fun h => absurd h hparameter⟩

end

end Specimen

namespace Machine

open Specimen

/-- The forms `(let ((x 5)) x)` and `((lambda (x) x) 5)` both come to rest with the number. -/
theorem binding_alike_identity : ∃ s : Store, Reachable s ∧ s.IsBind false (letForm named) named five named ∧
    s.items 2 (application named) = some [lambdaForm named, five] ∧ s.IsLambda (lambdaForm named) named named ∧
    named.tag = .symbol ∧ s.Holds (letForm named) ∧ s.Holds (application named) ∧ s.Holds .nil ∧ s.Holds .outermost ∧
    Pointer.outermost.tag.isHalted = false ∧ named ≠ Builtin.noParameterPointer ∧
    ∃ frames frames' t t', Meets .standard 1 ⟨letForm named, .nil, .outermost⟩ s ⟨application named, .nil, .outermost⟩ s
      frames frames' ⟨five, scope named five, .terminal⟩ t t' := by
  obtain ⟨s, h⟩ := exists_prepared
  have hs := h.bounded.reachable
  have hlet := ((h.pair_letForm (.inl rfl)).holds (reachable_sound hs)).1
  have happlication := ((h.pair_application (.inl rfl)).holds (reachable_sound hs)).1
  have hst : State.Held ⟨letForm named, .nil, .outermost⟩ s := held_initial hlet s.holds_nil
  have hst' : State.Held ⟨application named, .nil, .outermost⟩ s := held_initial happlication s.holds_nil
  obtain ⟨_, t, frames, -, hran, ht, -⟩ := binding_halts .standard (.inl rfl) h (by decide)
  obtain ⟨_, final, t', ⟨frames', -, hran', ht', -⟩, hhalted, -⟩ := application_halts .standard (.inl rfl) h (by decide)
  have hapart : Apart .standard 1 frames.length ⟨letForm named, .nil, .outermost⟩ s
      ⟨application named, .nil, .outermost⟩ s :=
    apart_of_halting injOn_preimages hs hs hst hst' hran hran' rfl hhalted ht.content ht'.content
  refine ⟨s, hs, h.isBind (.inl rfl), h.items_application (.inl rfl), h.isLambda (.inl rfl), rfl, hlet, happlication,
    s.holds_nil, holds_outermost s, rfl, named_ne_noParameter, ?_⟩
  cases binding_alike hs (h.isBind (.inl rfl)) (h.items_application (.inl rfl)) (h.isLambda (.inl rfl)) rfl hlet
      happlication s.holds_nil (holds_outermost s) rfl named_ne_noParameter with
  | endless ongoing =>
    obtain ⟨others, -, last, -, u, -, hlength, hothers, -, -, hmoving, -⟩ := ongoing _ hapart
    rw [hran.final_eq hs hst rfl hothers hlength] at hmoving
    cases hmoving
  | ends ends =>
    cases ends with
    | halts others others' last u u' meets halted =>
      rw [← hran.halts_once hs hst rfl meets.left halted] at meets
      exact ⟨others, others', u, u', meets⟩
    | raises fault left right =>
      obtain ⟨n, u, hsteps⟩ := left
      obtain ⟨⟨others, r, hok⟩, -⟩ := hran.rests hs hst rfl n
      cases hsteps.symm.trans hok

/-- A symbol that stands for no parameter can be bound, but no function takes an argument for it: with a number for its
value, one run ends with the number and the other one fails. -/
theorem binding_noParameter : ∃ s : Store, Reachable s ∧
    s.IsBind false (letForm Builtin.noParameterPointer) Builtin.noParameterPointer five Builtin.noParameterPointer ∧
    s.items 2 (application Builtin.noParameterPointer) = some [lambdaForm Builtin.noParameterPointer, five] ∧
    s.IsLambda (lambdaForm Builtin.noParameterPointer) Builtin.noParameterPointer Builtin.noParameterPointer ∧
    Builtin.noParameterPointer.tag = .symbol ∧ s.Holds (letForm Builtin.noParameterPointer) ∧
    s.Holds (application Builtin.noParameterPointer) ∧
    (∀ n, Apart .standard 1 n ⟨letForm Builtin.noParameterPointer, .nil, .outermost⟩ s
      ⟨application Builtin.noParameterPointer, .nil, .outermost⟩ s) ∧
    ¬(Endless .standard ⟨letForm Builtin.noParameterPointer, .nil, .outermost⟩ s ∧
        Endless .standard ⟨application Builtin.noParameterPointer, .nil, .outermost⟩ s ∨
      ∃ frames frames' final t t',
        RanTo .standard ⟨letForm Builtin.noParameterPointer, .nil, .outermost⟩ s frames final t ∧
        RanTo .standard ⟨application Builtin.noParameterPointer, .nil, .outermost⟩ s frames' final t' ∧
        final.isHalted = true ∧ frames.flatMap Frame.emitted = frames'.flatMap Frame.emitted) := by
  obtain ⟨s, h⟩ := exists_prepared
  have hs := h.bounded.reachable
  have hlet := ((h.pair_letForm (.inr rfl)).holds (reachable_sound hs)).1
  have happlication := ((h.pair_application (.inr rfl)).holds (reachable_sound hs)).1
  have hst := held_initial hlet s.holds_nil
  have hst' := held_initial happlication s.holds_nil
  obtain ⟨_, t, frames, -, hran, ht, -⟩ := binding_halts .standard (.inr rfl) h (by decide)
  obtain ⟨_, final, t', ⟨frames', -, hran', ht', -⟩, hhalted, hfailed⟩ :=
    application_halts .standard (.inr rfl) h (by decide)
  refine ⟨s, hs, h.isBind (.inr rfl), h.items_application (.inr rfl), h.isLambda (.inr rfl), rfl, hlet, happlication,
    fun n => apart_of_halting injOn_preimages hs hs hst hst' hran hran' rfl hhalted ht.content ht'.content, ?_⟩
  rintro (⟨hendless, -⟩ | ⟨others, others', last, u, u', hothers, hothers', hlast, -⟩)
  · exact hran.not_endless hs hst rfl hendless
  · have hsame := hran.halts_once hs hst rfl hothers hlast
    have hsame' := hran'.halts_once hs hst' hhalted hothers' hlast
    have hfails := hfailed rfl
    rw [hsame', ← hsame] at hfails
    cases hfails

end Machine

end FieldLisp
