import FieldLisp.Proofs.Machine.Evaluations
import FieldLisp.Proofs.Machine.RecursiveBindings

/-!
# Evaluations of recursive bindings

An evaluation of a form of bindings that is completed with a number stays so if the binding is made recursive, unless
its frames tell the two kinds apart:

* `Machine.recursive_binding_completes`: both evaluations are completed with one number, or they part later;
* `Store.Mentions`: a symbol occurs in an expression;
* `Capture.Calling`, `Capture.saved`: a function that is called by the symbol that it is bound to, and the environment
  that it has then;
* `Machine.recursive_binding_differs`: there are two evaluations that part for each way to tell the two kinds apart.
-/

namespace FieldLisp

open Store

variable {s t u : Store} {known : Set (List Int)} {config : Config} {st st' : State} {frames : List Frame} {r : Store}
  {p q x e body env final : Pointer}

namespace Machine

/-! ## Evaluations -/

/-- If the evaluation of a form of bindings is completed with a number, then the evaluation of its recursive kind is
completed with this number, and the same budget is enough, or the two runs bind one value and tell the two kinds apart
later: a lookup strays into the environment of a function, or exceeds its bound, or two functions are compared. -/
theorem recursive_binding_completes {E : Evaluation} {budget : Int} (hs : Reachable s) (hp : s.IsBind false p x e body)
    (hq : s.IsBind true q x e body) (hx : x.tag = .symbol) (hpHeld : s.Holds p) (hqHeld : s.Holds q)
    (henv : s.Holds env) (heval : evaluate config budget false p (some env) s = .ok E t)
    (hapart : Apart config 0 E.frames.length (.initial p env) s (.initial q env) s) (hcompleted : E.reason = .completed)
    (hnumber : E.result.tag = .number) :
    (∃ E' t', evaluate config budget false q (some env) s = .ok E' t' ∧ E'.reason = .completed ∧
      E'.result = E.result) ∨
    PartLater config t x body env (.initial q env) s E.frames := by
  obtain ⟨hbudget, -, -, hinitial, hrun⟩ := evaluate_eq_ok.1 heval
  obtain ⟨added, hframes, hran, -, hlength, hstop⟩ := run_ran hrun
  rw [List.reverse_nil, List.nil_append] at hframes
  rw [← hframes] at hran hlength hstop
  have hfinal := (reason_of_stop hstop).1.1 hcompleted
  change E.initial = .initial p env at hinitial
  have hresult : E.result = (finalState (.initial p env) E.frames).expr := by
    rw [Evaluation.result, Evaluation.final, hinitial]
  rw [hinitial] at hran hfinal
  rw [hresult] at hnumber ⊢
  rcases bindings_complete hs hp hq hx hpHeld hqHeld henv ⟨hran, rfl⟩ hfinal hapart hnumber with
    ⟨frames', last, r', hframes', hmoves, hran', hlast⟩ | hpart
  · have heval' : evaluate config budget false q (some env) s = .ok ⟨frames', .completed, .initial q env⟩ r' :=
      evaluate_of_ran hqHeld henv ⟨hran', hlast⟩ hmoves rfl (by omega)
    have hexpr := congrArg State.expr hlast
    exact .inl ⟨_, r', heval', rfl, hexpr⟩
  · exact .inr hpart

end Machine

/-! ## Calls without arguments -/

namespace Machine

/-- A call without arguments waits for its function. -/
def headNode (env : Pointer) : Waiting := ⟨.call0, Tag.arity_call0, env, .nil, .nil⟩

theorem headNode_silent (env v : Pointer) : (headNode env).report? v = none :=
  Waiting.silent (show Tag.call0 ≠ .unary by decide) v

/-- A function without parameters is entered. -/
theorem turn_headNode {v outer : Pointer} (hfunction : v.tag = .function)
    (hnode : u.nodes[v]? = some [Builtin.noParameterPointer, body, outer]) (env env' : Pointer) :
    ContPhase.turn (headNode env) v env' u = (.enter body outer, u) := by
  have hpart := part_of_node hnode
  have hparameter : u.part v 0 = Builtin.noParameterPointer := hpart 0
  change (if v.tag = .function then _ else _) = _
  rw [if_pos hfunction, if_pos hparameter, hpart, hpart]
  rfl

end Machine

/-! ## Symbols in expressions -/

namespace Store

/-- A symbol occurs in an expression. -/
inductive Mentions (s : Store) (x : Pointer) : Pointer → Prop
  | here : Mentions s x x
  | car {p : Pointer} (htag : p.tag = .cons) (h : s.Mentions x (s.car p)) : Mentions s x p
  | cdr {p : Pointer} (htag : p.tag = .cons) (h : s.Mentions x (s.cdr p)) : Mentions s x p

theorem mentions_leaf (htag : p.tag ≠ .cons) (h : s.Mentions x p) : p = x := by
  cases h with
  | here => rfl
  | car hcons | cdr hcons => exact absurd hcons htag

/-- A symbol that does not occur in the parts of a pair does not occur in the pair. -/
theorem IsPair.unmentioned {a b : Pointer} (h : s.IsPair p a b) (hx : x.tag = .symbol) (ha : ¬s.Mentions x a)
    (hb : ¬s.Mentions x b) : ¬s.Mentions x p := by
  intro hmentions
  cases hmentions with
  | here => exact nomatch h.tag.symm.trans hx
  | car _ hcar => exact ha (h.car ▸ hcar)
  | cdr _ hcdr => exact hb (h.cdr ▸ hcdr)

end Store

/-! ### A function that captures a binding -/

namespace Capture

open Machine

/-- The symbol that is bound does not occur in the expressions. -/
theorem Prepared.unmentioned (h : Prepared s) (he : e = abstraction ∨ e = delayed) : ¬s.Mentions callee e := by
  have part {a b : Pointer} (hab : (a, b) ∈ expressionParts) (ha : ¬s.Mentions callee a) (hb : ¬s.Mentions callee b) :
      ¬s.Mentions callee (Specimen.pair a b) := (h.expression hab).unmentioned rfl ha hb
  have leaf {p : Pointer} (htag : p.tag ≠ .cons) (hsymbol : p.tag ≠ .symbol) : ¬s.Mentions callee p := fun h =>
    hsymbol (congrArg Pointer.tag (mentions_leaf htag h))
  have symbol {name : String} (hname : name ∈ names) (hne : name ≠ "x") : ¬s.Mentions callee (symbolPointer name) :=
    fun h => symbol_ne hname (by simp [names]) hne (mentions_leaf (show Tag.symbol ≠ .cons by decide) h)
  have hnil : ¬s.Mentions callee .nil := leaf (by decide) (by decide)
  have hcaptured : ¬s.Mentions callee captured := symbol (by simp [names]) (by decide)
  have hlambda : ¬s.Mentions callee Form.lambda.symbol := by
    rw [Form.symbol_eq]
    exact symbol (by decide) (by decide)
  have hresult := part (by simp [expressionParts]) hcaptured hnil
  have harguments := part (b := result) (by simp [expressionParts]) hnil hresult
  have habstraction : ¬s.Mentions callee abstraction := part (by simp [expressionParts]) hlambda harguments
  rcases he with rfl | rfl
  · exact habstraction
  · have hlet : ¬s.Mentions callee Form.bindLet.symbol := by
      rw [Form.symbol_eq]
      exact symbol (by decide) (by decide)
    have hfive : ¬s.Mentions callee Specimen.five := leaf (by decide) (by decide)
    have hfives := part (by simp [expressionParts]) hfive hnil
    have hbinding := part (b := Specimen.fives) (by simp [expressionParts]) hcaptured hfives
    have hbindings := part (a := binding) (by simp [expressionParts]) hbinding hnil
    have habstractions := part (by simp [expressionParts]) habstraction hnil
    have hdelayed := part (a := bindings) (b := abstractions) (by simp [expressionParts]) hbindings habstractions
    exact part (b := delayedArguments) (by simp [expressionParts]) hlet hdelayed

/-- The environment of the function that the symbol is bound to, when it is looked up. -/
def saved (recursive : Bool) (env : Pointer) : Pointer := if recursive then bound .recEnv env else scope

/-- The nodes of a store in which the body is evaluated. -/
structure Calling (recursive : Bool) (env : Pointer) (s : Store) : Prop extends Prepared s where
  closure : s.nodes[closure]? = some [Builtin.noParameterPointer, captured, Capture.scope]
  bound : s.nodes[bound (bindEnv recursive) env]? = some [callee, Capture.closure, env]

theorem Calling.mono {recursive : Bool} {env : Pointer} (h : Calling recursive env s)
    (ht : t.Bounded {xs | xs ∈ preimages}) (hgrows : s.Grows t) : Calling recursive env t :=
  ⟨h.toPrepared.mono ht hgrows, hgrows.extends_.node h.closure, hgrows.extends_.node h.bound⟩

section
variable {recursive : Bool} {env : Pointer} (config : Config)

theorem callee_ne {name : String} (hname : name ∈ Builtin.names) : callee ≠ symbolPointer name :=
  symbol_ne (by simp [names]) (by simp [names, hname]) (by rintro rfl; revert hname; decide)

theorem captured_ne {name : String} (hname : name ∈ Builtin.names) : captured ≠ symbolPointer name :=
  symbol_ne (by simp [names]) (by simp [names, hname]) (by rintro rfl; revert hname; decide)

theorem callee_ne_captured : callee ≠ captured := symbol_ne (by simp [names]) (by simp [names]) (by decide)

theorem expression_callee : s.expression callee = .variable := by
  have htruth : callee ≠ Builtin.truthPointer := callee_ne (by decide)
  exact if_neg htruth

theorem expression_captured : s.expression captured = .variable := by
  have htruth : captured ≠ Builtin.truthPointer := captured_ne (by decide)
  exact if_neg htruth

theorem formOf?_callee : formOf? callee = none := by
  cases hform : formOf? callee with
  | none => rfl
  | some form =>
    have hsymbol := (EvalPhase.symbol_of_form hform).trans (Form.symbol_eq form)
    have hname : form.name ∈ Builtin.names :=
      List.mem_cons_of_mem _ (List.mem_cons_of_mem _ (List.mem_map_of_mem (Form.mem_all form)))
    exact absurd hsymbol (callee_ne hname)

theorem expression_call (h : Prepared s) : s.expression call = .call0 callee := by
  have hcall : s.IsPair call callee .nil := h.expression (by simp [expressionParts])
  rw [expression_of_call hcall.tag (by rw [hcall.car]; exact formOf?_callee), callExpression, hcall.car, hcall.cdr]
  exact if_pos rfl

/-- The expression `(lambda () y)` has a function for its value. -/
theorem look_abstraction (h : Prepared s) (env : Pointer) : EvalPhase.look config.lookupDepth abstraction env s =
    (.value (nodePointer .function [Builtin.noParameterPointer, captured, env]),
      s.put .function [Builtin.noParameterPointer, captured, env]) := by
  simp only [EvalPhase.look, h.expression_abstraction]
  rfl

omit config in
/-- The function of the expression is taken in, and found. -/
theorem abstraction_put (h : Prepared s) (habstraction : s.Holds abstraction) (henv : s.Holds env)
    (hlisted : (.function, [Builtin.noParameterPointer, captured, env]) ∈ listed) :
    (s.put .function [Builtin.noParameterPointer, captured, env]).Bounded {xs | xs ∈ preimages} ∧
      s.Grows (s.put .function [Builtin.noParameterPointer, captured, env]) ∧
      (s.put .function [Builtin.noParameterPointer, captured, env]).HasNode .function
        [Builtin.noParameterPointer, captured, env] := by
  have hparts := inherited_holds.expression (reachable_sound h.bounded.reachable) habstraction
  rw [h.expression_abstraction] at hparts
  simp only [Expression.pointers, Option.toList_none, List.forall_mem_cons] at hparts
  have harity : Tag.function.arity? = some [Builtin.noParameterPointer, captured, env].length := rfl
  exact h.bounded.put injOn_preimages harity (by simp [hparts, henv]) (mem_preimages hlisted)

/-- The symbol is found in the environment of the body; a function that is bound recursively is closed over it. -/
theorem callee_found (h : Calling recursive env s) (henv : env = scope ∨ env = .nil) (hdeep : 0 < config.lookupDepth) :
    ∃ t, EvalPhase.look config.lookupDepth callee (bound (bindEnv recursive) env) s =
        (.value (nodePointer .function [Builtin.noParameterPointer, captured, saved recursive env]), t) ∧
      Calling recursive env t ∧ s.Grows t ∧
      t.HasNode .function [Builtin.noParameterPointer, captured, saved recursive env] := by
  obtain ⟨depth, hdepth⟩ := Nat.exists_eq_add_one_of_ne_zero hdeep.ne'
  have hsound := reachable_sound h.bounded.reachable
  have hpart := part_of_node h.bound
  have hisEnv : (bound (bindEnv recursive) env).tag.isEnv = true := by cases recursive <;> rfl
  have hsearch : s.search callee config.lookupDepth (bound (bindEnv recursive) env) =
      .at (bound (bindEnv recursive) env) := by
    rw [hdepth]
    exact search_here hisEnv (hpart 0)
  have hvalue : s.part (bound (bindEnv recursive) env) 1 = closure := hpart 1
  have hclosure := part_of_node h.closure
  cases recursive with
  | false =>
    have hlook := EvalPhase.look_at expression_callee hsearch fun hrecursive => nomatch hrecursive.1
    rw [hvalue] at hlook
    exact ⟨s, hlook, h, .refl hsound, h.closure⟩
  | true =>
    have hlook := EvalPhase.look_closed expression_callee hsearch rfl (by rw [hvalue]; rfl)
    rw [hvalue, hclosure, hclosure] at hlook
    obtain ⟨-, -, hparts⟩ := hsound.node h.closure
    simp only [List.forall_mem_cons, List.not_mem_nil, false_imp_iff, implies_true, and_true] at hparts
    have hheld : s.Holds (bound .recEnv env) := hsound.contains_of_node h.bound
    have harity : Tag.function.arity? = some [Builtin.noParameterPointer, captured, bound .recEnv env].length := rfl
    obtain ⟨ht, hgrows, hnode⟩ := h.bounded.put injOn_preimages harity (by simp [hparts, hheld])
      (around_mem henv (by simp [around]))
    exact ⟨_, hlook, h.mono ht hgrows, hgrows, hnode⟩

/-- The call evaluates the symbol, and enters the function that it is bound to. -/
theorem call_enters (h : Calling recursive env s) (henv : env = scope ∨ env = .nil) (hdeep : 0 < config.lookupDepth)
    (hst : State.Held ⟨call, bound (bindEnv recursive) env, .outermost⟩ s) :
    ∃ cont t, cont.tag = .call0 ∧ Visits config {xs | xs ∈ preimages}
      [⟨call, bound (bindEnv recursive) env, .outermost⟩, ⟨callee, bound (bindEnv recursive) env, cont⟩]
      ⟨call, bound (bindEnv recursive) env, .outermost⟩ s ⟨captured, saved recursive env, .outermost⟩ t ∧
      Calling recursive env t := by
  have hlook : EvalPhase.look config.lookupDepth call (bound (bindEnv recursive) env) s =
      (.turn (.wait callee (bound (bindEnv recursive) env) (headNode (bound (bindEnv recursive) env))), s) := by
    simp only [EvalPhase.look, expression_call h.toPrepared, headNode]
  obtain ⟨t, hpasses, hnode⟩ := h.bounded.looks config injOn_preimages hst rfl hlook h.bounded.content
    (around_mem henv (by cases recursive <;> simp [around, headNode, Waiting.children, bindEnv]))
  have ht := hpasses.bounded
  obtain ⟨u, hfound, hu, hmore, hparts⟩ := callee_found config (h.mono ht hpasses.grows) henv hdeep
  obtain ⟨r, hpasses', hgrows', -⟩ := ht.hands config injOn_preimages hpasses.held hnode hfound (headNode_silent ..)
    (turn_headNode rfl hparts _ _) hu.bounded.content trivial
  exact ⟨_, r, rfl, hpasses.visits.trans hpasses'.visits, hu.mono hpasses'.bounded hgrows'⟩

section
variable {body : Pointer}

/-- The function is bound to the symbol, and the body is evaluated. -/
theorem abstraction_bound (h : Prepared s) (henv : env = scope ∨ env = .nil) {cont : Pointer}
    (hcont : cont = (bindNode recursive callee body env).onto .outermost)
    (hst : State.Held ⟨abstraction, scope, cont⟩ s)
    (hnode : s.nodes[cont]? = some ((bindNode recursive callee body env).children .outermost)) :
    ∃ t, Visits config {xs | xs ∈ preimages} [⟨abstraction, scope, cont⟩] ⟨abstraction, scope, cont⟩ s
      ⟨body, bound (bindEnv recursive) env, .outermost⟩ t ∧ Calling recursive env t := by
  subst hcont
  have hsound := reachable_sound h.bounded.reachable
  obtain ⟨habstraction, hscope, -⟩ := State.held_iff.1 hst
  obtain ⟨ht, hgrows, hclosure⟩ := abstraction_put h habstraction hscope (by simp [listed])
  -- What waits has the symbol and the environment.
  have hwaiting := hsound.node hnode
  simp only [Waiting.children, bindNode, List.forall_mem_cons] at hwaiting
  obtain ⟨-, -, hcallee, -, henvHeld, -⟩ := hwaiting
  have hclosureHeld := (reachable_sound ht.reachable).contains_of_node hclosure
  have harity' : (bindEnv recursive).arity? = some [callee, closure, env].length := by cases recursive <;> rfl
  have hchildren : ∀ c ∈ [callee, closure, env],
      (s.put .function [Builtin.noParameterPointer, captured, scope]).Holds c := by
    simp only [List.forall_mem_cons, List.not_mem_nil, false_imp_iff, implies_true, and_true]
    exact ⟨hgrows.holds hcallee, hclosureHeld, hgrows.holds henvHeld⟩
  obtain ⟨hu, hmore, hbound⟩ := ht.put injOn_preimages harity' hchildren
    (around_mem henv (by cases recursive <;> simp [around, bindEnv]))
  have hturn : ContPhase.turn (bindNode recursive callee body env) closure scope
      (s.put .function [Builtin.noParameterPointer, captured, scope]) =
        (.enter body (bound (bindEnv recursive) env),
          (s.put .function [Builtin.noParameterPointer, captured, scope]).put (bindEnv recursive)
            [callee, closure, env]) := by
    cases recursive <;> rfl
  obtain ⟨r, hpasses, hlater, -⟩ := h.bounded.hands config injOn_preimages hst hnode (look_abstraction config h scope)
    (bindNode_silent ..) hturn hu.content trivial
  exact ⟨r, hpasses.visits, h.mono hpasses.bounded hpasses.grows, (hmore.trans hlater).extends_.node hclosure,
    hlater.extends_.node hbound⟩

variable (hbody : body = call ∨ body = choice)
include hbody

/-- The form evaluates what the symbol is bound to. -/
theorem program_opens (recursive : Bool) (h : Prepared s) {e : Pointer} (he : e = abstraction ∨ e = delayed)
    (henv : env = scope ∨ env = .nil) (hst : State.Held ⟨program (bindForm recursive) e body, env, .outermost⟩ s) :
    ∃ t, Visits config {xs | xs ∈ preimages} [⟨program (bindForm recursive) e body, env, .outermost⟩]
      ⟨program (bindForm recursive) e body, env, .outermost⟩ s
      ⟨e, env, (bindNode recursive callee body env).onto .outermost⟩ t ∧ Prepared t ∧
      t.nodes[(bindNode recursive callee body env).onto .outermost]? =
        some ((bindNode recursive callee body env).children .outermost) := by
  have hlook : EvalPhase.look config.lookupDepth (program (bindForm recursive) e body) env s =
      (.turn (.wait e env (bindNode recursive callee body env)), s) := by
    simp only [EvalPhase.look, (h.isBind he hbody recursive).expression_eq rfl]
    rfl
  obtain ⟨t, hpasses, hnode⟩ := h.bounded.looks config injOn_preimages hst rfl hlook h.bounded.content
    (waiting_mem henv hbody (by cases recursive <;> simp [waiting, Waiting.children, bindNode, bindTag]))
  exact ⟨t, hpasses.visits, h.mono hpasses.bounded hpasses.grows, hnode⟩

/-- In the scope that the function captures, the form `(let ((x (lambda () y))) body)`, or its recursive kind, comes to
its body. -/
theorem abstraction_opens (recursive : Bool) (h : Prepared s) :
    ∃ waiting t, waiting.tag = bindTag recursive ∧ Calling recursive scope t ∧
      Visits config {xs | xs ∈ preimages}
        [⟨program (bindForm recursive) abstraction body, scope, .outermost⟩, ⟨abstraction, scope, waiting⟩]
        ⟨program (bindForm recursive) abstraction body, scope, .outermost⟩ s
        ⟨body, bound (bindEnv recursive) scope, .outermost⟩ t := by
  have hscope := (reachable_sound h.bounded.reachable).contains_of_node h.scope
  obtain ⟨t, hvisits, ht, hnode⟩ := program_opens config hbody recursive h (.inl rfl) (.inl rfl)
    (held_initial (h.holds (.inl rfl) hbody recursive) hscope)
  obtain ⟨u, hvisits', hu⟩ := abstraction_bound config ht (.inl rfl) rfl hvisits.held hnode
  exact ⟨_, u, rfl, hu, hvisits.trans hvisits'⟩

end

/-- The expression `(let ((y 5)) (lambda () y))` binds the symbol that the function captures. -/
theorem delayed_opens (h : Prepared s) {cont : Pointer}
    (hcont : cont = (bindNode recursive callee call .nil).onto .outermost)
    (hst : State.Held ⟨delayed, .nil, cont⟩ s)
    (hnode : s.nodes[cont]? = some ((bindNode recursive callee call .nil).children .outermost)) :
    ∃ inner t, Visits config {xs | xs ∈ preimages} [⟨delayed, .nil, cont⟩, ⟨Specimen.five, .nil, inner⟩]
      ⟨delayed, .nil, cont⟩ s ⟨abstraction, scope, cont⟩ t ∧ Prepared t ∧
      t.nodes[cont]? = some ((bindNode recursive callee call .nil).children .outermost) := by
  subst hcont
  have hlook : EvalPhase.look config.lookupDepth delayed .nil s =
      (.turn (.wait Specimen.five .nil (bindNode false captured abstraction .nil)), s) := by
    simp only [EvalPhase.look, h.isBind_delayed.expression_eq rfl]
    rfl
  obtain ⟨t, hpasses, hinner⟩ := h.bounded.looks config injOn_preimages hst (Waiting.not_halted _) hlook
    h.bounded.content (mem_preimages (by
      cases recursive <;> simp [listed, entering, Waiting.children, Waiting.onto, bindNode, bindTag]))
  have ht := hpasses.bounded
  have htScope := hpasses.grows.extends_.node h.scope
  have hturn : ContPhase.turn (bindNode false captured abstraction .nil) Specimen.five .nil t =
      (.enter abstraction scope, t.put .env [captured, Specimen.five, .nil]) := rfl
  have hput : (t.put .env [captured, Specimen.five, .nil]).content ⊆ {xs | xs ∈ preimages} :=
    (content_put_subset t _ _ (reachable_sound ht.reachable)).trans
      (Set.insert_subset (mem_preimages (by simp [listed])) ht.content)
  obtain ⟨u, hpasses', -, -⟩ := ht.hands config injOn_preimages hpasses.held hinner rfl (bindNode_silent ..) hturn hput
    trivial
  have hgrows := hpasses.grows.trans hpasses'.grows
  exact ⟨_, u, hpasses.visits.trans hpasses'.visits, h.mono hpasses'.bounded hgrows, hgrows.extends_.node hnode⟩

/-- The captured symbol is evaluated, and the run ends. -/
theorem captured_ends (h : Prepared s) (hst : State.Held ⟨captured, env, .outermost⟩ s)
    (hfound : s.search captured config.lookupDepth env = .at scope) :
    Visits config {xs | xs ∈ preimages} [⟨captured, env, .outermost⟩] ⟨captured, env, .outermost⟩ s
      ⟨Specimen.five, env, .terminal⟩ s := by
  have hvalue : s.part scope 1 = Specimen.five := part_of_node h.scope 1
  have hlook := EvalPhase.look_at expression_captured hfound fun hrecursive => nomatch hrecursive.1
  rw [hvalue] at hlook
  exact (h.bounded.ends config hst hlook h.bounded.content).visits

/-- The captured symbol is not found, and the run fails. -/
theorem captured_fails (h : Prepared s) (hst : State.Held ⟨captured, env, .outermost⟩ s)
    (hlost : ∀ node, s.search captured config.lookupDepth env ≠ .at node) :
    ∃ code t, Visits config {xs | xs ∈ preimages} [⟨captured, env, .outermost⟩] ⟨captured, env, .outermost⟩ s
      (.fail env code) t := by
  have hlook : ∃ code, EvalPhase.look config.lookupDepth captured env s = (.turn (.stop env code), s) := by
    simp only [EvalPhase.look_variable expression_captured, Store.lookup]
    cases hsearch : s.search captured config.lookupDepth env with
    | «at» node => exact absurd hsearch (hlost node)
    | unbound | beyond => exact ⟨_, rfl⟩
  obtain ⟨code, hlook⟩ := hlook
  obtain ⟨t, hpasses, -⟩ := h.bounded.looks config injOn_preimages hst rfl hlook h.bounded.content trivial
  exact ⟨code, t, hpasses.visits⟩

omit config in
theorem search_scope (h : Prepared s) (depth : ℕ) : s.search captured (depth + 1) scope = .at scope :=
  search_here rfl (part_of_node h.scope 0)

omit config in
/-- From the node of a recursive binding on, the captured symbol is searched for in the environment of the binding. -/
theorem search_recursive (h : Calling true env s) (depth : ℕ) :
    s.search captured (depth + 1) (saved true env) = s.search captured depth env := by
  have hpart := part_of_node h.bound
  have hother : s.part (bound .recEnv env) 0 ≠ captured := fun heq => callee_ne_captured ((hpart 0).symm.trans heq)
  exact (search_further rfl hother).trans (congrArg _ (hpart 2))

/-- In the scope that the function captures, the form `(let ((x (lambda () y))) (x))`, or its recursive kind, comes to
the symbol that the function captures. -/
theorem abstraction_runs (h : Prepared s) (recursive : Bool) (hdeep : 0 < config.lookupDepth) :
    ∃ waiting calling t, waiting.tag = bindTag recursive ∧ calling.tag = .call0 ∧ Calling recursive scope t ∧
      Visits config {xs | xs ∈ preimages}
        [⟨program (bindForm recursive) abstraction call, scope, .outermost⟩, ⟨abstraction, scope, waiting⟩,
          ⟨call, bound (bindEnv recursive) scope, .outermost⟩, ⟨callee, bound (bindEnv recursive) scope, calling⟩]
        ⟨program (bindForm recursive) abstraction call, scope, .outermost⟩ s
        ⟨captured, saved recursive scope, .outermost⟩ t := by
  obtain ⟨waiting, t, hwaiting, ht, hvisits⟩ := abstraction_opens config (.inl rfl) recursive h
  obtain ⟨calling, u, hcalling, hvisits', hu⟩ := call_enters config ht (.inl rfl) hdeep hvisits.held
  exact ⟨waiting, calling, u, hwaiting, hcalling, hu, hvisits.trans hvisits'⟩

/-- In nil, the form `(let ((x (let ((y 5)) (lambda () y)))) (x))`, or its recursive kind, comes to this symbol. -/
theorem delayed_runs (h : Prepared s) (recursive : Bool) (hdeep : 0 < config.lookupDepth) :
    ∃ inputs t, inputs.length = 6 ∧ (∃ st ∈ inputs, st.env = scope) ∧ Calling recursive .nil t ∧
      Visits config {xs | xs ∈ preimages} inputs ⟨program (bindForm recursive) delayed call, .nil, .outermost⟩ s
        ⟨captured, saved recursive .nil, .outermost⟩ t := by
  obtain ⟨t₁, hvisits₁, h₁, hnode₁⟩ := program_opens config (.inl rfl) recursive h (.inr rfl) (.inr rfl)
    (held_initial (h.holds (.inr rfl) (.inl rfl) recursive) s.holds_nil)
  obtain ⟨inner, t₂, hvisits₂, h₂, hnode₂⟩ := delayed_opens config h₁ rfl hvisits₁.held hnode₁
  obtain ⟨t₃, hvisits₃, h₃⟩ := abstraction_bound config h₂ (.inr rfl) rfl hvisits₂.held hnode₂
  obtain ⟨cont, t₄, -, hvisits₄, h₄⟩ := call_enters config h₃ (.inr rfl) hdeep hvisits₃.held
  exact ⟨_, t₄, rfl, ⟨_, .tail _ (.tail _ (.tail _ (.head _))), rfl⟩, h₄,
    hvisits₁.trans (hvisits₂.trans (hvisits₃.trans hvisits₄))⟩

end

end Capture

/-! ### Two functions that are compared -/

namespace Capture

open Machine

variable {recursive : Bool}

/-- What waits for the comparison, and for its operands. -/
def branchNode (recursive : Bool) : Waiting :=
  ⟨.branch, Tag.arity_branch, .nil, Specimen.five, bound (bindEnv recursive) scope⟩

def firstNode (recursive : Bool) : Waiting :=
  ⟨.binary, Tag.arity_binary, same, abstraction, bound (bindEnv recursive) scope⟩

def secondNode (recursive : Bool) : Waiting :=
  ⟨.binary2, Tag.arity_binary2, same,
    nodePointer .function [Builtin.noParameterPointer, captured, saved recursive scope], .nil⟩

/-- What the comparison decides. -/
def chosen (recursive : Bool) : Pointer := if recursive then .nil else Specimen.five

theorem comparing_mem (recursive : Bool) {tag : Tag} {cs : List Pointer}
    (h : (tag, cs) ∈ comparing (bindEnv recursive) (verdict recursive)) :
    nodePreimage tag cs ∈ {xs | xs ∈ preimages} := by
  apply mem_preimages
  cases recursive
  · exact List.mem_append_right _ (List.mem_append_right _ (List.mem_append_left _ (List.mem_append_left _ h)))
  · exact List.mem_append_right _ (List.mem_append_right _ (List.mem_append_left _ (List.mem_append_right _ h)))

/-- What waits for the operands is listed. -/
theorem firstNode_mem : nodePreimage (firstNode recursive).tag
    ((firstNode recursive).children ((branchNode recursive).onto .outermost)) ∈ {xs | xs ∈ preimages} :=
  comparing_mem recursive (.tail _ (.head _))

theorem secondNode_mem : nodePreimage (secondNode recursive).tag
    ((secondNode recursive).children ((branchNode recursive).onto .outermost)) ∈ {xs | xs ∈ preimages} := by
  cases recursive
  · exact comparing_mem false (.tail _ (.tail _ (.head _)))
  · exact comparing_mem true (.tail _ (.tail _ (.head _)))

/-- In a recursive binding, and only there, the function that the symbol is bound to is the one that is made in the
body. -/
theorem beq_saved (h : Calling recursive scope s)
    (hnode : s.HasNode .function [Builtin.noParameterPointer, captured, bound (bindEnv recursive) scope]) :
    (nodePointer .function [Builtin.noParameterPointer, captured, saved recursive scope] ==
      nodePointer .function [Builtin.noParameterPointer, captured, bound (bindEnv recursive) scope]) = recursive := by
  cases recursive with
  | true => exact beq_self_eq_true _
  | false =>
    rw [beq_eq_false_iff_ne]
    intro heq
    have hsaved : s.part (nodePointer .function [Builtin.noParameterPointer, captured, saved false scope]) 2 = scope :=
      part_of_node h.closure 2
    rw [heq, hnode.part] at hsaved
    have hscopes : bound .env scope = scope := hsaved
    have hsymbol : s.part (bound .env scope) 0 = callee := part_of_node h.bound 0
    rw [hscopes, part_of_node h.scope] at hsymbol
    exact callee_ne_captured hsymbol.symm

section
variable (config : Config) (hdeep : 0 < config.lookupDepth)
include hdeep

/-- The first operand of `(eq x (lambda () y))` is the function that the symbol is bound to. The second one is evaluated
next. -/
theorem first_runs (h : Calling recursive scope s)
    (hst : State.Held ⟨test, bound (bindEnv recursive) scope, (branchNode recursive).onto .outermost⟩ s) :
    ∃ inputs t, inputs.length = 2 ∧ Visits config {xs | xs ∈ preimages} inputs
      ⟨test, bound (bindEnv recursive) scope, (branchNode recursive).onto .outermost⟩ s
      ⟨abstraction, bound (bindEnv recursive) scope,
        (secondNode recursive).onto ((branchNode recursive).onto .outermost)⟩ t ∧
      Calling recursive scope t ∧
      t.nodes[(secondNode recursive).onto ((branchNode recursive).onto .outermost)]? =
        some ((secondNode recursive).children ((branchNode recursive).onto .outermost)) := by
  have hlook : EvalPhase.look config.lookupDepth test (bound (bindEnv recursive) scope) s =
      (.turn (.wait callee (bound (bindEnv recursive) scope) (firstNode recursive)), s) := by
    simp only [EvalPhase.look, h.expression_test]
    rfl
  obtain ⟨t, hpasses, hnode⟩ := h.bounded.looks config injOn_preimages hst (Waiting.not_halted _) hlook
    h.bounded.content firstNode_mem
  obtain ⟨u, hfound, hu, -, -⟩ := callee_found config (h.mono hpasses.bounded hpasses.grows) (.inl rfl) hdeep
  have hturn : ContPhase.turn (firstNode recursive)
      (nodePointer .function [Builtin.noParameterPointer, captured, saved recursive scope])
      (bound (bindEnv recursive) scope) u =
        (.wait abstraction (bound (bindEnv recursive) scope) (secondNode recursive), u) := rfl
  obtain ⟨t', hpasses', hmore, hnode'⟩ := hpasses.bounded.hands config injOn_preimages hpasses.held hnode hfound
    (Waiting.silent (show Tag.binary ≠ .unary by decide) _) hturn hu.bounded.content secondNode_mem
  exact ⟨_, t', rfl, hpasses.visits.trans hpasses'.visits, hu.mono hpasses'.bounded hmore, hnode'⟩

/-- The function that the symbol is bound to is compared with the one that is made in the body. -/
theorem test_runs (h : Calling recursive scope s)
    (hst : State.Held ⟨test, bound (bindEnv recursive) scope, (branchNode recursive).onto .outermost⟩ s) :
    ∃ inputs t, inputs.length = 3 ∧ Visits config {xs | xs ∈ preimages} inputs
      ⟨test, bound (bindEnv recursive) scope, (branchNode recursive).onto .outermost⟩ s
      ⟨nodePointer .thunk [verdict recursive, .nil], bound (bindEnv recursive) scope,
        (branchNode recursive).onto .outermost⟩ t ∧
      t.HasNode .thunk [verdict recursive, .nil] ∧ s.Grows t := by
  obtain ⟨inputs, t, hlength, hvisits, ht, hnode⟩ := first_runs config hdeep h hst
  obtain ⟨habstraction, hbound, -⟩ : t.Holds abstraction ∧ t.Holds (bound (bindEnv recursive) scope) ∧ _ :=
    State.held_iff.1 hvisits.held
  obtain ⟨hr, hlater, hfunction⟩ := abstraction_put ht.toPrepared habstraction hbound
    (by cases recursive <;> simp [listed, around, bindEnv])
  have hbeq := beq_saved (ht.mono hr hlater) hfunction
  have hverdict : (t.put .function [Builtin.noParameterPointer, captured, bound (bindEnv recursive) scope]).Holds
      (verdict recursive) := inherited_holds.verdict (reachable_sound hr.reachable) _
  have harity : Tag.thunk.arity? = some [verdict recursive, .nil].length := rfl
  obtain ⟨hthunks, -, hthunk⟩ := hr.put injOn_preimages harity (by simp [hverdict, holds_nil])
    (comparing_mem recursive (by simp [comparing]))
  have hturn : ContPhase.turn (secondNode recursive)
      (nodePointer .function [Builtin.noParameterPointer, captured, bound (bindEnv recursive) scope])
      (bound (bindEnv recursive) scope)
      (t.put .function [Builtin.noParameterPointer, captured, bound (bindEnv recursive) scope]) =
        (.enter (nodePointer .thunk [verdict recursive, .nil]) (bound (bindEnv recursive) scope),
          (t.put .function [Builtin.noParameterPointer, captured, bound (bindEnv recursive) scope]).put .thunk
            [verdict recursive, .nil]) := by
    change ContPhase.delivery _ (Store.applyBinary _ same _ _) = _
    rw [same, applyBinary, binaryOf?_symbol]
    exact congrArg (fun b => ContPhase.delivery _ (Except.ok (verdict b), _)) hbeq
  obtain ⟨r, hpasses, hkept, -⟩ := ht.bounded.hands config injOn_preimages hvisits.held hnode
    (look_abstraction config ht.toPrepared _) (Waiting.silent (show Tag.binary2 ≠ .unary by decide) _) hturn
    hthunks.content trivial
  have hall := hvisits.trans hpasses.visits
  exact ⟨_, r, by simp [hlength], hall, hkept.extends_.node hthunk, hall.grows⟩

/-- The expression `(if (eq x (lambda () y)) nil 5)` comes to what the comparison decides. -/
theorem choice_runs (h : Calling recursive scope s)
    (hst : State.Held ⟨choice, bound (bindEnv recursive) scope, .outermost⟩ s) :
    ∃ inputs t, inputs.length = 5 ∧ Visits config {xs | xs ∈ preimages} inputs
      ⟨choice, bound (bindEnv recursive) scope, .outermost⟩ s
      ⟨chosen recursive, bound (bindEnv recursive) scope, .outermost⟩ t := by
  have hlook : EvalPhase.look config.lookupDepth choice (bound (bindEnv recursive) scope) s =
      (.turn (.wait test (bound (bindEnv recursive) scope) (branchNode recursive)), s) := by
    simp only [EvalPhase.look, h.expression_choice]
    rfl
  obtain ⟨t, hpasses, hnode⟩ := h.bounded.looks config injOn_preimages hst rfl hlook h.bounded.content
    (comparing_mem recursive (.head _))
  have ht := h.mono hpasses.bounded hpasses.grows
  obtain ⟨inputs, u, hlength, hvisits, hthunk, hmore⟩ := test_runs config hdeep ht hpasses.held
  -- The thunk hands the outcome to the node that waits.
  have hlook' : EvalPhase.look config.lookupDepth (nodePointer .thunk [verdict recursive, .nil])
      (bound (bindEnv recursive) scope) u = (.value (verdict recursive), u) := by
    have hexpression : u.expression (nodePointer .thunk [verdict recursive, .nil]) = .value (verdict recursive) :=
      congrArg Expression.value (hthunk.part 0)
    simp only [EvalPhase.look, hexpression]
  have hturn : ContPhase.turn (branchNode recursive) (verdict recursive) (bound (bindEnv recursive) scope) u =
      (.enter (chosen recursive) (bound (bindEnv recursive) scope), u) := by
    cases recursive <;> rfl
  have hu := hvisits.bounded
  obtain ⟨r, hpasses', -, -⟩ := hu.hands config injOn_preimages hvisits.held (hmore.extends_.node hnode) hlook'
    (Waiting.silent (show Tag.branch ≠ .unary by decide) _) hturn hu.content trivial
  exact ⟨_, r, by simp [hlength], hpasses.visits.trans (hvisits.trans hpasses'.visits)⟩

/-- In the scope that the function captures, the form `(let ((x (lambda () y))) (if (eq x (lambda () y)) nil 5))`, or
its recursive kind, is completed with what the comparison decides. -/
theorem comparison_runs (h : Prepared s) (recursive : Bool) :
    ∃ inputs t, inputs.length = 7 ∧
      Visits config {xs | xs ∈ preimages} inputs ⟨program (bindForm recursive) abstraction choice, scope, .outermost⟩ s
        ⟨chosen recursive, bound (bindEnv recursive) scope, .outermost⟩ t ∧
      Visits config {xs | xs ∈ preimages} [⟨chosen recursive, bound (bindEnv recursive) scope, .outermost⟩]
        ⟨chosen recursive, bound (bindEnv recursive) scope, .outermost⟩ t
        ⟨chosen recursive, bound (bindEnv recursive) scope, .terminal⟩ t := by
  obtain ⟨waiting, t, -, ht, hvisits⟩ := abstraction_opens config (.inr rfl) recursive h
  obtain ⟨inputs, u, hlength, hvisits'⟩ := choice_runs config hdeep ht hvisits.held
  have hlook : EvalPhase.look config.lookupDepth (chosen recursive) (bound (bindEnv recursive) scope) u =
      (.value (chosen recursive), u) := by
    cases recursive <;> rfl
  have hu := hvisits'.bounded
  exact ⟨_, u, by simp [hlength], hvisits.trans hvisits', (hu.ends config hvisits'.held hlook hu.content).visits⟩

end

end Capture

/-! ### The recursive kind of a form of bindings -/

namespace Machine

open Capture

/-- In the run of `(let ((x (lambda () y))) (x))` in the scope no lookup strays: the function was made in the scope of
the binding, and the symbol is found before that. -/
theorem not_strays_abstraction {frames : List Frame} {waiting calling : Pointer} {F G : Frame} {v : Pointer}
    (hs : Reachable s) (hst : State.Held ⟨program .bindLet abstraction call, scope, .outermost⟩ s)
    (ht : Calling false scope t) (hcalling : calling.tag = .call0)
    (hran : Ran config ⟨program .bindLet abstraction call, scope, .outermost⟩ s frames t)
    (hinputs : frames.map Frame.input =
      [⟨program .bindLet abstraction call, scope, .outermost⟩, ⟨abstraction, scope, waiting⟩,
        ⟨call, bound .env scope, .outermost⟩, ⟨callee, bound .env scope, calling⟩, ⟨captured, scope, .outermost⟩])
    (hF : F ∈ frames) (hhands : Hands F v ((bindNode false callee call scope).onto .outermost)) (hG : G ∈ frames)
    (hvariable : t.expression G.input.expr = .variable) :
    ¬Fork.Strays ⟨callee, v, scope⟩ t config.lookupDepth G.input.expr G.input.env := by
  have hinput {F : Frame} (hF : F ∈ frames) := List.mem_map_of_mem (f := Frame.input) hF
  simp only [hinputs, List.mem_cons, List.not_mem_nil, or_false] at hinput
  -- The value that is bound is that of the lambda expression.
  obtain ⟨hcont, m, hm, hheld, hlook⟩ := hran.handing hs hst F hF hhands.returned
  rw [hhands.cont] at hcont
  have hwaiting : F.input = ⟨abstraction, scope, waiting⟩ := by
    rcases hinput hF with h | h | h | h | h
    · rw [h] at hcont
      cases congrArg Pointer.tag hcont
    · exact h
    · rw [h] at hcont
      cases congrArg Pointer.tag hcont
    · rw [h] at hcont
      cases (congrArg Pointer.tag hcont).trans hcalling
    · rw [h] at hcont
      cases congrArg Pointer.tag hcont
  rw [hwaiting] at hheld hlook
  have hexpression : m.expression abstraction = .lambda Builtin.noParameterPointer none captured :=
    (expression_within hm.extends_ hm.origin (State.held_iff.1 hheld).1).symm.trans ht.expression_abstraction
  have hvalue : v = Capture.closure := by
    simp only [EvalPhase.look, hexpression, hhands.expr, Look.value.injEq] at hlook
    exact hlook.symm
  subst hvalue
  intro hstrays
  have hown : t.part Capture.closure 2 = scope := part_of_node ht.closure 2
  have hplain : t.HasNode .env [callee, Capture.closure, scope] := ht.bound
  have hsymbol : G.input.expr = callee :=
    Fork.Strays.eq_symbol (f := ⟨callee, Capture.closure, scope⟩) hplain hstrays hown
  rcases hinput hG with h | h | h | h | h <;> rw [h] at hvariable hsymbol hstrays
  · have hbind : t.IsBind false (program .bindLet abstraction call) callee abstraction call :=
      ht.isBind (.inl rfl) (.inl rfl) false
    cases (hbind.expression_eq rfl).symm.trans hvariable
  · cases ht.expression_abstraction.symm.trans hvariable
  · cases (expression_call ht.toPrepared).symm.trans hvariable
  · have hbound : t.part (bound .env scope) 0 = callee := part_of_node ht.bound 0
    have hleads : t.Leads callee (bound .env scope) (t.part Capture.closure 2) := hstrays.leads
    rw [hown] at hleads
    generalize hnode : bound .env scope = node at hleads hbound
    cases hleads with
    | here =>
      rw [part_of_node ht.scope] at hbound
      exact callee_ne_captured hbound.symm
    | further _ hother => exact hother hbound
  · exact callee_ne_captured hsymbol.symm

/-- The function `(lambda () y)`, bound where `y` is bound to a number: the two kinds are never told apart. -/
theorem recursive_binding_completes_closure : ∃ s E t, Reachable s ∧
    s.IsBind false (program .bindLet abstraction call) callee abstraction call ∧
    s.IsBind true (program .bindRec abstraction call) callee abstraction call ∧ callee.tag = .symbol ∧
    s.Holds (program .bindLet abstraction call) ∧ s.Holds (program .bindRec abstraction call) ∧ s.Holds scope ∧
    evaluate .standard 5 false (program .bindLet abstraction call) (some scope) s = .ok E t ∧
    Apart .standard 0 E.frames.length (.initial (program .bindLet abstraction call) scope) s
      (.initial (program .bindRec abstraction call) scope) s ∧
    E.reason = .completed ∧ E.result.tag = .number ∧
    ¬PartLater .standard t callee call scope (.initial (program .bindRec abstraction call) scope) s E.frames ∧
    ∃ E' t', evaluate .standard 5 false (program .bindRec abstraction call) (some scope) s = .ok E' t' ∧
      E'.reason = .completed ∧ E'.result = E.result := by
  obtain ⟨s, h⟩ := exists_prepared
  have hs := h.bounded.reachable
  have hscope := (reachable_sound hs).contains_of_node h.scope
  have hp : s.IsBind false (program .bindLet abstraction call) callee abstraction call :=
    h.isBind (.inl rfl) (.inl rfl) false
  have hq : s.IsBind true (program .bindRec abstraction call) callee abstraction call :=
    h.isBind (.inl rfl) (.inl rfl) true
  have hpHeld : s.Holds (program .bindLet abstraction call) := h.holds (.inl rfl) (.inl rfl) false
  have hqHeld : s.Holds (program .bindRec abstraction call) := h.holds (.inl rfl) (.inl rfl) true
  have hst := held_initial hpHeld hscope
  have hst' := held_initial hqHeld hscope
  -- Both runs come to the symbol that the function captures, and find it in the scope.
  obtain ⟨_, _, t, hwaiting, hcalling, ht, hvisits⟩ := abstraction_runs .standard h false (by decide)
  obtain ⟨_, _, t', -, -, ht', hvisits'⟩ := abstraction_runs .standard h true (by decide)
  have hlast := captured_ends .standard ht.toPrepared hvisits.held (search_scope ht.toPrepared _)
  have hlast' := captured_ends .standard ht'.toPrepared hvisits'.held
    ((search_recursive ht' _).trans (search_scope ht'.toPrepared _))
  obtain ⟨frames, hinputs, hran, heval⟩ := hvisits.evaluates hs hpHeld hscope rfl hlast rfl le_rfl
  obtain ⟨frames', -, hran', -⟩ := hvisits'.evaluates hs hqHeld hscope rfl hlast' rfl le_rfl
  have hapart : Apart .standard 0 frames.length (.initial (program .bindLet abstraction call) scope) s
      (.initial (program .bindRec abstraction call) scope) s :=
    apart_of_halting injOn_preimages hs hs hst hst' hran hran' rfl rfl ht.bounded.content ht'.bounded.content
  have hnumber :
      (finalState (.initial (program (bindForm false) abstraction call) scope) frames).expr.tag = .number := by
    rw [hran.2]
    rfl
  have hparts : ¬PartLater .standard t callee call scope (.initial (program .bindRec abstraction call) scope) s
      frames := by
    intro hpart
    have hcompares : ∀ F ∈ frames, F.input.cont.tag ≠ .binary2 := by
      intro F hF
      have hinput := List.mem_map_of_mem (f := Frame.input) hF
      simp only [hinputs, List.cons_append, List.nil_append, List.mem_cons, List.not_mem_nil, or_false] at hinput
      rcases hinput with h | h | h | h | h <;> rw [h]
      · decide
      · simp [hwaiting, bindTag]
      · decide
      · simp [hcalling]
      · decide
    obtain ⟨F, hF, v, hhands, G, hG, hvariable, hstrays⟩ :=
      hpart.strays hran.ran hs hst hcompares hran' hs hst' rfl
    exact not_strays_abstraction hs hst ht hcalling hran.ran hinputs hF hhands hG hvariable hstrays
  have hcompletes := recursive_binding_completes hs hp hq rfl hpHeld hqHeld hscope heval hapart rfl hnumber
  exact ⟨s, _, t, hs, hp, hq, rfl, hpHeld, hqHeld, hscope, heval, hapart, rfl, hnumber, hparts,
    hcompletes.resolve_right hparts⟩

/-! ### Where the two kinds part -/

/-- An environment that an evaluation has reached, or the empty one. -/
def Reached (s : Store) (env : Pointer) : Prop :=
  env = .nil ∨ ∃ config budget p r E F, Reachable r ∧ evaluate config budget false p (some .nil) r = .ok E s ∧
    F ∈ E.frames ∧ F.input.env = env

/-- The evaluation of a form of bindings is completed with a number, whereas that of its recursive kind never is. The
symbol does not occur in the expression that it is bound to, and nothing collides. -/
structure Differs (config : Config) (e body env : Pointer) (s : Store) : Prop where
  reachable : Reachable s
  plain : s.IsBind false (program .bindLet e body) callee e body
  recursive : s.IsBind true (program .bindRec e body) callee e body
  unmentioned : ¬s.Mentions callee e
  held : s.Holds (program .bindLet e body) ∧ s.Holds (program .bindRec e body)
  reached : Reached s env
  apart : ∀ n, Apart config 0 n (.initial (program .bindLet e body) env) s (.initial (program .bindRec e body) env) s
  completes : ∃ budget E t n, evaluate config budget false (program .bindLet e body) (some env) s = .ok E t ∧
    E.reason = .completed ∧ E.result = .number n
  never : ∀ budget E t, evaluate config budget false (program .bindRec e body) (some env) s = .ok E t →
    E.reason = .completed → E.result.tag ≠ .number

section
variable {recursive : Bool} {inputs inputs' : List State} {last last' final final' : State} {env : Pointer} {n : Int}

/-- Runs through given states, of which the second one ends elsewhere. -/
theorem Differs.of_visits (h : Prepared s) (he : e = abstraction ∨ e = delayed) (hbody : body = call ∨ body = choice)
    (henv : s.Holds env) (hreached : Reached s env)
    (hvisits : Visits config {xs | xs ∈ preimages} inputs ⟨program .bindLet e body, env, .outermost⟩ s last t)
    (hlast : Visits config {xs | xs ∈ preimages} [last] last t final u) (hmoving : last.isHalted = false)
    (hfinal : final.cont.tag = .terminal) (hnumber : final.expr = .number n)
    (hvisits' : Visits config {xs | xs ∈ preimages} inputs' ⟨program .bindRec e body, env, .outermost⟩ s final' r)
    (hhalted' : final'.isHalted = true) (hother : final'.expr.tag ≠ .number) : Differs config e body env s := by
  have hs := h.bounded.reachable
  have hpHeld : s.Holds (program .bindLet e body) := h.holds he hbody false
  have hqHeld : s.Holds (program .bindRec e body) := h.holds he hbody true
  have hst := held_initial hpHeld henv
  have hst' := held_initial hqHeld henv
  obtain ⟨frames', -, hran', hr, -⟩ := hvisits'
  obtain ⟨frames, -, hran, heval⟩ := hvisits.evaluates hs hpHeld henv hmoving hlast hfinal le_rfl
  refine ⟨hs, h.isBind he hbody false, h.isBind he hbody true, h.unmentioned he, ⟨hpHeld, hqHeld⟩, hreached,
    fun _ => ?_,
    ⟨_, _, u, n, heval, rfl, ?_⟩, fun _ _ _ heval => not_number hs hst' hran' hhalted' hother heval⟩
  · exact apart_of_halting injOn_preimages hs hs hst hst' hran hran' (restReason_of_terminal hfinal).1 hhalted'
      hlast.bounded.content hr.content
  · exact (congrArg State.expr hran.2).trans hnumber

end

/-- The scope that the function captures is reached by the evaluation of `(let ((y 5)) (lambda () y))`. -/
theorem exists_reached : ∃ s, Prepared s ∧ Reached s scope := by
  obtain ⟨s, h⟩ := exists_prepared
  have hs := h.bounded.reachable
  obtain ⟨inputs, t, -, ⟨st, hst, henv⟩, ht, hvisits⟩ := delayed_runs .standard h false (by decide)
  have hlast := captured_ends .standard ht.toPrepared hvisits.held (search_scope ht.toPrepared _)
  obtain ⟨frames, hinputs, -, heval⟩ :=
    hvisits.evaluates hs (h.holds (.inr rfl) (.inl rfl) false) s.holds_nil rfl hlast rfl le_rfl
  obtain ⟨F, hF, hinput⟩ := List.mem_map.1 (hinputs ▸ List.mem_append_left _ hst)
  exact ⟨t, ht.toPrepared, .inr ⟨_, _, _, s, _, F, hs, heval, hF, by rw [hinput, henv]⟩⟩

/-- The function `(lambda () y)`, made where `y` is bound to a number, and bound where it is not: a recursive binding
closes the function over itself, and does not keep the scope in which the function was made. -/
theorem differs_delayed : ∃ s, Differs .standard delayed call .nil s := by
  obtain ⟨s, h⟩ := exists_prepared
  -- Both runs come to the symbol that the function captures. The second one does not find it.
  obtain ⟨inputs, t, hlength, -, ht, hvisits⟩ := delayed_runs .standard h false (by decide)
  obtain ⟨inputs', t', -, -, ht', hvisits'⟩ := delayed_runs .standard h true (by decide)
  have hlast := captured_ends .standard ht.toPrepared hvisits.held (search_scope ht.toPrepared _)
  obtain ⟨code, u, hlast'⟩ := captured_fails .standard ht'.toPrepared hvisits'.held fun node hfound => by
    have hunbound := (search_recursive ht' _).symm.trans hfound
    cases hunbound
  exact ⟨s, .of_visits h (.inr rfl) (.inl rfl) s.holds_nil (.inl rfl) hvisits hlast rfl rfl rfl
    (hvisits'.trans hlast') rfl nofun⟩

/-- A configuration that looks up one node only. -/
def shallow : Config := ⟨1, none, none, by decide⟩

/-- The function `(lambda () y)`, made and bound where `y` is bound to a number in the first node: a recursive binding
puts one more node in front of it. -/
theorem differs_shallow : ∃ s, Differs shallow abstraction call scope s := by
  obtain ⟨s, h, hreached⟩ := exists_reached
  have hscope := (reachable_sound h.bounded.reachable).contains_of_node h.scope
  obtain ⟨_, _, t, -, -, ht, hvisits⟩ := abstraction_runs shallow h false (by decide)
  obtain ⟨_, _, t', -, -, ht', hvisits'⟩ := abstraction_runs shallow h true (by decide)
  have hlast := captured_ends shallow ht.toPrepared hvisits.held (search_scope ht.toPrepared _)
  obtain ⟨code, u, hlast'⟩ := captured_fails shallow ht'.toPrepared hvisits'.held fun node hfound => by
    have hbeyond := (search_recursive ht' 0).symm.trans hfound
    cases hbeyond
  exact ⟨s, .of_visits h (.inl rfl) (.inl rfl) hscope hreached hvisits hlast rfl rfl rfl (hvisits'.trans hlast') rfl
    nofun⟩

/-- Two functions `(lambda () y)`, one of them bound, the other one made in the body: in a recursive binding they are
the same. -/
theorem differs_compared : ∃ s, Differs .standard abstraction choice scope s := by
  obtain ⟨s, h, hreached⟩ := exists_reached
  have hscope := (reachable_sound h.bounded.reachable).contains_of_node h.scope
  obtain ⟨_, t, -, hvisits, hlast⟩ := comparison_runs .standard (by decide) h false
  obtain ⟨_, t', -, hvisits', hlast'⟩ := comparison_runs .standard (by decide) h true
  exact ⟨s, .of_visits h (.inl rfl) (.inr rfl) hscope hreached hvisits hlast rfl rfl rfl (hvisits'.trans hlast') rfl
    nofun⟩

/-- A form of bindings and its recursive kind part in each of the three ways: where a function loses the scope that it
was made in, where its scope becomes too long to look a symbol up, and where functions are compared. -/
theorem recursive_binding_differs : (∃ s, Differs .standard delayed call .nil s) ∧
    (∃ s, Differs shallow abstraction call scope s) ∧ ∃ s, Differs .standard abstraction choice scope s :=
  ⟨differs_delayed, differs_shallow, differs_compared⟩

end Machine

end FieldLisp
