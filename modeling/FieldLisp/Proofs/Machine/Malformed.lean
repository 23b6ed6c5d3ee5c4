import FieldLisp.Proofs.Machine.Refusals

/-!
# Evaluations of malformed forms

An evaluation of a form that breaks its grammar is not completed, however long the lists of the form are. If all
bindings are handed values, it stops with an error value. Only the parameters of a lambda expression are looked at one
by one, each when the function of the one before is called:

* `Machine.DeliversBindings`: all bindings that a run comes to are handed values;
* `Machine.curries_closes`: the value of a lambda expression of several parameters;
* `Machine.evaluate_not_grammatical`: evaluations of forms that break their grammar;
* `Machine.completed_not_grammatical`: one that is completed.
-/

namespace FieldLisp

open Store

variable {s t : Store} {config : Config} {e x list rest body env env' : Pointer} {recursive : Bool}
  {frames : List Frame} {st final : State}

namespace Machine

/-! ## Evaluations -/

/-- Whenever the run of a form of bindings comes to the initial expression of one of them, the binding is handed a
value. -/
def DeliversBindings (config : Config) (e env : Pointer) (s : Store) : Prop :=
  ∀ recursive list body x init inner env' frames t,
    s.items 3 e = some [(bindForm recursive).symbol, list, body] → s.HasBinding list x init →
    RanTo config (.initial e env) s frames ⟨init, env', (bindNode recursive x inner env').onto .outermost⟩ t →
    Delivers config ((bindNode recursive x inner env').onto .outermost)
      ⟨init, env', (bindNode recursive x inner env').onto .outermost⟩ t

/-- A run takes in what collides. -/
def Collides (config : Config) (st : State) (s : Store) : Prop :=
  ∃ frames final t, RanTo config st s frames final t ∧ ¬Set.InjOn Sponge.hash t.content

/-- A run comes to rest without a step from rest. -/
theorem RanTo.without_rest (h : RanTo config st s frames final t) (hs : Reachable s) (hst : st.Held s)
    (hhalted : final.isHalted = true) :
    ∃ frames', RanTo config st s frames' final t ∧ ∀ F ∈ frames', F.input.isHalted = false := by
  obtain ⟨hran, rfl⟩ := h
  induction hran with
  | nil st s => exact ⟨[], .nil _ _ _, List.forall_mem_nil _⟩
  | @cons st s t u F frames hstep hrest ih =>
    obtain ⟨hu, hheld⟩ := reachable_step hs hst hstep
    rw [finalState_cons] at hhalted ⊢
    obtain ⟨frames', hran', hmoves⟩ := ih hu hheld hhalted
    by_cases hrests : st.isHalted = true
    · obtain ⟨G, hstep', houtput⟩ := step_rests config (reachable_sound hs) hst hrests
      cases hstep.symm.trans hstep'
      rw [houtput] at hran' ⊢
      exact ⟨frames', hran', hmoves⟩
    · have hran := (RanTo.step hstep).trans hran'
      refine ⟨F :: frames', hran, List.forall_mem_cons.2 ⟨?_, hmoves⟩⟩
      rw [input_of_step hstep]
      exact Bool.eq_false_iff.2 hrests

section
variable (hs : Reachable s) (he : s.Holds e) (henv : s.Holds env)
include hs he henv

/-- A run that stops with an error value is an evaluation that does, if the budget is large enough. -/
theorem exists_evaluate_fail {code : ErrorCode} (hran : RanTo config (.initial e env) s frames (.fail env' code) t) :
    ∃ E, E.reason = .errorHalted ∧ E.result = .error code ∧
      ∀ budget : Int, E.frames.length ≤ budget → evaluate config budget false e (some env) s = .ok E t := by
  obtain ⟨others, hran, hmoves⟩ := hran.without_rest hs (held_initial he henv) rfl
  refine ⟨⟨others, .errorHalted, .initial e env⟩, rfl, ?_, fun budget hbudget =>
    evaluate_of_ran he henv hran hmoves rfl hbudget⟩
  rw [Evaluation.result, Evaluation.final, hran.final]
  rfl

end

/-- The list of parameters of a larger store. -/
theorem listOf_within {p : Pointer} (h : s.Extends t) (hs : s.Sound) (hp : s.Holds p) (hlist : t.ListOf IsParameter p) :
    s.ListOf IsParameter p := by
  induction hlist with
  | nil tag => exact .nil tag
  | cons tag first _ ih =>
    rw [car_within h hs hp] at first
    rw [cdr_within h hs hp] at ih
    exact .cons tag first (ih (hs.holds_cdr hp))

/-- A lambda expression has its value at once. Where its list of parameters goes on, the body of the function is the
lambda expression of the other parameters. -/
theorem curries_closes (config : Config) (hs : Reachable s) (he : s.Holds e) (henv : s.Holds env)
    (hcurries : s.Curries e x rest body) :
    ∃ F t, RanTo config (.initial e env) s [F]
        ⟨nodePointer .function [x, nested .lambda (some rest) body, env], env, .terminal⟩ t ∧ s.Grows t ∧
      (Set.InjOn Sponge.hash t.content → t.HasNode .function [x, nested .lambda (some rest) body, env] ∧
        t.items 3 (nested .lambda (some rest) body) = some [Form.lambda.symbol, rest, body]) := by
  have hsound := reachable_sound hs
  have hst : State.Held (.initial e env) s := held_initial he henv
  have hexpr := hcurries.expression_eq
  have hmiddle : (middle config (.initial e env) s).1 =
      ⟨⟨nodePointer .function [x, nested .lambda (some rest) body, env], env, .outermost⟩, true⟩ := by
    rw [show State.initial e env = Pursuit.on ⟨e, env, []⟩ .outermost from rfl, middle_eq config ⟨e, env, []⟩ rfl s]
    simp only [EvalPhase.look, hexpr]
    rfl
  obtain ⟨hnext, hsilent⟩ := next_outermost hmiddle
  obtain ⟨F, hstep, hfollows⟩ := step_silent config hsound hst hsilent
  have hran := RanTo.step hstep
  rw [hfollows.output, hnext] at hran
  have hgrows := hran.grows hs hst
  refine ⟨F, _, hran, hgrows, fun hinjective => ?_⟩
  have hsettled : (middle config (.initial e env) s).2.Settled (middle config (.initial e env) s).2 :=
    ⟨.refl _, faithful_of_injOn hinjective (hgrows.reachable hs) (Set.Subset.refl _)⟩
  have hpending : Pending .outermost ⟨e, env, []⟩ s := ⟨hs, hst, trivial⟩
  have hlooked := hpending.looked rfl hsettled
  obtain ⟨hnode, hlist⟩ := hlooked.lambda ((expression_within hgrows.extends_ hsound he).trans hexpr)
  exact ⟨hnode, items_of_hasList (hlist rest rfl)⟩

end Machine

/-! ## Specimens -/

namespace Breach

open Specimen (pair five fives)
open Capture (callee call)
open Machine

theorem bounded_empty (shared : Bool) : (Store.empty shared).Bounded {xs | xs ∈ preimages} :=
  .empty shared fun _ hname => mem_of_name (List.mem_cons_of_mem _ hname)

/-- A store with both forms. -/
structure Prepared (s : Store) : Prop where
  bounded : s.Bounded {xs | xs ∈ preimages}
  pair : ∀ ab ∈ parts, s.IsPair (pair ab.1 ab.2) ab.1 ab.2

theorem exists_prepared : ∃ s, Prepared s := by
  obtain ⟨s, -, hs, -, hcallee⟩ :=
    (bounded_empty false).symbol (show "x" ≠ "nil" by decide) (mem_of_name (by simp [names]))
  have hsound := reachable_sound hs.reachable
  have hfive : s.Holds five := s.holds_immediate (Pointer.immediate_canonical _ _) rfl
  have hbase : ∀ p ∈ [.nil, callee, five, Form.lambda.symbol, Form.bindLet.symbol], s.Holds p := by
    simp only [List.forall_mem_cons, List.not_mem_nil, false_imp_iff, implies_true, and_true]
    exact ⟨s.holds_nil, hcallee, hfive, inherited_holds.symbol hsound _, inherited_holds.symbol hsound _⟩
  have hfounded : Founded [.nil, callee, five, Form.lambda.symbol, Form.bindLet.symbol]
      (parts.map fun ab => (.cons, [ab.1, ab.2])) := by
    simp [parts, Founded, Tag.arity?, call, fives, binding, bindings, lambdaArguments, letArguments, Specimen.pair]
  obtain ⟨t, ht, -, hpairs⟩ := hs.pairs injOn_preimages hbase hfounded fun ab => parts_mem
  exact ⟨t, ht, hpairs⟩

namespace Prepared

variable (h : Prepared s)
include h

theorem mono (ht : t.Bounded {xs | xs ∈ preimages}) (hgrows : s.Grows t) : Prepared t :=
  ⟨ht, fun ab hab => (h.pair ab hab).mono hgrows.extends_⟩

theorem isPair {a b : Pointer} (hab : (a, b) ∈ parts) : s.IsPair (Specimen.pair a b) a b := h.pair (a, b) hab

theorem pair_fives : s.IsPair fives five .nil := h.isPair (by simp [parts])

theorem pair_binding : s.IsPair binding callee fives := h.isPair (by simp [parts])

theorem pair_bindings : s.IsPair bindings binding fives := h.isPair (by simp [parts])

theorem holds_lambdaForm : s.Holds lambdaForm :=
  ((h.isPair (a := Form.lambda.symbol) (b := lambdaArguments) (by simp [parts])).holds
    (reachable_sound h.bounded.reachable)).1

theorem holds_letForm : s.Holds letForm :=
  ((h.isPair (a := Form.bindLet.symbol) (b := letArguments) (by simp [parts])).holds
    (reachable_sound h.bounded.reachable)).1

theorem items_lambdaForm : s.items 3 lambdaForm = some [Form.lambda.symbol, binding, callee] := by
  have hform : s.IsPair lambdaForm Form.lambda.symbol lambdaArguments := h.isPair (by simp [parts])
  have harguments : s.IsPair lambdaArguments binding call := h.isPair (by simp [parts])
  have hbody : s.IsPair call callee .nil := h.isPair (by simp [parts])
  rw [hform.items, harguments.items, hbody.items]
  rfl

theorem items_letForm : s.items 3 letForm = some [Form.bindLet.symbol, bindings, callee] := by
  have hform : s.IsPair letForm Form.bindLet.symbol letArguments := h.isPair (by simp [parts])
  have harguments : s.IsPair letArguments bindings call := h.isPair (by simp [parts])
  have hbody : s.IsPair call callee .nil := h.isPair (by simp [parts])
  rw [hform.items, harguments.items, hbody.items]
  rfl

/-- A number is neither a parameter nor a binding. -/
theorem not_listOf {kind : Pointer → Prop} (hlist : s.IsPair list x fives) (hfive : ¬kind five) :
    ¬s.ListOf kind list := by
  intro hkind
  cases hkind with
  | nil tag => cases hlist.tag.symm.trans tag
  | cons _ _ others =>
    rw [hlist.cdr] at others
    cases others with
    | nil tag => cases tag
    | cons _ first _ =>
      rw [h.pair_fives.car] at first
      exact hfive first

theorem not_grammatical_lambda : ¬s.Grammatical .lambda (s.cdr lambdaForm) := by
  rintro ⟨first, others, hfirst, hopening⟩
  cases (items_cons.1 h.items_lambdaForm).2.2.symm.trans hfirst
  exact h.not_listOf h.pair_binding nofun hopening

theorem not_grammatical_let : ¬s.Grammatical .bindLet (s.cdr letForm) := by
  rintro ⟨first, others, hfirst, hopening⟩
  cases (items_cons.1 h.items_letForm).2.2.symm.trans hfirst
  refine h.not_listOf h.pair_bindings ?_ hopening
  rintro ⟨y, init, -, hitems⟩
  cases hitems

theorem binding?_bindings : s.binding? bindings = some (callee, five, some fives) := by
  have hitems : s.items 2 binding = some [callee, five] := by
    rw [h.pair_binding.items, h.pair_fives.items]
    rfl
  rw [binding?_eq_some, h.pair_bindings.car, h.pair_bindings.cdr]
  exact ⟨rfl, rfl, hitems, rfl⟩

theorem binding?_fives : s.binding? fives = none := by
  have hitems : s.items 2 five = none := rfl
  simp only [binding?, h.pair_fives.car, hitems, ite_self]

theorem curries : s.Curries lambdaForm callee fives callee :=
  ⟨binding, h.items_lambdaForm, rfl, h.pair_binding.car, h.pair_binding.cdr, rfl, rfl⟩

/-- The form of what is left after the first item is taken in. -/
theorem bounded_nested {form : Form} (hform : form = .lambda ∨ form = .bindLet) :
    (s.putNested form (some fives) callee).Bounded {xs | xs ∈ preimages} ∧
      s.Grows (s.putNested form (some fives) callee) := by
  have hsound := reachable_sound h.bounded.reachable
  refine h.bounded.putList injOn_preimages ?_ ?_
  · simp only [List.forall_mem_cons, List.not_mem_nil, false_imp_iff, implies_true, and_true]
    exact ⟨inherited_holds.symbol hsound form, (h.pair_fives.holds hsound).1, (h.pair_binding.holds hsound).2.1⟩
  · intro p ps hps
    simp only [List.suffix_cons_iff, List.suffix_nil, List.cons.injEq, reduceCtorEq, or_false] at hps
    have hothers : listPointer [fives, callee] = others := rfl
    have hcall : listPointer [callee] = call := rfl
    obtain ⟨rfl, rfl⟩ | ⟨rfl, rfl⟩ | ⟨rfl, rfl⟩ := hps
    · rcases hform with rfl | rfl <;> exact taken_mem (by simp [taken, hothers])
    · exact taken_mem (by simp [taken, hcall])
    · have hpart : (callee, .nil) ∈ parts := by simp [parts]
      exact parts_mem hpart

/-- The form `(lambda (x 5) x)` has a function for its value. -/
theorem lambda_run (config : Config) : ∃ F t, RanTo config (.initial lambdaForm .nil) s [F]
    ⟨nodePointer .function [callee, remaining .lambda, .nil], .nil, .terminal⟩ t := by
  have hlook : EvalPhase.look config.lookupDepth lambdaForm .nil s =
      (.value (nodePointer .function [callee, remaining .lambda, .nil]),
        (s.putNested .lambda (some fives) callee).put .function [callee, remaining .lambda, .nil]) := by
    simp only [EvalPhase.look, h.curries.expression_eq]
    rfl
  obtain ⟨hnested, hgrows⟩ := h.bounded_nested (.inl rfl)
  have hcontent := (content_put_subset _ .function [callee, remaining .lambda, .nil] hgrows.sound).trans
    (Set.insert_subset (taken_mem (by simp [taken])) hnested.content)
  obtain ⟨F, -, hran, -⟩ := h.bounded.ends config (held_initial h.holds_lambdaForm s.holds_nil) hlook hcontent
  exact ⟨F, _, hran⟩

/-- What the form `(let ((x 5) 5) x)` waits with for the number. -/
def waiting : Waiting := bindNode false callee (remaining .bindLet) .nil

/-- The form `(let ((x 5) 5) x)` binds the number, and stops. -/
theorem let_run (config : Config) : ∃ F G H t u,
    RanTo config (.initial letForm .nil) s [F] ⟨five, .nil, waiting.onto .outermost⟩ t ∧
    RanTo config ⟨five, .nil, waiting.onto .outermost⟩ t [G]
      ⟨remaining .bindLet, nodePointer .env [callee, five, .nil], .outermost⟩ u ∧
    Hands G five (waiting.onto .outermost) ∧
    RanTo config ⟨remaining .bindLet, nodePointer .env [callee, five, .nil], .outermost⟩ u [H]
      (.fail (nodePointer .env [callee, five, .nil]) .invalidForm) u ∧
    u.Bounded {xs | xs ∈ preimages} := by
  have hs := h.bounded.reachable
  have hst : State.Held (.initial letForm .nil) s := held_initial h.holds_letForm s.holds_nil
  have hexpr : s.expression letForm = .bind false callee five (some fives) callee :=
    expression_of_binding h.items_letForm h.binding?_bindings
  obtain ⟨hnested, hgrows⟩ := h.bounded_nested (.inr rfl)
  -- The number is evaluated first.
  have hlook : EvalPhase.look config.lookupDepth letForm .nil s =
      (.turn (.wait five .nil waiting), s.putNested .bindLet (some fives) callee) := by
    simp only [EvalPhase.look, hexpr]
    rfl
  obtain ⟨t, ⟨F, -, hran, ht, hst', hheld'⟩, hfound⟩ := h.bounded.looks config injOn_preimages hst rfl hlook
    hnested.content (taken_mem (by simp [taken, waiting, bindNode, bindTag, Waiting.children]))
  -- It is bound.
  have hturn : ContPhase.turn waiting five .nil t =
      (.enter (remaining .bindLet) (nodePointer .env [callee, five, .nil]), t.put .env [callee, five, .nil]) := rfl
  have hcontent := (content_put_subset t .env [callee, five, .nil] (reachable_sound ht.reachable)).trans
    (Set.insert_subset (taken_mem (by simp [taken])) ht.content)
  obtain ⟨u, ⟨G, -, hran', hu, hgrows', hheld''⟩, -⟩ := ht.hands config injOn_preimages hheld' hfound rfl
    (bindNode_silent ..) hturn hcontent trivial
  have hhands : Hands G five (waiting.onto .outermost) :=
    (hands_iff (reachable_sound ht.reachable) hheld' hran'.single).2 ⟨.nil, rfl⟩
  -- The form of the rest breaks the grammar.
  have hpending : Machine.Pending .outermost ⟨letForm, .nil, []⟩ s := ⟨hs, hst, trivial⟩
  have hrest := hpending.finds_nested rfl injOn_preimages hran ht.content hgrows'.extends_ hexpr
  have hmalformed := expression_of_unbound hrest (show fives.tag ≠ .nil by decide)
    (h.mono hu (hst'.trans hgrows')).binding?_fives
  obtain ⟨H, hran''⟩ := refuses_malformed config hu.reachable hheld'' rfl hmalformed
  exact ⟨F, G, H, t, u, hran, hran', hhands, hran'', hu⟩

/-- The only binding that the run of `(let ((x 5) 5) x)` comes to is handed the number. -/
theorem delivers_let (config : Config) : DeliversBindings config letForm .nil s := by
  obtain ⟨F, G, H, t, u, hran, hran', hhands, hran'', -⟩ := h.let_run config
  have hs := h.bounded.reachable
  have hst : State.Held (.initial letForm .nil) s := held_initial h.holds_letForm s.holds_nil
  have hwhole := hran.trans (hran'.trans hran'')
  intro recursive list body x init inner env' frames r hitems hbinding hreached
  obtain ⟨others, hframes, -⟩ := hwhole.rest hs hst rfl hreached (Waiting.not_halted _)
  have hcont {st : State} {m : Store} (hst : RanTo config (.initial letForm .nil) s frames st m) :
      st.cont.tag = bindTag recursive := by
    obtain ⟨rfl, -⟩ := hst.unique hreached
    rfl
  -- All other states of the run have no binding on top of their continuations.
  rcases frames with _ | ⟨A, _ | ⟨B, _ | ⟨C, frames⟩⟩⟩ <;>
    simp only [List.cons_append, List.nil_append, List.cons.injEq, List.nil_eq, List.append_eq_nil_iff] at hframes
  · cases recursive <;> cases hcont (.nil ..)
  · obtain ⟨rfl, -⟩ := hframes
    obtain ⟨hsame, rfl⟩ := hran.unique hreached
    obtain ⟨-, -, hbase⟩ := State.mk.inj hsame
    rw [← hsame, ← hbase]
    exact ⟨[G], u, hran'.ran, G, List.mem_singleton_self G, five, hhands⟩
  · obtain ⟨rfl, rfl, -⟩ := hframes
    cases recursive <;> cases hcont (hran.trans hran')
  · obtain ⟨rfl, rfl, rfl, rfl, -⟩ := hframes
    cases recursive <;> cases hcont hwhole

end Prepared

end Breach

/-! ## Forms that break their grammar -/

namespace Machine

section
variable {form : Form} (hs : Reachable s) (he : s.Holds e) (henv : s.Holds env) (htag : e.tag = .cons)
  (hhead : s.car e = form.symbol) (hbreaks : ¬s.Grammatical form (s.cdr e))
include hs he henv htag hhead hbreaks

section
variable (hwhole : ∀ x rest body, ¬s.Curries e x rest body)
include hwhole

/-- The run of a form that breaks its grammar is not completed, unless the form is a lambda expression of which a step
does not see the end. -/
theorem unfinished_of_not_grammatical (hran : RanTo config (.initial e env) s frames final t)
    (hinjective : Set.InjOn Sponge.hash t.content) : final.cont.tag ≠ .terminal := by
  have hst : State.Held (.initial e env) s := held_initial he henv
  rcases expression_of_not_grammatical hs he htag hhead hbreaks with
    hmalformed | ⟨x, rest, body, hcurries⟩ | ⟨recursive, list, body, hitems, hlist⟩
  · obtain ⟨F, hfails⟩ := refuses_malformed config hs hst rfl hmalformed
    exact hfails.not_terminal hs hst hran
  · exact absurd hcurries (hwhole x rest body)
  · have hsound := reachable_sound hs
    have hheld : s.Holds list := holds_of_items hsound he hitems list (by simp)
    exact unfinished_of_breaks hlist hsound hheld (.refl s) ⟨hs, hst, trivial⟩ hitems hran hinjective

/-- If all bindings of the form are handed values, the run stops with an error value. -/
theorem fails_of_not_grammatical (hdelivers : DeliversBindings config e env s)
    (hcollides : ¬Collides config (.initial e env) s) :
    ∃ frames env' t, RanTo config (.initial e env) s frames (.fail env' .invalidForm) t := by
  have hst : State.Held (.initial e env) s := held_initial he henv
  rcases expression_of_not_grammatical hs he htag hhead hbreaks with
    hmalformed | ⟨x, rest, body, hcurries⟩ | ⟨recursive, list, body, hitems, hlist⟩
  · obtain ⟨F, hfails⟩ := refuses_malformed config hs hst rfl hmalformed
    exact ⟨[F], env, s, hfails⟩
  · exact absurd hcurries (hwhole x rest body)
  · have hsound := reachable_sound hs
    have hheld : s.Holds list := holds_of_items hsound he hitems list (by simp)
    have hinjective : ∀ frames final r, RanTo config (.initial e env) s frames final r →
        Set.InjOn Sponge.hash r.content := by
      intro frames final r hran
      by_contra hcollision
      exact hcollides ⟨frames, final, r, hran, hcollision⟩
    exact fails_of_breaks hlist hsound hheld (.refl s) ⟨hs, hst, trivial⟩ hitems
      (fun x init inner env' frames u hbinding =>
        hdelivers recursive list body x init inner env' frames u hitems hbinding)
      hinjective

end

/-- Forms that break their grammar have no value. No evaluation of such a form is completed, unless it takes in
what collides, and if the initial expressions of its bindings deliver values, it stops with an error value. The
parameters of a lambda expression are looked at one by one: if the first one is a symbol and the list goes on,
the value is a function, whose body is the lambda expression of the others and breaks the grammar too. -/
theorem evaluate_not_grammatical :
    (∀ x rest body, s.Curries e x rest body → ∃ E t, E.reason = .completed ∧
      E.result = nodePointer .function [x, nested .lambda (some rest) body, env] ∧
      (∀ budget : Int, 1 ≤ budget → evaluate config budget false e (some env) s = .ok E t) ∧
      (Set.InjOn Sponge.hash t.content →
        t.HasNode .function [x, nested .lambda (some rest) body, env] ∧
        t.car (nested .lambda (some rest) body) = Form.lambda.symbol ∧
        ¬t.Grammatical .lambda (t.cdr (nested .lambda (some rest) body)))) ∧
    ((∀ x rest body, ¬s.Curries e x rest body) →
      (∀ budget cancelled E t, evaluate config budget cancelled e (some env) s = .ok E t →
        Set.InjOn Sponge.hash t.content → E.reason ≠ .completed) ∧
      (DeliversBindings config e env s → ¬Collides config (.initial e env) s →
        ∃ E t, E.reason = .errorHalted ∧ E.result = .error .invalidForm ∧
          ∀ budget : Int, E.frames.length ≤ budget → evaluate config budget false e (some env) s = .ok E t)) := by
  have hsound := reachable_sound hs
  refine ⟨fun x rest body hcurries => ?_, fun hwhole => ⟨fun budget cancelled E t heval hinjective => ?_,
    fun hdelivers hcollides => ?_⟩⟩
  · obtain rfl : form = .lambda := Form.symbol_injective (hhead.symm.trans hcurries.head.2)
    obtain ⟨F, t, hran, hgrows, hfinds⟩ := curries_closes config hs he henv hcurries
    have hmoves : ∀ G ∈ [F], G.input.isHalted = false := by
      rw [List.forall_mem_singleton, input_of_step hran.single]
      rfl
    have hrest : s.Holds rest := inherited_holds.expression hsound he rest
      (by rw [hcurries.expression_eq]; simp [Expression.pointers])
    refine ⟨⟨[F], .completed, .initial e env⟩, t, rfl, ?_, fun budget hbudget =>
      evaluate_of_ran he henv hran hmoves rfl hbudget, fun hinjective => ?_⟩
    · rw [Evaluation.result, Evaluation.final, hran.final]
    · obtain ⟨hnode, hitems⟩ := hfinds hinjective
      obtain ⟨-, hcar, harguments⟩ := items_cons.1 hitems
      refine ⟨hnode, hcar, ?_⟩
      rintro ⟨first, others, hfirst, hopening⟩
      cases harguments.symm.trans hfirst
      exact hcurries.not_listOf hbreaks (listOf_within hgrows.extends_ hsound hrest hopening)
  · exact evaluate_not_completed (fun frames final hran =>
      unfinished_of_not_grammatical hs he henv htag hhead hbreaks hwhole hran hinjective) heval
  · obtain ⟨frames, env', t, hfails⟩ :=
      fails_of_not_grammatical hs he henv htag hhead hbreaks hwhole hdelivers hcollides
    obtain ⟨E, hreason, hresult, heval⟩ := exists_evaluate_fail hs he henv hfails
    exact ⟨E, t, hreason, hresult, heval⟩

end

open Breach in
/-- The form `(let ((x 5) 5) x)` breaks its grammar after a binding, which is handed the number. -/
theorem evaluate_not_grammatical_let : ∃ s E t, Reachable s ∧ s.Holds letForm ∧ letForm.tag = .cons ∧
    s.car letForm = Form.bindLet.symbol ∧ ¬s.Grammatical .bindLet (s.cdr letForm) ∧
    ¬Collides .standard (.initial letForm .nil) s ∧
    (∀ x rest body, ¬s.Curries letForm x rest body) ∧ DeliversBindings .standard letForm .nil s ∧
    E.reason = .errorHalted ∧ E.result = .error .invalidForm ∧
    ∀ budget : Int, E.frames.length ≤ budget → evaluate .standard budget false letForm (some .nil) s = .ok E t := by
  obtain ⟨s, h⟩ := exists_prepared
  obtain ⟨F, G, H, t, u, hran, hran', -, hran'', hu⟩ := h.let_run .standard
  have hs := h.bounded.reachable
  have hst : State.Held (.initial letForm .nil) s := held_initial h.holds_letForm s.holds_nil
  have hwhole := hran.trans (hran'.trans hran'')
  have hcollides : ¬Collides .standard (.initial letForm .nil) s := by
    rintro ⟨frames, final, r, hran, hcollision⟩
    have hcontent := (hran.content_subset hs hst le_rfl).trans (hwhole.rests hs hst rfl _).2
    exact hcollision (injOn_preimages.mono (hcontent.trans hu.content))
  have hhead := (items_cons.1 h.items_letForm).2.1
  have hcurries : ∀ x rest body, ¬s.Curries letForm x rest body := fun x rest body hcurries => by
    cases Form.symbol_injective (hhead.symm.trans hcurries.head.2)
  have hdelivers := h.delivers_let .standard
  obtain ⟨E, t, hreason, hresult, heval⟩ := ((evaluate_not_grammatical hs h.holds_letForm s.holds_nil rfl hhead
    h.not_grammatical_let).2 hcurries).2 hdelivers hcollides
  exact ⟨s, E, t, hs, h.holds_letForm, rfl, hhead, h.not_grammatical_let, hcollides, hcurries, hdelivers,
    hreason, hresult, heval⟩

open Breach in
/-- The form `(lambda (x 5) x)` breaks its grammar, and has a value. -/
theorem completed_not_grammatical : ∃ s E t, Reachable s ∧ s.Holds lambdaForm ∧ lambdaForm.tag = .cons ∧
    s.car lambdaForm = Form.lambda.symbol ∧ ¬s.Grammatical .lambda (s.cdr lambdaForm) ∧
    evaluate .standard 1 false lambdaForm (some .nil) s = .ok E t ∧ E.reason = .completed ∧
    E.result.tag = .function := by
  obtain ⟨s, h⟩ := exists_prepared
  obtain ⟨F, t, hran⟩ := h.lambda_run .standard
  have hmoves : ∀ G ∈ [F], G.input.isHalted = false := by
    rw [List.forall_mem_singleton, input_of_step hran.single]
    rfl
  have heval : evaluate .standard 1 false lambdaForm (some .nil) s = _ :=
    evaluate_of_ran h.holds_lambdaForm s.holds_nil hran hmoves rfl le_rfl
  refine ⟨s, _, t, h.bounded.reachable, h.holds_lambdaForm, rfl, h.curries.head.2, h.not_grammatical_lambda, heval, rfl,
    ?_⟩
  rw [Evaluation.result, Evaluation.final, hran.final]
  rfl

end Machine

end FieldLisp
