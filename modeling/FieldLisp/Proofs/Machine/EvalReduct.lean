import FieldLisp.Proofs.Machine.Computing

/-!
# Computing the evaluation phase

On a store that holds the state, the phase reads what is there, the guard of exactly one rule holds,
and this rule computes what the phase makes of the state:

* `EvalPhase.view`, `EvalPhase.gives_prelude`: what the rules see of a state;
* `EvalPhase.guards_view`: the guard of the rule `EvalPhase.firing` holds, and no other;
* `EvalPhase.gives_run`: this rule computes `EvalPhase.reduct`.
-/

namespace FieldLisp

open StepModel Workspace

/-- The outcome as the rules compute it. -/
def Outcome.toStep (o : Outcome) : Step Int Pointer :=
  ⟨o.state.expr, o.state.env, o.state.cont, bit o.returned⟩

theorem Tag.contains_envs (tag : Tag) : Tag.envs.contains tag = tag.isEnv := by cases tag <;> rfl

namespace Store

variable {s : Store}

/-! ## Lists -/

/-- Only a pair has a second part that is a pair. -/
theorem isPair_cdr (s : Store) (p : Pointer) :
    (p.tag == .cons && (s.cdr p).tag == .cons) = ((s.cdr p).tag == .cons) := by
  by_cases h : p.tag = .cons
  · rw [h]
    rfl
  · rw [cdr, if_neg h, beq_eq_false_iff_ne.2 h]
    rfl

theorem isPair_car (s : Store) (p : Pointer) :
    (p.tag == .cons && (s.car p).tag == .cons) = ((s.car p).tag == .cons) := by
  by_cases h : p.tag = .cons
  · rw [h]
    rfl
  · rw [car, if_neg h, beq_eq_false_iff_ne.2 h]
    rfl

theorem items_one (s : Store) (p : Pointer) :
    s.items 1 p = if p.tag == .cons && (s.cdr p).tag == .nil then some [s.car p] else none := by
  simp only [items, beq_iff_eq, Bool.and_eq_true, ite_and]
  split
  · split <;> rfl
  · rfl

theorem items_two (s : Store) (p : Pointer) :
    s.items 2 p = if (s.cdr p).tag == .cons && (s.cdr (s.cdr p)).tag == .nil then
      some [s.car p, s.car (s.cdr p)] else none := by
  rw [items, items_one, ← s.isPair_cdr p]
  split
  · rename_i h
    rw [h, beq_self_eq_true, Bool.true_and]
    split <;> rfl
  · rename_i h
    rw [beq_eq_false_iff_ne.2 h]
    rfl

theorem items_three (s : Store) (p : Pointer) :
    s.items 3 p = if (s.cdr (s.cdr p)).tag == .cons && (s.cdr (s.cdr (s.cdr p))).tag == .nil then
      some [s.car p, s.car (s.cdr p), s.car (s.cdr (s.cdr p))] else none := by
  rw [items, items_two, ← s.isPair_cdr (s.cdr p), ← s.isPair_cdr p]
  split
  · rename_i h
    rw [h, beq_self_eq_true, Bool.true_and]
    split <;> rfl
  · rename_i h
    rw [beq_eq_false_iff_ne.2 h]
    rfl

theorem rest?_eq (p : Pointer) : rest? p = if p.tag == .cons || p.tag == .nil then
    some (if p.tag == .cons then some p else none) else none := by
  unfold rest?
  by_cases hcons : p.tag = .cons
  · simp [hcons]
  · by_cases hnil : p.tag = .nil <;> simp [hcons, hnil]

/-- What is left of a list is the list, and a pair. -/
theorem of_rest? {p : Pointer} {more : Option Pointer} (h : rest? p = some more) :
    ∀ q ∈ more, q = p ∧ q.tag = .cons := by
  intro q hq
  unfold rest? at h
  split at h
  · cases h
    cases hq
    exact ⟨rfl, ‹_›⟩
  · split at h <;> cases h
    cases hq

theorem expression_of_form {e : Pointer} {form : Form} (htag : e.tag = .cons)
    (hform : formOf? (s.car e) = some form) : s.expression e = s.formExpression form (s.cdr e) := by
  simp only [expression, htag, hform]

theorem expression_of_call {e : Pointer} (htag : e.tag = .cons) (hform : formOf? (s.car e) = none) :
    s.expression e = s.callExpression (s.car e) (s.cdr e) := by
  simp only [expression, htag, hform]

end Store

namespace EvalPhase

variable {s : Store} {expr env cont : Pointer} {depth : ℕ}

/-- What the rules of the phase see of a state. -/
def view (s : Store) (expr env cont : Pointer) : Scope Int Pointer where
  expr := expr
  env := env
  cont := cont
  halted := bit (Tag.halts.contains cont.tag)
  isCons := bit (expr.tag == .cons)
  head := s.car expr
  arguments := s.cdr expr
  a1 := s.car (s.cdr expr)
  a2 := s.car (s.cdr (s.cdr expr))
  a3 := s.car (s.cdr (s.cdr (s.cdr expr)))
  tail1 := s.cdr (s.cdr expr)
  tail2 := s.cdr (s.cdr (s.cdr expr))
  tail3 := s.cdr (s.cdr (s.cdr (s.cdr expr)))
  noArgument := bit (expr.tag == .cons && (s.cdr expr).tag == .nil)
  oneArgument := bit ((s.cdr expr).tag == .cons && (s.cdr (s.cdr expr)).tag == .nil)
  twoArguments := bit ((s.cdr (s.cdr expr)).tag == .cons && (s.cdr (s.cdr (s.cdr expr))).tag == .nil)
  threeArguments := bit ((s.cdr (s.cdr (s.cdr expr))).tag == .cons &&
    (s.cdr (s.cdr (s.cdr (s.cdr expr)))).tag == .nil)
  headIs := Form.all.map fun form => (form, bit (formOf? (s.car expr) == some form))

theorem gives_prelude (hs : s.Sound) (hexpr : expr.tag = .cons → s.Holds expr) :
    Gives (prelude expr env cont : ComputeM _) s (view s expr env cont) s := by
  have harguments : s.Holds (s.cdr expr) := by
    by_cases htag : expr.tag = .cons
    · exact hs.holds_cdr (hexpr htag)
    · rw [Store.cdr, if_neg htag]
      exact s.holds_nil
  have hflags : (Form.all.mapM fun form => do
      let same ← pointerEq (s.car expr) (ptr form.symbol)
      pure (form, same) : ComputeM (List (Form × Int))) =
        pure (Form.all.map fun form => (form, bit (formOf? (s.car expr) == some form))) :=
    operatorFlags_eq _ (fun form => form) _
  unfold prelude
  rw [tagIn_eq (by decide) (by decide) (by decide), pure_bind, tagIs_eq, pure_bind]
  refine (gives_unhash2_pair hs hexpr).bind ?_
  simp only [tagIs_eq, both_cons, both_nil, pure_bind, s.isPair_cdr]
  refine (gives_unhash2_pair hs fun _ => harguments).bind ?_
  simp only [s.isPair_cdr]
  refine (gives_unhash2_pair hs fun _ => hs.holds_cdr harguments).bind ?_
  simp only [s.isPair_cdr]
  refine (gives_unhash2_pair hs fun _ => hs.holds_cdr (hs.holds_cdr harguments)).bind ?_
  rw [hflags, pure_bind]
  exact gives_pure _ s

/-! ## Guards -/

/-- The guard of one rule holds, and no other. -/
theorem guards_view (s : Store) (expr env cont : Pointer) :
    (guards (view s expr env cont) : ComputeM _) = pure (EvalRule.all.map fun rule =>
      (rule, bit (rule == firing expr (s.car expr) cont))) := by
  have hflag (form : Form) : flag (view s expr env cont).headIs form =
      bit (formOf? (s.car expr) == some form) := 
    flag_map form.mem_all fun form => bit (formOf? (s.car expr) == some form)
  have hspecial : oneOf ((view s expr env cont).headIs.map (·.2)) =
      bit (Form.all.any (formOf? (s.car expr) == some ·)) := by
    simp only [view, List.map_map]
    exact oneOf_forms (by decide) (by decide)
  have hunary : oneOf (UnaryOp.all.map fun op => flag (view s expr env cont).headIs (Form.unary op)) =
      bit ((UnaryOp.all.map Form.unary).any (formOf? (s.car expr) == some ·)) := by
    simp only [hflag]
    exact oneOf_forms (by decide : UnaryOp.all.map Form.unary ≠ []) (by decide)
  have hbinary : oneOf (BinaryOp.all.map fun op => flag (view s expr env cont).headIs (Form.binary op)) =
      bit ((BinaryOp.all.map Form.binary).any (formOf? (s.car expr) == some ·)) := by
    simp only [hflag]
    exact oneOf_forms (by decide : BinaryOp.all.map Form.binary ≠ []) (by decide)
  have htruth : (valueTags.contains expr.tag && expr == Builtin.truthPointer) = false := by
    refine Bool.eq_false_iff.2 fun hboth => ?_
    rw [Bool.and_eq_true, beq_iff_eq] at hboth
    rw [hboth.2] at hboth
    cases hboth.1
  have htag : (expr == Builtin.truthPointer) = true → expr.tag = .symbol :=
    fun h => by rw [beq_iff_eq.1 h]; rfl
  unfold guards
  simp only [hspecial, hunary, hbinary]
  simp only [hflag]
  simp only [view, ptr_eq, pointerEq_eq, pure_bind, no_bit, both_cons, both_nil, tagIs_eq,
    tagIn_eq (by decide : valueTags ≠ []) (by decide) (by decide),
    tagIn_eq (by decide : expressionTags ≠ []) (by decide) (by decide), oneOf_pair htruth]
  congr 1
  simp only [firing, EvalRule.all, List.map_cons, List.map_nil]
  generalize Tag.halts.contains cont.tag = halted
  generalize (expr == Builtin.truthPointer) = isTruth at htag
  generalize expr.tag = tag at htag
  generalize formOf? (s.car expr) = form
  cases halted with
  | true => rfl
  | false =>
    cases isTruth with
    | true =>
      rw [htag rfl]
      rfl
    | false =>
      cases tag
      case cons =>
        cases form with
        | none => rfl
        | some form =>
          cases form with
          | unary op => cases op <;> rfl
          | binary op => cases op <;> rfl
          | _ => rfl
      all_goals rfl

/-! ## Rules -/

theorem symbol_of_form {head : Pointer} {form : Form} (h : formOf? head = some form) :
    head = form.symbol := by
  rw [← beq_iff_eq, beq_symbol, h, beq_self_eq_true]

/-- The rule computes what the phase makes of the state. -/
def Computes (depth : ℕ) (s : Store) (expr env cont : Pointer) (x : ComputeM (Step Int Pointer)) :
    Prop :=
  Gives x s (evaluate depth ⟨expr, env, cont⟩ s).1.toStep (evaluate depth ⟨expr, env, cont⟩ s).2

/-- The last lines of several rules: a node is taken in that says how to go on after a first
expression. -/
theorem gives_push (hs : s.Sound) (env cont first : Pointer) (tag : Tag) (cs : List Pointer) (ok : Bool)
    (htag : tag.arity? = some cs.length) (hcs : ok = true → ∀ c ∈ cs, s.Holds c) :
    let reduct := if ok then push env first tag cs s else deliver env cont (.error .invalidForm, s)
    Gives (do
      let next ← hashTag tag cs (some (bit ok))
      Step.choose (bit ok) ⟨first, env, next, lit 0⟩ (.fail env .invalidForm)) s reduct.1.toStep
      reduct.2 := by
  cases ok with
  | true =>
    refine (gives_hashTag hs htag (hcs rfl) rfl).bind ?_
    rw [choose_bit]
    exact gives_pure _ _
  | false =>
    refine (gives_hashTag_off tag cs s rfl).bind ?_
    rw [choose_bit]
    exact gives_pure _ _

section
variable (hs : s.Sound) (hexpr : s.Holds expr) (henv : s.Holds env) (hcont : s.Holds cont)
include hs hexpr

theorem gives_thunk (htag : expr.tag = .thunk) :
    Computes depth s expr env cont (thunk (view s expr env cont)) := by
  simp only [Computes, evaluate, Store.expression, htag]
  unfold thunk
  exact (gives_unhash2 hs (by simp only [htag]; rfl) hexpr rfl).bind (gives_pure _ s)

omit hs hexpr in
theorem gives_quote (htag : expr.tag = .cons) (hform : formOf? (s.car expr) = some .quote) :
    Computes depth s expr env cont (quote (view s expr env cont)) := by
  unfold Computes quote
  simp only [evaluate, Store.expression_of_form htag hform, Store.formExpression, Store.items_one,
    view, choose_bit]
  split
  · exact gives_pure _ s
  · exact gives_pure _ s

include henv hcont

theorem gives_cond (htag : expr.tag = .cons) (hform : formOf? (s.car expr) = some .cond) :
    Computes depth s expr env cont (cond (view s expr env cont)) := by
  unfold Computes cond
  simp only [evaluate, Store.expression_of_form htag hform, Store.formExpression, Store.items_three,
    view]
  have harguments := hs.holds_cdr hexpr
  generalize s.cdr expr = arguments at harguments ⊢
  generalize ((s.cdr (s.cdr arguments)).tag == .cons &&
    (s.cdr (s.cdr (s.cdr arguments))).tag == .nil) = ok
  have hpush := gives_push hs env cont (s.car arguments) .branch
    [s.car (s.cdr arguments), s.car (s.cdr (s.cdr arguments)), env, cont] ok rfl fun _ => by
      simp [hs.holds_car (hs.holds_cdr harguments),
        hs.holds_car (hs.holds_cdr (hs.holds_cdr harguments)), henv, hcont]
  cases ok <;> exact hpush

omit hexpr henv in
theorem gives_unary {op : UnaryOp} (htag : expr.tag = .cons)
    (hform : formOf? (s.car expr) = some (.unary op)) :
    Computes depth s expr env cont (unary (view s expr env cont)) := by
  unfold Computes unary
  simp only [evaluate, Store.expression_of_form htag hform, Store.formExpression, Store.items_one,
    view, ptr_eq, symbol_of_form hform]
  generalize s.cdr expr = arguments
  generalize (arguments.tag == .cons && (s.cdr arguments).tag == .nil) = ok
  have hpush := gives_push hs env cont (s.car arguments) .unary
    [(Form.unary op).symbol, .nil, .nil, cont] ok rfl fun _ => by
      simp [hs.holds_symbol, s.holds_nil, hcont]
  cases ok <;> exact hpush

theorem gives_binary {op : BinaryOp} (htag : expr.tag = .cons)
    (hform : formOf? (s.car expr) = some (.binary op)) :
    Computes depth s expr env cont (binary (view s expr env cont)) := by
  unfold Computes binary
  simp only [evaluate, Store.expression_of_form htag hform, Store.formExpression, Store.items_two,
    view, symbol_of_form hform]
  have harguments := hs.holds_cdr hexpr
  generalize s.cdr expr = arguments at harguments ⊢
  generalize ((s.cdr arguments).tag == .cons && (s.cdr (s.cdr arguments)).tag == .nil) = ok
  have hpush := gives_push hs env cont (s.car arguments) .binary
    [(Form.binary op).symbol, s.car (s.cdr arguments), env, cont] ok rfl fun _ => by
      simp [hs.holds_symbol, hs.holds_car (hs.holds_cdr harguments), henv, hcont]
  cases ok <;> exact hpush

theorem gives_apply (htag : expr.tag = .cons) (hform : formOf? (s.car expr) = none) :
    Computes depth s expr env cont (apply (view s expr env cont)) := by
  unfold Computes apply
  simp only [evaluate, Store.expression_of_call htag hform, Store.callExpression, view, htag,
    beq_self_eq_true, Bool.true_and, tagIs_eq, pure_bind, select_bit, selectPointer_bit, ptr_eq,
    oneOf_pair (MarkM.tags_exclusive _ .nil .cons (by decide))]
  have harguments := hs.holds_cdr hexpr
  generalize s.cdr expr = arguments at harguments ⊢
  by_cases hnil : arguments.tag = .nil
  · have hpush := gives_push hs env cont (s.car expr) .call0 [env, .nil, .nil, cont] true rfl
      fun _ => by
        simp [s.holds_nil, henv, hcont]
    simp only [hnil, beq_self_eq_true, if_true]
    exact hpush
  · have hpush := gives_push hs env cont (s.car expr) .call
      [s.car arguments, s.cdr arguments, env, cont] (arguments.tag == .cons) rfl fun _ => by
        simp [hs.holds_car harguments, hs.holds_cdr harguments, henv, hcont]
    simp only [hnil, beq_eq_false_iff_ne.2 hnil, Bool.false_or, Bool.false_eq_true, if_false]
    by_cases hcons : arguments.tag = .cons
    · simp only [hcons, beq_self_eq_true, if_true] at hpush ⊢
      exact hpush
    · simp only [hcons, beq_eq_false_iff_ne.2 hcons, Bool.false_eq_true, if_false] at hpush ⊢
      exact hpush

/-! ## Lambdas and bindings -/

omit hexpr henv hcont in
/-- Lines that two rules share: a node is taken in that has the rest of a form as a child, which is a
form itself if more parameters or bindings follow. -/
theorem gives_nesting (tag : Tag) (form : Form) {rest body : Pointer} (ok curried : Bool)
    (children : Pointer → List Pointer) (f : Pointer → Step Int Pointer)
    (htag : ∀ p, tag.arity? = some (children p).length) (hrest : s.Holds rest) (hbody : s.Holds body)
    (hchildren : ok = true → ∀ t, s.Extends t → ∀ p, t.Holds p → ∀ c ∈ children p, t.Holds c) :
    let more := if curried then some rest else none
    Gives (do
      let inner ← buildList [form.symbol, rest, body] (some (bit (ok && curried)))
      let node ← hashTag tag (children (if curried then inner else body)) (some (bit ok))
      pure (f node)) s
      (f (if ok then Store.nodePointer tag (children (nested form more body)) else .nil))
      (if ok then (s.putNested form more body).put tag (children (nested form more body)) else s) := by
  have off : ∃ inner, Gives (buildList [form.symbol, rest, body] (some (bit false))) s inner s :=
    gives_buildList_off _ s rfl
  obtain ⟨inner, hinner⟩ := off
  cases ok with
  | false => exact hinner.bind ((gives_hashTag_off _ _ s rfl).bind (gives_pure _ s))
  | true =>
    cases curried with
    | false =>
      exact hinner.bind ((gives_hashTag hs (htag body) (hchildren rfl s (.refl s) body hbody) rfl).bind
        (gives_pure _ _))
    | true =>
      have hitems : ∀ p ∈ [form.symbol, rest, body], s.Holds p := by
        simp [hs.holds_symbol, hrest, hbody]
      obtain ⟨hsound, hext, hlist⟩ := Store.takes_putList hs hitems
      exact (gives_buildList hs hitems rfl).bind ((gives_hashTag hsound (htag _)
        (hchildren rfl _ hext _ hlist) rfl).bind (gives_pure _ _))

omit hs hexpr henv hcont in
/-- A lambda has two arguments, the first of which is nil or begins with a symbol. -/
theorem formExpression_lambda (s : Store) (arguments : Pointer) :
    s.formExpression .lambda arguments =
      let list := s.car arguments
      if (s.cdr arguments).tag == .cons && (s.cdr (s.cdr arguments)).tag == .nil &&
          (list.tag == .nil || list.tag == .cons && (s.car list).tag == .symbol &&
            ((s.cdr list).tag == .cons || (s.cdr list).tag == .nil)) then
        .lambda (if list.tag == .nil then Builtin.noParameterPointer else s.car list)
          (if (s.cdr list).tag == .cons then some (s.cdr list) else none) (s.car (s.cdr arguments))
      else .malformed := by
  simp only [Store.formExpression, Store.items_two, Store.parameters?, Store.rest?_eq]
  generalize ((s.cdr arguments).tag == .cons && (s.cdr (s.cdr arguments)).tag == .nil) = two
  generalize s.car arguments = list
  cases two with
  | false => rfl
  | true =>
    by_cases hnil : list.tag = .nil
    · simp [hnil, Store.cdr, Pointer.nil, Pointer.immediate, Pointer.ofDigest]
    · by_cases hnamed : list.tag = .cons ∧ (s.car list).tag = .symbol
      · by_cases hmore : (s.cdr list).tag = .cons ∨ (s.cdr list).tag = .nil
        · simp [hnamed, hmore]
        · simp [hnamed, hmore]
      · simp [hnil, hnamed]

omit hcont in
theorem gives_lambda (htag : expr.tag = .cons) (hform : formOf? (s.car expr) = some .lambda) :
    Computes depth s expr env cont (lambda (view s expr env cont)) := by
  unfold Computes lambda
  simp only [evaluate, Store.expression_of_form htag hform, formExpression_lambda, view]
  have harguments := hs.holds_cdr hexpr
  generalize s.cdr expr = arguments at harguments ⊢
  have hlist := hs.holds_car harguments
  have hbody := hs.holds_car (hs.holds_cdr harguments)
  generalize s.car arguments = list at hlist ⊢
  generalize s.car (s.cdr arguments) = body at hbody ⊢
  generalize ((s.cdr arguments).tag == .cons && (s.cdr (s.cdr arguments)).tag == .nil) = two
  simp only [tagIs_eq, pure_bind]
  refine (gives_unhash2_pair hs fun _ => hlist).bind ?_
  have hfirst := hs.holds_car hlist
  have hmore := hs.holds_cdr hlist
  have hexclusive (b d : Bool) : (list.tag == .nil && (list.tag == .cons && b && d)) = false := by
    rw [Bool.and_assoc, ← Bool.and_assoc, MarkM.tags_exclusive _ .nil .cons (by decide), Bool.false_and]
  simp only [oneOf_pair (MarkM.tags_exclusive _ .cons .nil (by decide)), both_cons, both_nil, pure_bind,
    oneOf_pair (hexclusive _ _), selectPointer_bit, choose_bit, ptr_eq]
  generalize s.car list = first at hfirst ⊢
  generalize s.cdr list = more at hmore ⊢
  generalize (two && (list.tag == .nil || list.tag == .cons && first.tag == .symbol &&
    (more.tag == .cons || more.tag == .nil))) = ok
  have hnesting := gives_nesting hs .function .lambda ok (more.tag == .cons)
    (fun b => [if list.tag == .nil then Builtin.noParameterPointer else first, b, env])
    (fun function => if ok then ⟨function, env, cont, lit 1⟩ else .fail env .invalidForm)
    (fun _ => rfl) hmore hbody fun _ t hext b hb => by
      have hparameter : s.Holds (if list.tag == .nil then Builtin.noParameterPointer else first) := by
        split
        · exact hs.holds_builtin (by decide)
        · exact hfirst
      simpa [hb, hext.holds henv] using hext.holds hparameter
  cases ok <;> exact hnesting

omit hs hexpr henv hcont in
/-- A form of bindings has two arguments, the first of which is nil or begins with a symbol and an
expression. -/
theorem bindExpression_eq (s : Store) (recursive : Bool) (arguments : Pointer) :
    s.bindExpression recursive arguments =
      let list := s.car arguments
      let var := s.car (s.car list)
      let tail := s.cdr (s.car list)
      let two := (s.cdr arguments).tag == .cons && (s.cdr (s.cdr arguments)).tag == .nil
      if two && list.tag == .nil then .body (s.car (s.cdr arguments))
      else if two && (tail.tag == .cons && var.tag == .symbol && (s.cdr tail).tag == .nil &&
          ((s.cdr list).tag == .cons || (s.cdr list).tag == .nil)) then
        .bind recursive var (s.car tail) (if (s.cdr list).tag == .cons then some (s.cdr list) else none)
          (s.car (s.cdr arguments))
      else .malformed := by
  simp only [Store.bindExpression, Store.items_two, Store.binding?, Store.rest?_eq]
  generalize ((s.cdr arguments).tag == .cons && (s.cdr (s.cdr arguments)).tag == .nil) = two
  generalize s.car arguments = list
  cases two with
  | false => rfl
  | true =>
    by_cases hnil : list.tag = .nil
    · simp [hnil]
    · by_cases hcons : list.tag = .cons
      · by_cases htwo : (s.cdr (s.car list)).tag = .cons ∧ (s.cdr (s.cdr (s.car list))).tag = .nil
        · by_cases hvar : (s.car (s.car list)).tag = .symbol
          · by_cases hmore : (s.cdr list).tag = .cons ∨ (s.cdr list).tag = .nil
            · simp [hcons, htwo, hvar, hmore]
            · simp [hcons, htwo, hvar, hmore]
          · simp [hcons, htwo, hvar]
        · have hbroken : ((s.cdr (s.car list)).tag == .cons && (s.car (s.car list)).tag == .symbol &&
              (s.cdr (s.cdr (s.car list))).tag == .nil) = false := by
            rw [Bool.and_right_comm, Bool.eq_false_iff]
            exact fun h => htwo (by simpa using (Bool.and_eq_true_iff.1 h).1)
          simp [hcons, htwo, hbroken]
      · have htail : (s.cdr (s.car list)).tag = .nil := by
          rw [Store.car, if_neg hcons]
          rfl
        simp [hnil, hcons, htail]

/-- The rule of a kind of bindings, where the head is its symbol. -/
theorem gives_binding (recursive : Bool) (htag : expr.tag = .cons)
    (hform : formOf? (s.car expr) = some (bindForm recursive)) :
    Computes depth s expr env cont (binding (bindTag recursive) (view s expr env cont)) := by
  have hexpression : s.expression expr = s.bindExpression recursive (s.cdr expr) := by
    rw [Store.expression_of_form htag hform]
    cases recursive <;> rfl
  have harity : (bindTag recursive).arity? = some 4 := by cases recursive <;> rfl
  unfold Computes binding
  simp only [evaluate, hexpression, bindExpression_eq, view, symbol_of_form hform]
  have harguments := hs.holds_cdr hexpr
  generalize s.cdr expr = arguments at harguments ⊢
  have hlist := hs.holds_car harguments
  have hbody := hs.holds_car (hs.holds_cdr harguments)
  generalize s.car arguments = list at hlist ⊢
  generalize s.car (s.cdr arguments) = body at hbody ⊢
  generalize ((s.cdr arguments).tag == .cons && (s.cdr (s.cdr arguments)).tag == .nil) = two
  simp only [tagIs_eq, pure_bind]
  refine (gives_unhash2_pair hs fun _ => hlist).bind ?_
  simp only [both_cons, both_nil, pure_bind, s.isPair_car]
  refine (gives_unhash2_pair hs fun _ => hs.holds_car hlist).bind ?_
  simp only [s.isPair_cdr]
  refine (gives_unhash2_pair hs fun _ => hs.holds_cdr (hs.holds_car hlist)).bind ?_
  have hexclusive : (list.tag == .nil && ((s.cdr (s.car list)).tag == .cons &&
      (s.car (s.car list)).tag == .symbol && (s.cdr (s.cdr (s.car list))).tag == .nil &&
      ((s.cdr list).tag == .cons || (s.cdr list).tag == .nil))) = false := by
    by_cases hnil : list.tag = .nil
    · have htail : (s.cdr (s.car list)).tag = .nil := by
        rw [Store.car, if_neg (by rw [hnil]; decide)]
        rfl
      rw [htail]
      exact Bool.and_false _
    · rw [beq_eq_false_iff_ne.2 hnil, Bool.false_and]
  have hvar := hs.holds_car (hs.holds_car hlist)
  have hinit := hs.holds_car (hs.holds_cdr (hs.holds_car hlist))
  have hrest := hs.holds_cdr hlist
  simp only [oneOf_pair (MarkM.tags_exclusive _ .cons .nil (by decide)), both_cons, both_nil, pure_bind,
    oneOf_pair hexclusive, no_bit, selectPointer_bit, choose_bit]
  generalize ((s.cdr (s.car list)).tag == .cons && (s.car (s.car list)).tag == .symbol &&
    (s.cdr (s.cdr (s.car list))).tag == .nil && ((s.cdr list).tag == .cons ||
      (s.cdr list).tag == .nil)) = wellFormed
  generalize s.car (s.car list) = var at hvar ⊢
  generalize s.car (s.cdr (s.car list)) = init at hinit ⊢
  generalize s.cdr list = rest at hrest ⊢
  generalize (list.tag == .nil) = empty
  have hnesting := gives_nesting hs (bindTag recursive) (bindForm recursive)
    (two && (empty || wellFormed) && !empty) (rest.tag == .cons)
    (fun b => [var, b, env, cont])
    (fun next => if two && (empty || wellFormed) then
      if empty then ⟨body, env, cont, lit 0⟩ else ⟨init, env, next, lit 0⟩
      else .fail env .invalidForm)
    (fun _ => harity) hrest hbody fun _ t hext b hb => by
      simp [hext.holds hvar, hb, hext.holds henv, hext.holds hcont]
  cases two <;> cases empty <;> cases wellFormed <;> exact hnesting

end

/-! ## Symbols -/

/-- What a search has come to. -/
def Arrives (s : Store) (result : Search Int Pointer) : Store.Binding → Prop
  | .at node => result.hit = bit true ∧ result.searching = bit false ∧ result.found = s.part node 1 ∧
    result.foundNode = node ∧ s.Holds node ∧ node.tag.isEnv = true
  | .unbound => result.hit = bit false ∧ result.found = .nil ∧
    ∃ searching, result.searching = bit searching ∧ (searching && result.node.tag.isEnv) = false
  | .beyond => result.hit = bit false ∧ result.found = .nil ∧ result.searching = bit true ∧
    result.node.tag.isEnv = true

/-- One node is inspected. -/
theorem gives_search_succ (hs : s.Sound) {sought node : Pointer} (found foundNode : Pointer)
    (searching hit : Bool)
    {result : Search Int Pointer} (active matched : Bool)
    (hnode : active = true → s.Holds node) (hhit : (hit && searching) = false)
    (hactive : active = (searching && node.tag.isEnv))
    (hmatched : matched = (active && s.part node 0 == sought))
    (hrest : Gives (search sought depth ⟨if active then s.part node 2 else .nil,
      bit (active && !matched), bit (hit || matched), if matched then s.part node 1 else found,
      if matched then node else foundNode⟩ : ComputeM _) s result s) :
    Gives (search sought (depth + 1) ⟨node, bit searching, bit hit, found, foundNode⟩ : ComputeM _) s
      result s := by
  rw [search, tagIn_eq (by decide) (by decide) (by decide), pure_bind, both_cons, both_nil,
    pure_bind, Tag.contains_envs, ← hactive]
  have hadd : (hit && matched) = false → ElementModel.add (bit hit) (bit matched) =
      bit (hit || matched) := oneOf_pair
  cases active with
  | false =>
    obtain rfl : matched = false := hmatched
    refine (gives_unhash3_off node s rfl).bind ?_
    simp only [pointerEq_eq, both_cons, both_nil, pure_bind, no_bit, selectPointer_bit,
      Bool.false_and, hadd (Bool.and_false _)]
    exact hrest
  | true =>
    obtain ⟨rfl, henv⟩ := Bool.and_eq_true_iff.1 hactive.symm
    rw [Bool.true_and] at hmatched
    rw [Bool.and_true] at hhit
    refine (gives_unhash3 hs (Tag.arity_of_isEnv henv) (hnode rfl) rfl).bind ?_
    simp only [pointerEq_eq, both_cons, both_nil, pure_bind, no_bit, selectPointer_bit,
      Bool.true_and, ← hmatched, hadd (by rw [hhit, Bool.false_and])]
    exact hrest

/-- A search that is over changes nothing. -/
theorem gives_search_idle (hs : s.Sound) (sought : Pointer) (hit : Bool) (found foundNode : Pointer)
    (depth : ℕ) (node : Pointer) : ∃ last,
      Gives (search sought depth ⟨node, bit false, bit hit, found, foundNode⟩ : ComputeM _) s
        ⟨last, bit false, bit hit, found, foundNode⟩ s := by
  induction depth generalizing node with
  | zero => exact ⟨node, gives_pure _ s⟩
  | succ depth ih =>
    obtain ⟨last, hlast⟩ := ih .nil
    refine ⟨last, gives_search_succ hs found foundNode false hit false false (fun h => by cases h) (Bool.and_false _)
      rfl rfl ?_⟩
    rw [Bool.or_false]
    exact hlast

/-- A search comes to the binding of the symbol. -/
theorem gives_search (hs : s.Sound) (sought : Pointer) (depth : ℕ) {node : Pointer}
    (hnode : node.tag.isEnv = true → s.Holds node) : ∃ result,
      Gives (search sought depth ⟨node, bit true, bit false, .nil, .nil⟩ : ComputeM _) s result s ∧
        Arrives s result (s.search sought depth node) := by
  induction depth generalizing node with
  | zero =>
    refine ⟨_, gives_pure _ s, ?_⟩
    unfold Store.search
    split
    · rename_i henv
      exact ⟨rfl, rfl, rfl, henv⟩
    · rename_i henv
      exact ⟨rfl, rfl, true, rfl, Bool.eq_false_iff.2 henv⟩
  | succ depth ih =>
    unfold Store.search
    split
    · rename_i henv
      have harity := Tag.arity_of_isEnv henv
      dsimp only
      split
      · rename_i hfound
        obtain ⟨last, hlast⟩ := gives_search_idle hs sought true (s.part node 1) node depth
          (s.part node 2)
        refine ⟨_, gives_search_succ hs .nil .nil true false true true (fun _ => hnode henv) rfl henv.symm
          ?_ hlast, rfl, rfl, rfl, rfl, hnode henv, henv⟩
        rw [hfound, beq_self_eq_true]
        rfl
      · rename_i hfound
        obtain ⟨result, hresult, harrives⟩ := ih fun _ => hs.holds_part harity (hnode henv) 2
        refine ⟨result, gives_search_succ hs .nil .nil true false true false (fun _ => hnode henv) rfl
          henv.symm ?_ hresult, harrives⟩
        rw [beq_eq_false_iff_ne.2 hfound]
        rfl
    · rename_i henv
      obtain ⟨last, hlast⟩ := gives_search_idle hs sought false .nil .nil depth .nil
      exact ⟨_, gives_search_succ hs .nil .nil true false false false (fun h => by cases h) rfl
        (Bool.eq_false_iff.2 henv).symm rfl hlast, rfl, rfl, false, rfl, rfl⟩

theorem gives_lookup (hs : s.Sound) (henv : env.tag.isEnv = true → s.Holds env) (htag : expr.tag = .symbol)
    (hname : expr ≠ Builtin.truthPointer) :
    Computes depth s expr env cont (lookup depth (view s expr env cont)) := by
  have hexpression : s.expression expr = .variable := by
    simp only [Store.expression, htag, if_neg hname]
  obtain ⟨result, hresult, harrives⟩ := gives_search hs expr depth henv
  unfold Computes lookup
  simp only [evaluate, hexpression, Store.lookup, view]
  refine hresult.bind ?_
  obtain ⟨node, searching, hit, found, foundNode⟩ := result
  simp only [tagIs_eq, pure_bind, tagIn_eq (by decide : Tag.envs ≠ []) (by decide) (by decide),
    Tag.contains_envs]
  cases hbinding : s.search expr depth env with
  | unbound =>
    rw [hbinding] at harrives
    obtain ⟨rfl, hfound, searching, rfl, hdone⟩ := harrives
    simp only [both_cons, both_nil, pure_bind, Bool.false_and]
    refine (gives_unhash3_off found s rfl).bind ((gives_hashTag_off _ _ s rfl).bind ?_)
    simp only [selectPointer_bit, choose_bit, pure_bind, hdone]
    exact gives_pure _ s
  | beyond =>
    rw [hbinding] at harrives
    obtain ⟨rfl, hfound, rfl, hmore⟩ := harrives
    simp only [both_cons, both_nil, pure_bind, Bool.false_and]
    refine (gives_unhash3_off found s rfl).bind ((gives_hashTag_off _ _ s rfl).bind ?_)
    simp only [selectPointer_bit, choose_bit, pure_bind, hmore]
    exact gives_pure _ s
  | «at» node =>
    rw [hbinding] at harrives
    simp only [Arrives] at harrives
    obtain ⟨rfl, rfl, rfl, rfl, hheld, hisEnv⟩ := harrives
    have harity := Tag.arity_of_isEnv hisEnv
    have hvalue := hs.holds_part harity hheld 1
    simp only [both_cons, both_nil, pure_bind, Bool.false_and, Bool.true_and, selectPointer_bit,
      choose_bit, if_true]
    by_cases hreclose : foundNode.tag = .recEnv ∧ (s.part foundNode 1).tag = .function
    · have hfunction : (s.part foundNode 1).tag.arity? = some 3 := by
        rw [hreclose.2]
        rfl
      simp only [hreclose, beq_self_eq_true, Bool.and_self, and_self, if_true]
      refine (gives_unhash3 hs hfunction hvalue rfl).bind ((gives_hashTag hs rfl ?_ rfl).bind
        (gives_pure _ _))
      simp [hs.holds_part hfunction hvalue, hheld]
    · have hoff : (foundNode.tag == .recEnv && (s.part foundNode 1).tag == .function) = false :=
        Bool.eq_false_iff.2 fun h => hreclose (by simpa using h)
      simp only [hreclose, hoff, if_false, Bool.false_eq_true]
      exact (gives_unhash3_off _ s rfl).bind ((gives_hashTag_off _ _ s rfl).bind (gives_pure _ s))

/-! ## The phase -/

theorem expression_of_value (h : valueTags.contains expr.tag = true ∨ expr = Builtin.truthPointer) :
    s.expression expr = .value expr := by
  rcases h with h | rfl
  · unfold Store.expression
    cases htag : expr.tag <;> rw [htag] at h <;> first | rfl | cases h
  · change (if Builtin.truthPointer = Builtin.truthPointer then _ else _) = _
    rw [if_pos rfl]

/-- The rule whose guard holds computes what the phase makes of the state. -/
theorem gives_run (depth : ℕ) (hs : s.Sound) (hexpr : s.Holds expr) (henv : s.Holds env)
    (hcont : s.Holds cont) :
    Gives (run depth (firing expr (s.car expr) cont) (view s expr env cont) : ComputeM _) s
      (reduct depth ⟨expr, env, cont⟩ s).1.toStep (reduct depth ⟨expr, env, cont⟩ s).2 := by
  unfold reduct firing
  rw [State.isHalted, ← Tag.contains_halts]
  split
  · exact gives_pure _ s
  split
  · rename_i htag
    cases hform : formOf? (s.car expr) with
    | none => exact gives_apply hs hexpr henv hcont htag hform
    | some form =>
      cases form with
      | quote => exact gives_quote htag hform
      | lambda => exact gives_lambda hs hexpr henv htag hform
      | cond => exact gives_cond hs hexpr henv hcont htag hform
      | bindLet => exact gives_binding hs hexpr henv hcont false htag hform
      | bindRec => exact gives_binding hs hexpr henv hcont true htag hform
      | unary op => exact gives_unary hs hcont htag hform
      | binary op => exact gives_binary hs hexpr henv hcont htag hform
  split
  · rename_i hvalue
    rw [Bool.or_eq_true, beq_iff_eq] at hvalue
    simp only [evaluate, expression_of_value hvalue]
    exact gives_pure _ s
  rename_i hcons hvalue
  split
  · rename_i htag
    exact gives_thunk hs hexpr htag
  split
  · rename_i htag
    exact gives_lookup hs (fun _ => henv) htag fun h => hvalue (by simp [h])
  · rename_i hthunk hsymbol
    have hforeign : s.expression expr = .foreign := by
      unfold Store.expression
      cases htag : expr.tag <;> rw [htag] at hcons hvalue hthunk hsymbol <;>
        first
          | rfl
          | exact absurd rfl hcons
          | exact absurd rfl hvalue
          | exact absurd rfl hthunk
          | exact absurd rfl hsymbol
    simp only [evaluate, hforeign]
    exact gives_pure _ s

end EvalPhase

end FieldLisp
