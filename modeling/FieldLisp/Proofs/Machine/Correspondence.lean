import FieldLisp.Proofs.Machine.Application
import FieldLisp.Proofs.Machine.Counterparts

/-!
# Decisions that correspond

A symbol is bound plainly in one run and recursively in another one. Where the first run goes on from values and
environments, the second one goes on from their counterparts:

* `Evaluates`, `Waits`: expressions and nodes of both runs that correspond;
* `Looks`, `Turns`: decisions of both runs that correspond;
* `EvalPhase.looks`, `ContPhase.turns`: both phases take corresponding decisions.
-/

namespace FieldLisp

open Store

variable {u : Store} {f : Fork} {expr expr' env env' v v' : Pointer} {w w' : Waiting} {depth : ℕ}

/-- What the second run evaluates where the first one evaluates an expression: the same code, or a thunk with the
counterpart of a value. -/
inductive Evaluates (u : Store) (f : Fork) : Pointer → Pointer → Prop
  | code (p : Pointer) : Evaluates u f p p
  | thunk {v v' : Pointer} (hnode : u.HasNode .thunk [v, .nil]) (hnode' : u.HasNode .thunk [v', .nil])
      (hv : Counterpart u f .value v v') : Evaluates u f (nodePointer .thunk [v, .nil]) (nodePointer .thunk [v', .nil])

/-- The node with which the second run waits where the first one waits with a node. -/
inductive Waits (u : Store) (f : Fork) : Waiting → Waiting → Prop
  | call0 {h h' : Tag.call0.arity? = some 4} (a b c a' b' c' : Pointer) :
      Waits u f ⟨.call0, h, a, b, c⟩ ⟨.call0, h', a', b', c'⟩
  | call {h h' : Tag.call.arity? = some 4} (first others : Pointer) {env env' : Pointer}
      (henv : Counterpart u f .env env env') : Waits u f ⟨.call, h, first, others, env⟩ ⟨.call, h', first, others, env'⟩
  | call2 {h h' : Tag.call2.arity? = some 4} {function function' env env' : Pointer} (others : Pointer)
      (hfunction : Counterpart u f .value function function') (henv : Counterpart u f .env env env') :
      Waits u f ⟨.call2, h, function, others, env⟩ ⟨.call2, h', function', others, env'⟩
  | bind (recursive : Bool) (var body : Pointer) {env env' : Pointer} (henv : Counterpart u f .env env env') :
      Waits u f (Machine.bindNode recursive var body env) (Machine.bindNode recursive var body env')
  | branch {h h' : Tag.branch.arity? = some 4} (first second : Pointer) {env env' : Pointer}
      (henv : Counterpart u f .env env env') :
      Waits u f ⟨.branch, h, first, second, env⟩ ⟨.branch, h', first, second, env'⟩
  | unary {h h' : Tag.unary.arity? = some 4} (operator : Pointer) :
      Waits u f ⟨.unary, h, operator, .nil, .nil⟩ ⟨.unary, h', operator, .nil, .nil⟩
  | binary {h h' : Tag.binary.arity? = some 4} (operator second : Pointer) {env env' : Pointer}
      (henv : Counterpart u f .env env env') :
      Waits u f ⟨.binary, h, operator, second, env⟩ ⟨.binary, h', operator, second, env'⟩
  | binary2 {h h' : Tag.binary2.arity? = some 4} (operator : Pointer) {a a' : Pointer}
      (ha : Counterpart u f .value a a') :
      Waits u f ⟨.binary2, h, operator, a, .nil⟩ ⟨.binary2, h', operator, a', .nil⟩

/-- The turn of the second run that corresponds to one of the first run. -/
inductive Turns (u : Store) (f : Fork) : Turn → Turn → Prop
  | enter {expr expr' env env' : Pointer} (hexpr : Evaluates u f expr expr') (henv : Counterpart u f .env env env') :
      Turns u f (.enter expr env) (.enter expr' env')
  | wait {expr expr' env env' : Pointer} {w w' : Waiting} (hexpr : Evaluates u f expr expr')
      (henv : Counterpart u f .env env env') (hw : Waits u f w w') : Turns u f (.wait expr env w) (.wait expr' env' w')

/-- What the second run decides of an expression where the first one decides something. -/
inductive Looks (u : Store) (f : Fork) : Look → Look → Prop
  | value {v v' : Pointer} (hv : Counterpart u f .value v v') : Looks u f (.value v) (.value v')
  | turn {turn turn' : Turn} (hturn : Turns u f turn turn') : Looks u f (.turn turn) (.turn turn')

/-! ## The evaluation phase -/

namespace EvalPhase

section
variable (hf : f.Fits u) (henv : Counterpart u f .env env env') (hlook : Looked u depth expr env)
  (hgoes : ∀ env' code, (look depth expr env u).1 ≠ .turn (.stop env' code))
include hf henv hlook hgoes

/-- A symbol has corresponding values in both runs. -/
theorem looks_variable (hexpr : u.expression expr = .variable) (hlook' : Looked u depth expr env')
    (hstrays : u.Leads expr env' f.recursive → ¬f.Strays u depth expr env)
    (hwithin : f.value.tag = .function → u.search expr depth env' ≠ .beyond) :
    Looks u f (look depth expr env u).1 (look depth expr env' u).1 := by
  cases hsearch : u.search expr depth env with
  | unbound | beyond =>
    have hstop := hgoes env
    simp only [look, hexpr, Store.lookup, hsearch, found] at hstop
    exact absurd rfl (hstop _)
  | «at» node =>
    have hwithin' : u.search expr depth env' ≠ .beyond := by
      by_cases hfunction : f.value.tag = .function
      · exact hwithin hfunction
      · exact henv.within hf hfunction (by simp [hsearch])
    obtain ⟨node', hsearch', hvalue⟩ := henv.found hf le_rfl hstrays hsearch hwithin'
    have hlooks : (look depth expr env u).1 = .value (u.valueAt node) := by
      simp only [look, hexpr, lookup_at hsearch, found]
    have hlooks' : (look depth expr env' u).1 = .value (u.valueAt node') := by
      simp only [look, hexpr, lookup_at hsearch', found]
    rw [hlooks, hlooks']
    exact .value (hvalue (hlook.closed hexpr hsearch) (hlook'.closed hexpr hsearch'))

/-- The evaluation phases of both runs take corresponding decisions, unless the first run stops, a lookup strays, or
a lookup of the second run exceeds its bound. -/
theorem looks (hexpr : Evaluates u f expr expr') (hlook' : Looked u depth expr' env')
    (hstrays : expr' = expr → u.expression expr = .variable → u.Leads expr env' f.recursive →
      ¬f.Strays u depth expr env)
    (hwithin : f.value.tag = .function → u.expression expr' = .variable → u.search expr' depth env' ≠ .beyond) :
    Looks u f (look depth expr env u).1 (look depth expr' env' u).1 := by
  cases hexpr with
  | @thunk v v' hnode hnode' hv =>
    have hvalue (w : Pointer) (h : u.HasNode .thunk [w, .nil]) (env : Pointer) :
        (look depth (nodePointer .thunk [w, .nil]) env u).1 = .value w := by
      have hexpression : u.expression (nodePointer .thunk [w, .nil]) = .value w := congrArg Expression.value (h.part 0)
      simp only [look, hexpression]
    rw [hvalue v hnode, hvalue v' hnode']
    exact .value hv
  | code =>
    cases hexpression : u.expression expr with
    | «variable» =>
      exact looks_variable hf henv hlook hgoes hexpression hlook' (hstrays rfl hexpression) fun hfunction =>
        hwithin hfunction hexpression
    | value v =>
      simp only [look, hexpression]
      exact .value (.same _ _)
    | lambda parameter more body =>
      simp only [look, hexpression]
      exact .value (.lambda (hlook.lambda hexpression).1 (hlook'.lambda hexpression).1 henv)
    | bind recursive var init more body =>
      simp only [look, hexpression]
      exact .turn (.wait (.code _) henv (.bind recursive var _ henv))
    | malformed | foreign =>
      have hstop := hgoes env
      simp only [look, hexpression] at hstop
      exact absurd rfl (hstop _)
    | body body =>
      simp only [look, hexpression]
      exact .turn (.enter (.code _) henv)
    | cond test first second =>
      simp only [look, hexpression]
      exact .turn (.wait (.code _) henv (.branch _ _ henv))
    | unary op operand =>
      simp only [look, hexpression]
      exact .turn (.wait (.code _) henv (.unary _))
    | binary op first second =>
      simp only [look, hexpression]
      exact .turn (.wait (.code _) henv (.binary _ _ henv))
    | call0 head =>
      simp only [look, hexpression]
      exact .turn (.wait (.code _) henv (.call0 ..))
    | call head first others =>
      simp only [look, hexpression]
      exact .turn (.wait (.code _) henv (.call _ _ henv))

end

end EvalPhase

/-! ## The continuation phase -/

namespace ContPhase

/-- A form of bindings binds corresponding values. -/
theorem turns_bind {recursive : Bool} {var body saved saved' : Pointer} (hsaved : Counterpart u f .env saved saved')
    (hv : Counterpart u f .value v v') (hturn : Turned u (Machine.bindNode recursive var body saved) v env)
    (hturn' : Turned u (Machine.bindNode recursive var body saved') v' env') :
    Turns u f (turn (Machine.bindNode recursive var body saved) v env u).1
      (turn (Machine.bindNode recursive var body saved') v' env' u).1 := by
  have hisEnv : (bindEnv recursive).isEnv = true := by cases recursive <;> rfl
  rw [Machine.enters_bindNode, Machine.enters_bindNode]
  exact .enter (.code body) (.environment hisEnv (hturn.bound rfl) (hturn'.bound rfl) hv hsaved)

/-- Functions of the same code enter their bodies. -/
theorem turns_entry {function function' others caller caller' : Pointer} {h h' : Tag.call2.arity? = some 4}
    (hfunction : Counterpart u f .value function function') (hcaller : Counterpart u f .env caller caller')
    (hv : Counterpart u f .value v v') (hturn : Turned u ⟨.call2, h, function, others, caller⟩ v env)
    (hturn' : Turned u ⟨.call2, h', function', others, caller'⟩ v' env')
    (hgoes : ∀ env' code, (turn ⟨.call2, h, function, others, caller⟩ v env u).1 ≠ .stop env' code) :
    Turns u f (turn ⟨.call2, h, function, others, caller⟩ v env u).1
      (turn ⟨.call2, h', function', others, caller'⟩ v' env' u).1 := by
  have hstop := hgoes env
  cases hmore : rest? others with
  | none =>
    simp only [turn, hmore] at hstop
    exact absurd rfl (hstop _)
  | some more =>
    simp only [turn, hmore, entry] at hstop ⊢
    by_cases htag : function.tag = .function
    · obtain ⟨hparameter, hbody, henv⟩ := hfunction.function htag
      have htag' : function'.tag = .function := hfunction.tag_eq.trans htag
      rw [if_pos htag] at hstop
      rw [if_pos htag, if_pos htag', hparameter, hbody]
      by_cases hnamed : u.part function 0 = Builtin.noParameterPointer
      · rw [if_pos hnamed] at hstop
        exact absurd rfl (hstop _)
      · have hentered := hturn.entered rfl hmore htag hnamed
        have hentered' := hturn'.entered rfl hmore htag' (by rw [hparameter]; exact hnamed)
        rw [hparameter] at hentered'
        have hbound : Counterpart u f .env (nodePointer .env [u.part function 0, v, u.part function 2])
            (nodePointer .env [u.part function 0, v', u.part function' 2]) :=
          .environment rfl hentered hentered' hv henv
        rw [if_neg hnamed, if_neg hnamed]
        cases more with
        | none => exact .enter (.code _) hbound
        | some rest => exact .wait (.code _) hbound (.call _ _ hcaller)
    · rw [if_neg htag] at hstop
      exact absurd rfl (hstop _)

theorem delivery_of_error (env : Pointer) {result : Except ErrorCode Pointer × Store} {code : ErrorCode}
    (h : result.1 = .error code) : (delivery env result).1 = .stop env code := by
  obtain ⟨found, s⟩ := result
  cases h
  rfl

/-- Corresponding values are handed on. -/
theorem turns_delivery {result result' : Except ErrorCode Pointer × Store} {r r' : Pointer}
    (hresult : result.1 = .ok r) (hresult' : result'.1 = .ok r') (hnode : u.HasNode .thunk [r, .nil])
    (hnode' : u.HasNode .thunk [r', .nil]) (hr : Counterpart u f .value r r')
    (henv : Counterpart u f .env env env') : Turns u f (delivery env result).1 (delivery env' result').1 := by
  obtain ⟨found, s⟩ := result
  obtain ⟨found', s'⟩ := result'
  cases hresult
  cases hresult'
  exact .enter (.thunk hnode hnode' hr) henv

/-- The continuation phases of both runs take corresponding decisions, unless the first run stops, or two operands are
equal in one run only. -/
theorem turns (hw : Waits u f w w') (hv : Counterpart u f .value v v') (henv : Counterpart u f .env env env')
    (hturn : Turned u w v env) (hturn' : Turned u w' v' env')
    (hcompared : w.tag = .binary2 → binaryOf? w.first = some .same → (w'.second == v') = (w.second == v))
    (hgoes : ∀ env' code, (turn w v env u).1 ≠ .stop env' code) :
    Turns u f (turn w v env u).1 (turn w' v' env' u).1 := by
  have hstop := hgoes env
  cases hw with
  | call0 =>
    simp only [turn] at hstop ⊢
    by_cases htag : v.tag = .function
    · obtain ⟨hparameter, hbody, hclosed⟩ := hv.function htag
      rw [if_pos htag] at hstop
      rw [if_pos htag, if_pos (hv.tag_eq.trans htag), hparameter, hbody]
      by_cases hnullary : u.part v 0 = Builtin.noParameterPointer
      · rw [if_pos hnullary, if_pos hnullary]
        exact .enter (.code _) hclosed
      · rw [if_neg hnullary] at hstop
        exact absurd rfl (hstop _)
    · rw [if_neg htag] at hstop
      exact absurd rfl (hstop _)
  | call first others hsaved =>
    simp only [turn] at hstop ⊢
    by_cases htag : v.tag = .function
    · rw [if_pos htag, if_pos (hv.tag_eq.trans htag)]
      exact .wait (.code _) hsaved (.call2 _ hv hsaved)
    · rw [if_neg htag] at hstop
      exact absurd rfl (hstop _)
  | call2 others hfunction hsaved => exact turns_entry hfunction hsaved hv hturn hturn' hgoes
  | bind recursive var body hsaved => exact turns_bind hsaved hv hturn hturn'
  | branch first second hsaved =>
    simp only [turn, hv.tag_eq]
    split
    · exact .enter (.code _) hsaved
    · exact .enter (.code _) hsaved
  | unary operator =>
    cases hresult : (u.applyUnary operator v).1 with
    | error code => exact absurd (delivery_of_error env hresult) (hstop code)
    | ok r =>
      cases hop : unaryOf? operator with
      | none => simp only [applyUnary, hop, reduceCtorEq] at hresult
      | some op =>
        have happly (v : Pointer) : u.applyUnary operator v = u.unaryValue op v := by simp only [applyUnary, hop]
        have hcommitted : op = .commit →
            u.HasNode .commitment [.number 0, v] ∧ u.HasNode .commitment [.number 0, v'] := by
          rintro rfl
          exact ⟨hturn.committed rfl hop, hturn'.committed rfl hop⟩
        obtain ⟨r', hresult', hr⟩ := hv.unary hcommitted (happly v ▸ hresult)
        rw [← happly] at hresult'
        exact turns_delivery hresult hresult' (hturn.unary rfl hresult).1 (hturn'.unary rfl hresult').1 hr henv
  | binary operator second hsaved =>
    simp only [turn]
    exact .wait (.code _) hsaved (.binary2 operator hv)
  | @binary2 _ _ operator a a' ha =>
    cases hresult : (u.applyBinary operator a v).1 with
    | error code => exact absurd (delivery_of_error env hresult) (hstop code)
    | ok r =>
      cases hop : binaryOf? operator with
      | none => simp only [applyBinary, hop, reduceCtorEq] at hresult
      | some op =>
        have happly (a v : Pointer) : u.applyBinary operator a v = u.binaryValue op a v := by
          simp only [applyBinary, hop]
        have hpair : op = .cons → u.HasNode .cons [a, v] ∧ u.HasNode .cons [a', v'] := by
          rintro rfl
          exact ⟨hturn.paired rfl hop, hturn'.paired rfl hop⟩
        have hhidden : op = .hide → a.tag = .number →
            u.HasNode .commitment [a, v] ∧ u.HasNode .commitment [a', v'] := by
          rintro rfl hnumber
          exact ⟨hturn.hidden rfl hop hnumber, hturn'.hidden rfl hop (ha.tag_eq.trans hnumber)⟩
        have hsame : op = .same → (a' == v') = (a == v) := by
          rintro rfl
          exact hcompared rfl hop
        obtain ⟨r', hresult', hr⟩ := ha.binary hv hsame hpair hhidden (happly a v ▸ hresult)
        rw [← happly] at hresult'
        exact turns_delivery hresult hresult' (hturn.binary rfl hresult).1 (hturn'.binary rfl hresult').1 hr henv

end ContPhase

end FieldLisp
