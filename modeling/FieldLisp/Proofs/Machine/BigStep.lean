import FieldLisp.Proofs.Machine.Arrival

/-!
# The machine computes what the recursion does

What the recursion comes to, steps lead to, for every continuation. One level of the recursion takes at
most four times as many steps as what it is made of:

* `Machine.Simulates`: in so many steps the machine comes to what a function on tasks comes to;
* `Machine.waiting_comes`, `Machine.operand_comes`: an operand is evaluated while a node waits for it;
* `Machine.value_comes`, `Machine.bindings_comes`, `Machine.arguments_comes`: one level of the recursion;
* `Machine.run_simulates`: the recursion.
-/

namespace FieldLisp.Machine

open Store Direct
open ContPhase (resume resume_bind handOn enter)
open EvalPhase (deliver push)

variable {config : Config} {bound s t m u : Store} {n n' : ℕ} {expr env cont base v : Pointer} {tag : Tag}
  {cs : List Pointer} {r : Except ErrorCode (Pointer × Store)}

/-! ## One level of the recursion -/

/-- In at most so many steps the machine comes to whatever the recursion comes to. -/
structure Simulates (config : Config) (base : Pointer) (bound : Store) (n : ℕ) (again : Task → EvalM Pointer) :
    Prop where
  passes : ∀ {job s}, s.Sound → job.Of Sane s → Passes Sane s (again job)
  /-- Arguments of what is no function are not evaluated. -/
  refuses : ∀ {function first others env s r}, function.tag ≠ .function →
    again (.call function first others env) s = some r → r = .error .notAFunction
  comes : ∀ {job cont s m r}, Setting config base bound n job cont s m → again job s = some r →
    Comes config base n (job.state cont) m cont r

namespace Setting

/-- The setting for the value of an expression. -/
theorem of_value (hs : s.Sound) (hexpr : Sane s expr) (henv : Sane s env) (hwithin : s.Within m)
    (hstage : Stage config (some base) bound n ⟨expr, env, cont⟩ m) (hmoving : cont.tag.isHalted = false)
    (habove : m.Above cont base) : Setting config base bound n (.value expr env) cont s m :=
  ⟨hs, by simp [Task.Of, Task.pointers, hexpr, henv], hwithin, hstage, trivial, hmoving, habove⟩

variable (h : Setting config base bound n (.value expr env) cont s m)
include h

theorem expr_sane : Sane s expr := h.sane expr (by simp [Task.pointers])

theorem env_sane : Sane s env := h.sane env (by simp [Task.pointers])

theorem middle_eq : middle config ⟨expr, env, cont⟩ m =
    EvalPhase.evaluate config.lookupDepth ⟨expr, env, cont⟩ m := middle_of_moving h.moving expr env m

/-- The machine sees the expression that the recursion sees. -/
theorem expression_eq : m.expression expr = s.expression expr :=
  expression_within h.within.extends_ h.sound h.expr_sane.1

theorem mono (hn : n' ≤ n) : Setting config base bound n' (.value expr env) cont s m :=
  ⟨h.sound, h.sane, h.within, h.stage.mono hn, trivial, h.moving, h.above⟩

theorem parts : ∀ p ∈ (s.expression expr).pointers, Sane s p :=
  inherited_sane.expression h.sound h.expr_sane

theorem cont_held : m.Holds cont := (State.held_iff.1 h.stage.held).2.2

theorem holds {p : Pointer} (hp : Sane s p) : m.Holds p := h.within.extends_.holds hp.1

end Setting

section
variable {again : Task → EvalM Pointer} (hbound : bound.Faithful) (h : Simulates config base bound n again)
include hbound h

/-- A value for which a node waits, and what the recursion does with it. -/
theorem waiting_comes {first : Pointer} {f : Pointer → EvalM Pointer} (hs : s.Sound)
    (hfirst : Sane s first) (henv : Sane s env) (hwithin : s.Within m)
    (hstage : Stage config (some base) bound (n + n') ⟨first, env, nodePointer tag cs⟩ m)
    (hnode : m.nodes[nodePointer tag cs]? = some cs) (hmoving : tag.isHalted = false) (hmem : cont ∈ cs)
    (habove : m.Above cont base) (hr : (again (.value first env) >>= f) s = some r)
    (hf : ∀ v t env' u, Returned s t m u v → u.nodes[nodePointer tag cs]? = some cs →
      Stage config (some base) bound n' (resume ⟨v, env', nodePointer tag cs⟩ u).1
        (resume ⟨v, env', nodePointer tag cs⟩ u).2 → f v t = some r →
      Comes config base n' (resume ⟨v, env', nodePointer tag cs⟩ u).1
        (resume ⟨v, env', nodePointer tag cs⟩ u).2 cont r) :
    Comes config base (n + n') ⟨first, env, nodePointer tag cs⟩ m cont r := by
  -- The node stands on the continuation, so it is not the one that the machine started with.
  have hchild : m.Child (nodePointer tag cs) cont := ⟨cs, hnode, hmem⟩
  have hset : Setting config base bound n (.value first env) (nodePointer tag cs) s m :=
    .of_value hs hfirst henv hwithin (hstage.mono (Nat.le_add_right n n')) hmoving (habove.head hchild)
  have hinner : nodePointer tag cs ≠ base := by
    rintro rfl
    exact acyclic hstage.reachable _ (.head' hchild habove)
  apply comes_bind hbound hstage hr (h.passes hs hset.sane) hinner
  · exact fun r hr => h.comes hset hr
  · exact fun v t env' u hreturned =>
      hf v t env' u hreturned (hreturned.grown.extends_.node hnode)

/-- An expression of which the first operand is evaluated first, while a node waits for its value. -/
theorem operand_comes {first : Pointer} {f : Pointer → EvalM Pointer}
    (hset : Setting config base bound (1 + (n + n')) (.value expr env) cont s m) (hfirst : Sane s first)
    (hmiddle : middle config ⟨expr, env, cont⟩ m = push env first tag cs m)
    (harity : tag.arity? = some cs.length) (hmoving : tag.isHalted = false) (hmem : cont ∈ cs)
    (hcs : ∀ c ∈ cs, m.Holds c) (hr : (again (.value first env) >>= f) s = some r)
    (hf : ∀ v t env' u, Returned s t m u v → u.nodes[nodePointer tag cs]? = some cs →
      Stage config (some base) bound n' (resume ⟨v, env', nodePointer tag cs⟩ u).1
        (resume ⟨v, env', nodePointer tag cs⟩ u).2 → f v t = some r →
      Comes config base n' (resume ⟨v, env', nodePointer tag cs⟩ u).1
        (resume ⟨v, env', nodePointer tag cs⟩ u).2 cont r) :
    Comes config base (1 + (n + n')) ⟨expr, env, cont⟩ m cont r := by
  have hroom : Stage config (some base) bound (n + n' + 1) ⟨expr, env, cont⟩ m := hset.stage.mono (by omega)
  obtain ⟨hreaches, hstage, hnode⟩ := hroom.push hbound hset.stage.sound harity hcs hmiddle
  obtain ⟨hgrows, -⟩ := grows_put hset.stage.sound harity hcs
  apply hreaches.comes
  apply waiting_comes hbound h hset.sound hfirst hset.env_sane (hset.within.trans hgrows.within) hstage
    hnode hmoving hmem (hgrows.extends_.above hset.above) hr
  intro v t env' u hreturned
  exact hf v t env' u ⟨hreturned.grows, hreturned.sane, hreturned.within, hgrows.trans hreturned.grown⟩

theorem cond_comes {test first second : Pointer}
    (hset : Setting config base bound (1 + (n + n)) (.value expr env) cont s m)
    (hexpression : s.expression expr = .cond test first second)
    (hr : expression config.lookupDepth again expr env (.cond test first second) s = some r) :
    Comes config base (1 + (n + n)) ⟨expr, env, cont⟩ m cont r := by
  have hparts := hset.parts
  simp only [hexpression, Expression.pointers, List.forall_mem_cons, List.not_mem_nil, false_imp_iff,
    implies_true, and_true] at hparts
  obtain ⟨htest, hfirst, hsecond⟩ := hparts
  have hchildren : ∀ c ∈ [first, second, env, cont], m.Holds c := by
    simp [hset.holds hfirst, hset.holds hsecond, hset.holds hset.env_sane, hset.cont_held]
  have hmiddle : middle config ⟨expr, env, cont⟩ m = push env test .branch [first, second, env, cont] m := by
    rw [hset.middle_eq, EvalPhase.evaluate, hset.expression_eq, hexpression]
  apply operand_comes hbound h hset htest hmiddle rfl rfl (by simp) hchildren hr
  intro v t env' u hreturned hnode hstage hrest
  have hresume : resume ⟨v, env', nodePointer .branch [first, second, env, cont]⟩ u =
      (⟨if v.tag = .nil then second else first, env, cont⟩, u) := by
    simp only [resume, nodePointer_tag, part_of_node hnode]
    rfl
  rw [hresume] at hstage ⊢
  have hbranch : Sane t (if v.tag = .nil then second else first) := by
    split
    · exact inherited_sane.mono hreturned.grows hsecond
    · exact inherited_sane.mono hreturned.grows hfirst
  have henv := inherited_sane.mono hreturned.grows hset.env_sane
  exact h.comes (.of_value hreturned.grows.sound hbranch henv hreturned.within hstage hset.moving
    (hreturned.grown.extends_.above hset.above)) hrest

theorem unary_comes {op : UnaryOp} {operand : Pointer}
    (hset : Setting config base bound (1 + (n + 1)) (.value expr env) cont s m)
    (hexpression : s.expression expr = .unary op operand)
    (hr : expression config.lookupDepth again expr env (.unary op operand) s = some r) :
    Comes config base (1 + (n + 1)) ⟨expr, env, cont⟩ m cont r := by
  have hparts := hset.parts
  simp only [hexpression, Expression.pointers, List.forall_mem_cons, List.not_mem_nil, false_imp_iff,
    implies_true, and_true] at hparts
  have hchildren : ∀ c ∈ [(Form.unary op).symbol, .nil, .nil, cont], m.Holds c := by
    simp [hset.stage.sound.holds_symbol, m.holds_nil, hset.cont_held]
  have hmiddle : middle config ⟨expr, env, cont⟩ m =
      push env operand .unary [(Form.unary op).symbol, .nil, .nil, cont] m := by
    rw [hset.middle_eq, EvalPhase.evaluate, hset.expression_eq, hexpression]
  apply operand_comes hbound h hset hparts hmiddle rfl rfl (by simp) hchildren hr
  intro v t env' u hreturned hnode hstage hrest
  have hvalue := hreturned.sane.1
  have hresume : resume ⟨v, env', nodePointer .unary [(Form.unary op).symbol, .nil, .nil, cont]⟩ u =
      handOn env' cont (u.applyUnary (Form.unary op).symbol v) := by
    simp only [resume, nodePointer_tag, part_of_node hnode]
    rfl
  have hfinds := finds_unary inherited_holds hreturned.grown.sound (Form.unary op).symbol
    (hreturned.within.extends_.holds hvalue)
  have hagrees := agrees_unary hreturned.within hreturned.grows.sound hreturned.grown.sound
    (Form.unary op).symbol hvalue
  have happly : t.applyUnary (Form.unary op).symbol v = t.unaryValue op v := by
    rw [applyUnary, unaryOf?_symbol]
  rw [happly] at hagrees
  rw [hresume] at hstage ⊢
  exact comes_handOn hbound hset.moving hfinds hstage hagrees hrest

theorem binary_comes {op : BinaryOp} {first second : Pointer}
    (hset : Setting config base bound (1 + (n + (n + 1))) (.value expr env) cont s m)
    (hexpression : s.expression expr = .binary op first second)
    (hr : expression config.lookupDepth again expr env (.binary op first second) s = some r) :
    Comes config base (1 + (n + (n + 1))) ⟨expr, env, cont⟩ m cont r := by
  have hparts := hset.parts
  simp only [hexpression, Expression.pointers, List.forall_mem_cons, List.not_mem_nil, false_imp_iff,
    implies_true, and_true] at hparts
  obtain ⟨hfirst, hsecond⟩ := hparts
  have hchildren : ∀ c ∈ [(Form.binary op).symbol, second, env, cont], m.Holds c := by
    simp [hset.stage.sound.holds_symbol, hset.holds hsecond, hset.holds hset.env_sane, hset.cont_held]
  have hmiddle : middle config ⟨expr, env, cont⟩ m =
      push env first .binary [(Form.binary op).symbol, second, env, cont] m := by
    rw [hset.middle_eq, EvalPhase.evaluate, hset.expression_eq, hexpression]
  apply operand_comes hbound h hset hfirst hmiddle rfl rfl (by simp) hchildren hr
  intro a t env' u hreturned hnode hstage hrest
  have hresume : resume ⟨a, env', nodePointer .binary [(Form.binary op).symbol, second, env, cont]⟩ u =
      (⟨second, env, nodePointer .binary2 [(Form.binary op).symbol, a, .nil, cont]⟩,
        u.put .binary2 [(Form.binary op).symbol, a, .nil, cont]) := by
    simp only [resume, nodePointer_tag, part_of_node hnode]
    rfl
  rw [hresume] at hstage ⊢
  have hoperands : ∀ c ∈ [(Form.binary op).symbol, a, .nil, cont], u.Holds c := by
    simp [hreturned.grown.sound.holds_symbol, hreturned.within.extends_.holds hreturned.sane.1,
      u.holds_nil, hreturned.grown.holds hset.cont_held]
  have harity : Tag.binary2.arity? = some [(Form.binary op).symbol, a, .nil, cont].length := rfl
  obtain ⟨hput, -⟩ := grows_put hreturned.grown.sound harity hoperands
  have hnode' := node_put hreturned.grown.sound harity hoperands (hstage.faithful hbound)
  apply waiting_comes hbound h hreturned.grows.sound (inherited_sane.mono hreturned.grows hsecond)
    (inherited_sane.mono hreturned.grows hset.env_sane) (hreturned.within.trans hput.within) hstage hnode'
    rfl (by simp) ((hreturned.grown.trans hput).extends_.above hset.above) hrest
  intro b t' env'' u' hreturned' hnode'' hstage' hrest'
  have hresume' : resume ⟨b, env'', nodePointer .binary2 [(Form.binary op).symbol, a, .nil, cont]⟩ u' =
      handOn env'' cont (u'.applyBinary (Form.binary op).symbol a b) := by
    simp only [resume, nodePointer_tag, part_of_node hnode'']
    rfl
  have ha := hreturned'.grows.holds hreturned.sane.1
  have hb := hreturned'.sane.1
  have hfinds := finds_binary inherited_holds hreturned'.grown.sound (Form.binary op).symbol
    (hreturned'.within.extends_.holds ha) (hreturned'.within.extends_.holds hb)
  have hagrees := agrees_binary hreturned'.within hreturned'.grows.sound hreturned'.grown.sound
    (Form.binary op).symbol ha hb
  have happly : t'.applyBinary (Form.binary op).symbol a b = t'.binaryValue op a b := by
    rw [applyBinary, binaryOf?_symbol]
  rw [happly] at hagrees
  rw [hresume'] at hstage' ⊢
  exact comes_handOn hbound hset.moving hfinds hstage' hagrees hrest'

theorem call0_comes {head : Pointer} (hset : Setting config base bound (1 + (n + n)) (.value expr env) cont s m)
    (hexpression : s.expression expr = .call0 head)
    (hr : expression config.lookupDepth again expr env (.call0 head) s = some r) :
    Comes config base (1 + (n + n)) ⟨expr, env, cont⟩ m cont r := by
  have hparts := hset.parts
  simp only [hexpression, Expression.pointers, List.forall_mem_cons, List.not_mem_nil, false_imp_iff,
    implies_true, and_true] at hparts
  have hchildren : ∀ c ∈ [env, .nil, .nil, cont], m.Holds c := by
    simp [hset.holds hset.env_sane, m.holds_nil, hset.cont_held]
  have hmiddle : middle config ⟨expr, env, cont⟩ m = push env head .call0 [env, .nil, .nil, cont] m := by
    rw [hset.middle_eq, EvalPhase.evaluate, hset.expression_eq, hexpression]
  apply operand_comes hbound h hset hparts hmiddle rfl rfl (by simp) hchildren hr
  intro function t env' u hreturned hnode hstage hrest
  rw [EvalM.require_bind] at hrest
  simp only [resume, nodePointer_tag] at hstage ⊢
  by_cases htag : function.tag = .function
  · have hpart := hreturned.within.extends_.part_eq hreturned.grows.sound (by rw [htag]; rfl)
      hreturned.sane.1
    have hsane := inherited_sane.part hreturned.grows.sound (by rw [htag]; rfl) hreturned.sane
    rw [if_pos htag, EvalM.ask_bind, EvalM.require_bind] at hrest
    rw [if_pos htag, hpart 0, hpart 1, hpart 2] at hstage ⊢
    by_cases hnullary : t.part function 0 = Builtin.noParameterPointer
    · rw [if_pos hnullary] at hrest hstage ⊢
      rw [part_of_node hnode] at hstage ⊢
      exact h.comes (.of_value hreturned.grows.sound (hsane 1) (hsane 2) hreturned.within hstage
        hset.moving (hreturned.grown.extends_.above hset.above)) hrest
    · rw [if_neg hnullary] at hrest ⊢
      cases hrest
      exact comes_fail env' .argumentError u
  · rw [if_neg htag] at hrest ⊢
    cases hrest
    exact comes_fail env' .notAFunction u

/-- A value goes to the node that waits with arguments for it. -/
theorem applied_comes {function first others env' : Pointer} (hs : s.Sound) (hfunction : Sane s function)
    (hfirst : Sane s first) (hothers : Sane s others) (henv : Sane s env) (hwithin : s.Within u)
    (hu : u.Sound) (hcont : u.Holds cont) (hmoving : cont.tag.isHalted = false) (habove : u.Above cont base)
    (hnode : u.nodes[nodePointer .call [first, others, env, cont]]? = some [first, others, env, cont])
    (hstage : Stage config (some base) bound n
      (resume ⟨function, env', nodePointer .call [first, others, env, cont]⟩ u).1
      (resume ⟨function, env', nodePointer .call [first, others, env, cont]⟩ u).2)
    (hr : again (.call function first others env) s = some r) :
    Comes config base n (resume ⟨function, env', nodePointer .call [first, others, env, cont]⟩ u).1
      (resume ⟨function, env', nodePointer .call [first, others, env, cont]⟩ u).2 cont r := by
  by_cases htag : function.tag = .function
  · have hresume : resume ⟨function, env', nodePointer .call [first, others, env, cont]⟩ u =
        (Task.state cont (.call function first others env), u.put .call2 [function, others, env, cont]) := by
      simp only [resume, nodePointer_tag, part_of_node hnode, if_pos htag]
      rfl
    rw [hresume] at hstage ⊢
    have hchildren : ∀ c ∈ [function, others, env, cont], u.Holds c := by
      simp [hwithin.extends_.holds hfunction.1, hwithin.extends_.holds hothers.1,
        hwithin.extends_.holds henv.1, hcont]
    have harity : Tag.call2.arity? = some [function, others, env, cont].length := rfl
    obtain ⟨hput, -⟩ := grows_put hu harity hchildren
    have hframed := node_put hu harity hchildren (hstage.faithful hbound)
    have hsane : (Task.call function first others env).Of Sane s := by
      simp [Task.Of, Task.pointers, hfunction, hfirst, hothers, henv]
    exact h.comes ⟨hs, hsane, hwithin.trans hput.within, hstage, ⟨hframed, htag⟩, hmoving,
      hput.extends_.above habove⟩ hr
  · have hresume : resume ⟨function, env', nodePointer .call [first, others, env, cont]⟩ u =
        (.fail env' .notAFunction, u) := by
      simp only [resume, nodePointer_tag, if_neg htag]
    rw [hresume, h.refuses htag hr]
    exact comes_fail env' .notAFunction u

theorem call_comes {head first others : Pointer}
    (hset : Setting config base bound (1 + (n + n)) (.value expr env) cont s m)
    (hexpression : s.expression expr = .call head first others)
    (hr : expression config.lookupDepth again expr env (.call head first others) s = some r) :
    Comes config base (1 + (n + n)) ⟨expr, env, cont⟩ m cont r := by
  have hparts := hset.parts
  simp only [hexpression, Expression.pointers, List.forall_mem_cons, List.not_mem_nil, false_imp_iff,
    implies_true, and_true] at hparts
  obtain ⟨hhead, hfirst, hothers⟩ := hparts
  have hchildren : ∀ c ∈ [first, others, env, cont], m.Holds c := by
    simp [hset.holds hfirst, hset.holds hothers, hset.holds hset.env_sane, hset.cont_held]
  have hmiddle : middle config ⟨expr, env, cont⟩ m =
      push env head .call [first, others, env, cont] m := by
    rw [hset.middle_eq, EvalPhase.evaluate, hset.expression_eq, hexpression]
  apply operand_comes hbound h hset hhead hmiddle rfl rfl (by simp) hchildren hr
  intro function t env' u hreturned hnode hstage hrest
  exact applied_comes hbound h hreturned.grows.sound hreturned.sane
    (inherited_sane.mono hreturned.grows hfirst) (inherited_sane.mono hreturned.grows hothers)
    (inherited_sane.mono hreturned.grows hset.env_sane) hreturned.within hreturned.grown.sound
    (hreturned.grown.holds hset.cont_held) hset.moving (hreturned.grown.extends_.above hset.above) hnode hstage hrest

/-- The machine sets out on the bindings of a form. -/
theorem bound_comes {e var init body : Pointer} {recursive : Bool} {more : Option Pointer} (hs : s.Sound)
    (hjob : (Direct.Task.bind recursive var init more body env).Of Sane s) (hwithin : s.Within m)
    (hstage : Stage config (some base) bound (1 + n) ⟨e, env, cont⟩ m) (hmoving : cont.tag.isHalted = false)
    (habove : m.Above cont base) (hexpression : m.expression e = .bind recursive var init more body)
    (hr : again (.bind recursive var init more body env) s = some r) :
    Comes config base (1 + n) ⟨e, env, cont⟩ m cont r := by
  have hsane := hjob
  simp only [Task.Of, Task.pointers, List.forall_mem_cons, Option.mem_toList] at hsane
  obtain ⟨hvar, hinit, hbody, henv, hmore⟩ := hsane
  have hheld {p : Pointer} (hp : Sane s p) : m.Holds p := hwithin.extends_.holds hp.1
  have hmiddle : middle config ⟨e, env, cont⟩ m = push env init (bindTag recursive)
      [var, nested (bindForm recursive) more body, env, cont] (m.putNested (bindForm recursive) more body) := by
    rw [middle_of_moving hmoving, EvalPhase.evaluate, hexpression]
  obtain ⟨hgrows, hnested⟩ := inherited_holds.grows_putNested hstage.sound (bindForm recursive)
    (fun p hp => hheld (hmore p hp)) (hheld hbody)
  have hchildren : ∀ c ∈ [var, nested (bindForm recursive) more body, env, cont],
      (m.putNested (bindForm recursive) more body).Holds c := by
    simp [hgrows.holds (hheld hvar), hnested, hgrows.holds (hheld henv),
      hgrows.holds (State.held_iff.1 hstage.held).2.2]
  have harity : (bindTag recursive).arity? =
      some [var, nested (bindForm recursive) more body, env, cont].length := by cases recursive <;> rfl
  have hroom : Stage config (some base) bound (n + 1) ⟨e, env, cont⟩ m := hstage.mono (by omega)
  obtain ⟨hreaches, hnext, hnode⟩ := hroom.push hbound hgrows.sound harity hchildren hmiddle
  obtain ⟨hput, -⟩ := grows_put hgrows.sound harity hchildren
  have hframed : (Direct.Task.bind recursive var init more body env).Framed
      ((m.putNested (bindForm recursive) more body).put (bindTag recursive)
        [var, nested (bindForm recursive) more body, env, cont]) cont := by
    refine ⟨hnode, ?_⟩
    rintro list rfl
    have hps : ∀ p ∈ [(bindForm recursive).symbol, list, body], m.Holds p := by
      simp [hstage.sound.holds_symbol, hheld (hmore list rfl), hheld hbody]
    refine ⟨cons_of_expression hexpression list rfl, ?_⟩
    rw [items_within hput.extends_ hgrows.sound hnested]
    exact items_putList hstage.sound hps (hput.faithful (hnext.faithful hbound))
  apply hreaches.comes
  exact h.comes ⟨hs, hjob, hwithin.trans (hgrows.trans hput).within, hnext, hframed, hmoving,
    (hgrows.trans hput).extends_.above habove⟩ hr

/-- The value of an expression, in four times as many steps as the values of its parts take. -/
theorem value_comes (hn : 0 < n) (hset : Setting config base bound (4 * n) (.value expr env) cont s m)
    (hr : expression config.lookupDepth again expr env (s.expression expr) s = some r) :
    Comes config base (4 * n) ⟨expr, env, cont⟩ m cont r := by
  have hone : Stage config (some base) bound 1 ⟨expr, env, cont⟩ m := hset.stage.mono (by omega)
  have hparts := hset.parts
  have hmiddle := hset.middle_eq
  rw [EvalPhase.evaluate, hset.expression_eq] at hmiddle
  cases hexpression : s.expression expr <;>
    simp only [hexpression, Expression.pointers, List.forall_mem_cons, Option.mem_toList,
      List.not_mem_nil, false_imp_iff, implies_true, and_true] at hparts hr hmiddle
  case value v =>
    have hagrees := agrees_same hset.within (.ok v)
    exact (comes_deliver hbound hone hmiddle (fun _ => hagrees) hr).mono (by omega)
  case «variable» =>
    have hagrees := agrees_lookup hset.within hset.sound hset.stage.sound config.lookupDepth expr
      hset.env_sane.1
    have hfound : EvalM.compute (·.lookup config.lookupDepth expr env) s = some r := hr
    exact (comes_deliver hbound hone hmiddle hagrees hfound).mono (by omega)
  case lambda parameter more body =>
    obtain ⟨hparameter, hbody, hmore⟩ := hparts
    have hagrees := agrees_close hset.within hset.sound hset.stage.sound hparameter.1
      (fun p hp => (hmore p hp).1) hbody.1 hset.env_sane.1
    exact (comes_deliver hbound hone hmiddle hagrees hr).mono (by omega)
  case cond test first second =>
    exact (cond_comes hbound h (hset.mono (by omega)) hexpression hr).mono (by omega)
  case body body =>
    have hroom : Stage config (some base) bound (n + 1) ⟨expr, env, cont⟩ m := hset.stage.mono (by omega)
    obtain ⟨hreaches, hstage, hgrows⟩ := hroom.silent hmiddle
    have hcomes := h.comes (.of_value hset.sound hparts hset.env_sane (hset.within.trans hgrows.within)
      hstage hset.moving (hgrows.extends_.above hset.above)) hr
    exact (hreaches.comes hcomes).mono (by omega)
  case bind recursive var init more body =>
    obtain ⟨hvar, hinit, hbody, hmore⟩ := hparts
    have hjob : (Direct.Task.bind recursive var init more body env).Of Sane s := by
      simpa [Task.Of, Task.pointers, hvar, hinit, hbody, hset.env_sane] using hmore
    have hcomes := bound_comes hbound h hset.sound hjob hset.within (hset.stage.mono (by omega))
      hset.moving hset.above (hset.expression_eq.trans hexpression) hr
    exact hcomes.mono (by omega)
  case unary op operand =>
    exact (unary_comes hbound h (hset.mono (by omega)) hexpression hr).mono (by omega)
  case binary op first second =>
    exact (binary_comes hbound h (hset.mono (by omega)) hexpression hr).mono (by omega)
  case call0 head =>
    exact (call0_comes hbound h (hset.mono (by omega)) hexpression hr).mono (by omega)
  case call head first others =>
    exact (call_comes hbound h (hset.mono (by omega)) hexpression hr).mono (by omega)
  case malformed =>
    have hagrees := agrees_same hset.within (.error .invalidForm)
    exact (comes_deliver hbound hone hmiddle (fun _ => hagrees) hr).mono (by omega)
  case «foreign» =>
    have hagrees := agrees_same hset.within (.error .invalidExpression)
    exact (comes_deliver hbound hone hmiddle (fun _ => hagrees) hr).mono (by omega)

/-- The machine sets out on the bindings that are left of a form. -/
theorem nested_comes {list body rest : Pointer} {recursive : Bool} (hs : s.Sound) (hlist : Sane s list)
    (hbody : Sane s body) (henv : Sane s env) (hwithin : s.Within m)
    (hstage : Stage config (some base) bound (1 + n) ⟨rest, env, cont⟩ m) (hmoving : cont.tag.isHalted = false)
    (habove : m.Above cont base) (hcons : list.tag = .cons)
    (hitems : m.items 3 rest = some [(bindForm recursive).symbol, list, body])
    (hr : (EvalM.demand .invalidForm (s.binding? list) >>= fun next =>
      again (.bind recursive next.1 next.2.1 next.2.2 body env)) s = some r) :
    Comes config base (1 + n) ⟨rest, env, cont⟩ m cont r := by
  obtain ⟨hexpression, harguments⟩ := expression_of_items hitems
  have hbinding := binding_within hwithin.extends_ hs hlist.1
  have hnil : list.tag ≠ .nil := by rw [hcons]; decide
  simp only [bindExpression, harguments, if_neg hnil] at hexpression
  rw [hbinding] at hexpression
  cases hfound : s.binding? list with
  | none =>
    rw [hfound] at hr hexpression
    have hmiddle : middle config ⟨rest, env, cont⟩ m = deliver env cont (.error .invalidForm, m) := by
      rw [middle_of_moving hmoving, EvalPhase.evaluate, hexpression]
    have hagrees := agrees_same hwithin (.error .invalidForm)
    have hfailed : EvalM.compute (fun s => (.error .invalidForm, s)) s = some r := hr
    exact (comes_deliver hbound (hstage.mono (by omega)) hmiddle (fun _ => hagrees) hfailed).mono (by omega)
  | some found =>
    obtain ⟨var, init, more⟩ := found
    rw [hfound] at hr hexpression
    have hpairs : Hereditary s (Sane s) := ⟨inherited_sane.car hs, inherited_sane.cdr hs⟩
    obtain ⟨hvar, hinit, hmore⟩ := hpairs.binding? hfound hlist
    have hjob : (Direct.Task.bind recursive var init more body env).Of Sane s := by
      simpa [Task.Of, Task.pointers, hvar, hinit, hbody, henv] using hmore
    exact bound_comes hbound h hs hjob hwithin hstage hmoving habove hexpression hr

theorem bindings_comes {var init body : Pointer} {recursive : Bool} {more : Option Pointer} (hn : 0 < n)
    (hset : Setting config base bound (4 * n) (.bind recursive var init more body env) cont s m)
    (hr : bindings again recursive var init more body env s = some r) :
    Comes config base (4 * n) (Task.state cont (.bind recursive var init more body env)) m cont r := by
  have hsane := hset.sane
  simp only [Task.Of, Task.pointers, List.forall_mem_cons, Option.mem_toList] at hsane
  obtain ⟨hvar, hinit, hbody, henv, hmore⟩ := hsane
  obtain ⟨hnode, hlist⟩ := hset.framed
  obtain ⟨-, -, hchildren⟩ := hset.stage.sound.node hnode
  have hroom : Stage config (some base) bound (n + (1 + n))
      (Task.state cont (.bind recursive var init more body env)) m :=
    hset.stage.mono (by omega)
  refine (waiting_comes hbound h hset.sound hinit henv hset.within hroom hnode (by cases recursive <;> rfl)
    (by simp) hset.above hr ?_).mono (by omega)
  intro v t env' u hreturned hnode' hstage hrest
  have hresume : resume ⟨v, env', nodePointer (bindTag recursive)
      [var, nested (bindForm recursive) more body, env, cont]⟩ u =
      (⟨nested (bindForm recursive) more body, nodePointer (bindEnv recursive) [var, v, env], cont⟩,
        u.put (bindEnv recursive) [var, v, env]) := by
    simp only [resume_bind (nodePointer_tag _ _), part_of_node hnode']
    rfl
  rw [hresume] at hstage ⊢
  rw [EvalM.take_bind] at hrest
  have harity : (bindEnv recursive).arity? = some [var, v, env].length := by cases recursive <;> rfl
  have hbound' : ∀ c ∈ [var, v, env], Sane t c := by
    simp [inherited_sane.mono hreturned.grows hvar, hreturned.sane,
      inherited_sane.mono hreturned.grows henv]
  obtain ⟨hput, hinner⟩ := inherited_sane.grows_put hreturned.grows.sound harity hbound'
  have hwithin := hreturned.within.put hreturned.grows.sound hreturned.grown.sound harity
    (fun c hc => (hbound' c hc).1) (hstage.faithful hbound)
  have hall := hreturned.grows.trans hput
  have hgrown : m.Grows (u.put (bindEnv recursive) [var, v, env]) :=
    hreturned.grown.trans (grows_put hreturned.grown.sound harity fun c hc =>
      hreturned.within.extends_.holds (hbound' c hc).1).1
  have hrestHeld : m.Holds (nested (bindForm recursive) more body) := hchildren _ (by simp)
  cases more with
  | none =>
    have hcomes := h.comes (.of_value hput.sound (inherited_sane.mono hall hbody) hinner hwithin
      (hstage.mono (by omega)) hset.moving (hgrown.extends_.above hset.above)) hrest
    exact hcomes.mono (by omega)
  | some list =>
    obtain ⟨hcons, hitems⟩ := hlist list rfl
    exact nested_comes hbound h hall.sound (inherited_sane.mono hall (hmore list rfl))
      (inherited_sane.mono hall hbody) hinner hwithin (hstage.mono (by omega)) hset.moving
      (hgrown.extends_.above hset.above) hcons
      (by rw [items_within hgrown.extends_ hset.stage.sound hrestHeld, hitems]) hrest

/-- A function is entered with one argument; other arguments wait for what comes of it. -/
theorem entered_comes {function caller env' : Pointer} {more : Option Pointer} (hn : 0 < n) (hs : s.Sound)
    (hm : m.Sound) (hfunction : Sane s function) (hv : Sane s v) (hcaller : Sane s caller)
    (hmore : ∀ q ∈ more, q.tag = .cons ∧ Sane s q) (hwithin : s.Within m) (hcont : m.Holds cont)
    (hmoving : cont.tag.isHalted = false) (habove : m.Above cont base) (htag : function.tag = .function)
    (hstage : Stage config (some base) bound (n + n) (enter m function v caller cont env' more).1
      (enter m function v caller cont env' more).2)
    (hr : applied again function v caller more s = some r) :
    Comes config base (n + n) (enter m function v caller cont env' more).1
      (enter m function v caller cont env' more).2 cont r := by
  have harity : function.tag.arity? = some 3 := by rw [htag]; rfl
  have hpart := hwithin.extends_.part_eq hs harity hfunction.1
  have hsane := inherited_sane.part hs harity hfunction
  unfold applied at hr
  rw [EvalM.ask_bind, EvalM.require_bind] at hr
  unfold enter at hstage ⊢
  rw [if_pos htag, hpart 0, hpart 1, hpart 2] at hstage ⊢
  by_cases hnullary : s.part function 0 = Builtin.noParameterPointer
  · rw [if_neg (not_not_intro hnullary)] at hr
    rw [if_pos hnullary]
    cases hr
    exact comes_fail env' .argumentError m
  rw [if_pos hnullary, EvalM.take_bind] at hr
  rw [if_neg hnullary] at hstage ⊢
  have hchildren : ∀ c ∈ [s.part function 0, v, s.part function 2], Sane s c := by simp [hsane, hv]
  have hthree : Tag.env.arity? = some [s.part function 0, v, s.part function 2].length := rfl
  obtain ⟨hput, hinner⟩ := inherited_sane.grows_put hs hthree hchildren
  obtain ⟨hput', -⟩ := grows_put hm hthree fun c hc => hwithin.extends_.holds (hchildren c hc).1
  have hbody := inherited_sane.mono hput (hsane 1)
  cases more with
  | none =>
    have hentered := hwithin.put hs hm hthree (fun c hc => (hchildren c hc).1) (hstage.faithful hbound)
    have hcomes := h.comes (.of_value hput.sound hbody hinner hentered (hstage.mono (by omega)) hmoving
      (hput'.extends_.above habove)) hr
    exact hcomes.mono (by omega)
  | some list =>
    obtain ⟨hcons, hlist⟩ := hmore list rfl
    have hcar : m.part list 0 = s.car list := by
      rw [← car_within hwithin.extends_ hs hlist.1, Store.car, if_pos hcons]
    have hcdr : m.part list 1 = s.cdr list := by
      rw [← cdr_within hwithin.extends_ hs hlist.1, Store.cdr, if_pos hcons]
    dsimp only at hstage ⊢
    rw [hcar, hcdr] at hstage ⊢
    have hcall : ∀ c ∈ [s.car list, s.cdr list, caller, cont],
        (m.put .env [s.part function 0, v, s.part function 2]).Holds c := by
      have hheld {p : Pointer} (hp : Sane s p) := hput'.holds (hwithin.extends_.holds hp.1)
      simp [hheld (inherited_sane.car hs hlist), hheld (inherited_sane.cdr hs hlist), hheld hcaller,
        hput'.holds hcont]
    have hfour : Tag.call.arity? = some [s.car list, s.cdr list, caller, cont].length := rfl
    obtain ⟨hgrows, -⟩ := grows_put hput'.sound hfour hcall
    have hfaithful := hstage.faithful hbound
    have hnode := node_put hput'.sound hfour hcall hfaithful
    have hentered := (hwithin.put hs hm hthree (fun c hc => (hchildren c hc).1)
      (hgrows.faithful hfaithful)).trans hgrows.within
    have habove' := (hput'.trans hgrows).extends_.above habove
    apply waiting_comes hbound h hput.sound hbody hinner hentered hstage hnode rfl (by simp) habove' hr
    intro result t env'' u hreturned hnode' hstage' hrest
    have hall := hput.trans hreturned.grows
    rw [EvalM.ask_bind, car_within hall.extends_ hs hlist.1, cdr_within hall.extends_ hs hlist.1] at hrest
    exact applied_comes hbound h hreturned.grows.sound hreturned.sane
      (inherited_sane.mono hall (inherited_sane.car hs hlist))
      (inherited_sane.mono hall (inherited_sane.cdr hs hlist)) (inherited_sane.mono hall hcaller)
      hreturned.within hreturned.grown.sound
      (hreturned.grown.holds (hgrows.holds (hput'.holds hcont))) hmoving (hreturned.grown.extends_.above habove') hnode'
      hstage' hrest

theorem arguments_comes {function first others : Pointer} (hn : 0 < n)
    (hset : Setting config base bound (4 * n) (.call function first others env) cont s m)
    (hr : arguments again function first others env s = some r) :
    Comes config base (4 * n) (Task.state cont (.call function first others env)) m cont r := by
  have hsane := hset.sane
  simp only [Task.Of, Task.pointers, List.forall_mem_cons, List.not_mem_nil, false_imp_iff, implies_true,
    and_true] at hsane
  obtain ⟨hfunction, hfirst, hothers, henv⟩ := hsane
  obtain ⟨hnode, htag⟩ := hset.framed
  obtain ⟨-, -, hchildren⟩ := hset.stage.sound.node hnode
  have hcont : m.Holds cont := hchildren _ (by simp)
  have hroom : Stage config (some base) bound (n + (n + n)) (Task.state cont (.call function first others env)) m :=
    hset.stage.mono (by omega)
  unfold arguments at hr
  rw [EvalM.require_bind, if_pos htag] at hr
  refine (waiting_comes hbound h hset.sound hfirst henv hset.within hroom hnode rfl
    (by simp) hset.above hr ?_).mono (by omega)
  intro v t env' u hreturned hnode' hstage hrest
  have hparts := part_of_node hnode'
  cases hmore : rest? others with
  | none =>
    have hresume : resume ⟨v, env', nodePointer .call2 [function, others, env, cont]⟩ u =
        (.fail env' .argumentError, u) := by
      simp [resume, hparts, hmore, htag]
    rw [hmore] at hrest
    cases hrest
    rw [hresume]
    exact comes_fail env' .argumentError u
  | some more =>
    have hresume : resume ⟨v, env', nodePointer .call2 [function, others, env, cont]⟩ u =
        enter u function v env cont env' more := by
      simp [resume, hparts, hmore]
    rw [hmore] at hrest
    rw [hresume] at hstage ⊢
    have hleft (q : Pointer) (hq : q ∈ more) : q.tag = .cons ∧ Sane t q := by
      obtain ⟨rfl, hcons⟩ := of_rest? hmore q hq
      exact ⟨hcons, inherited_sane.mono hreturned.grows hothers⟩
    exact entered_comes hbound h hn hreturned.grows.sound hreturned.grown.sound
      (inherited_sane.mono hreturned.grows hfunction) hreturned.sane
      (inherited_sane.mono hreturned.grows henv) hleft hreturned.within (hreturned.grown.holds hcont)
      hset.moving (hreturned.grown.extends_.above hset.above) htag hstage hrest

end

/-! ## The recursion -/

theorem task_comes {job : Direct.Task} {again : Direct.Task → EvalM Pointer} (hbound : bound.Faithful)
    (h : Simulates config base bound n again) (hn : 0 < n) (hset : Setting config base bound (4 * n) job cont s m)
    (hr : task config.lookupDepth again job s = some r) :
    Comes config base (4 * n) (job.state cont) m cont r := by
  cases job with
  | value expr env => exact value_comes hbound h hn hset hr
  | bind recursive var init more body env => exact bindings_comes hbound h hn hset hr
  | call function first others env => exact arguments_comes hbound h hn hset hr

/-- What the recursion comes to, the machine comes to. -/
theorem run_simulates (config : Config) (base : Pointer) (hbound : bound.Faithful) (fuel : ℕ) :
    Simulates config base bound (4 ^ fuel) (Direct.run config.lookupDepth fuel) := by
  induction fuel with
  | zero => exact ⟨fun hs hjob => run_passes inherited_sane hs hjob, run_refuses, fun _ hr => by cases hr⟩
  | succ fuel ih =>
    refine ⟨fun hs hjob => run_passes inherited_sane hs hjob, run_refuses, fun hset hr => ?_⟩
    rw [Nat.pow_succ'] at hset ⊢
    exact task_comes hbound ih (Nat.pow_pos (by decide)) hset hr

end FieldLisp.Machine
