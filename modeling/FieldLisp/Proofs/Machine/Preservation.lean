import FieldLisp.Proofs.Machine.Typing

/-!
# Steps keep states well-typed

Each of the two phases goes from well-typed states to well-typed states:

* `Store.Yields`: a value is found or computed on a larger typed store, or an error of the program is;
* `EvalPhase.reduct_typed`, `ContPhase.reduct_typed`: the phases, by what they look at;
* `Machine.step_typed`: a step from a well-typed state is computed, and its states are well-typed.
-/

namespace FieldLisp

namespace Store

variable {s : Store} {p : Pointer}

/-! ## Values -/

/-- A value is found or computed, or there is none for a reason that programs can have. -/
structure Yields (s : Store) (result : Except ErrorCode Pointer × Store) : Prop where
  widens : s.Widens result.2
  value : ∀ v, result.1 = .ok v → result.2.Value v
  error : ∀ code, result.1 = .error code → code.ofProgram = true

theorem yields_ok (hs : s.Typed) {v : Pointer} (hv : s.Value v) : s.Yields (.ok v, s) :=
  ⟨.refl hs, fun w h => by cases h; exact hv, fun code h => (by cases h)⟩

theorem yields_error (hs : s.Typed) {code : ErrorCode} (hcode : code.ofProgram = true) :
    s.Yields (.error code, s) :=
  ⟨.refl hs, fun v h => (by cases h), fun other h => by cases h; exact hcode⟩

theorem yields_put (hs : s.Typed) {tag : Tag} {cs : List Pointer} (hvalue : tag.isValue = true)
    (htag : tag.arity? = some cs.length) (hfits : s.FitsNode tag cs) :
    s.Yields (.ok (nodePointer tag cs), s.put tag cs) := by
  obtain ⟨hwidens, hnode⟩ := hs.put htag hfits
  exact ⟨hwidens, fun w h => by cases h; exact ⟨hnode, hvalue⟩, fun code h => (by cases h)⟩

/-- A search in a chain comes to a binding of the chain. -/
theorem chain_search {sought node found : Pointer} {depth : ℕ} (hnode : s.EnvChain node)
    (h : s.search sought depth node = .at found) : s.EnvChain found ∧ found.tag.isEnv = true := by
  induction depth generalizing node with
  | zero =>
    unfold search at h
    split at h <;> cases h
  | succ depth ih =>
    unfold search at h
    split at h
    · rename_i henv
      dsimp only at h
      split at h
      · cases h
        exact ⟨hnode, henv⟩
      · exact ih (hnode.parts henv).2.2 h
    · cases h

theorem yields_lookup (hs : s.Typed) (depth : ℕ) (sought : Pointer) {env : Pointer}
    (henv : s.EnvChain env) : s.Yields (s.lookup depth sought env) := by
  unfold lookup
  cases hsearch : s.search sought depth env with
  | unbound => exact yields_error hs rfl
  | beyond => exact yields_error hs rfl
  | «at» node =>
    obtain ⟨hnode, hisEnv⟩ := chain_search henv hsearch
    obtain ⟨-, hvalue, -⟩ := hnode.parts hisEnv
    dsimp only
    split
    · rename_i hclosed
      obtain ⟨hparameter, hbody, -⟩ := hs.function_parts hclosed.2 hvalue.holds
      exact yields_put hs rfl rfl ⟨_, _, _, rfl, hparameter, hbody, hnode⟩
    · exact yields_ok hs hvalue

theorem yields_unary (hs : s.Typed) {operator v : Pointer} (hop : (unaryOf? operator).isSome)
    (hv : s.Value v) : s.Yields (s.applyUnary operator v) := by
  obtain ⟨op, hop⟩ := Option.isSome_iff_exists.1 hop
  simp only [applyUnary, hop]
  cases op with
  | car =>
    simp only [unaryValue]
    split
    · exact yields_ok hs (hs.hereditary_value.car hv)
    · exact yields_error hs rfl
  | cdr =>
    simp only [unaryValue]
    split
    · exact yields_ok hs (hs.hereditary_value.cdr hv)
    · exact yields_error hs rfl
  | payload | secret =>
    simp only [unaryValue]
    split
    · exact yields_ok hs (hs.value_part (.inr ‹_›) hv.holds _)
    · exact yields_error hs rfl
  | atom => exact yields_ok hs (value_verdict hs.sound _)
  | commit =>
    have hchildren : ∀ c ∈ [.number 0, v], s.Value c := by simp [hv, s.value_number]
    exact yields_put hs rfl rfl hchildren
  | emit => exact yields_ok hs hv

/-- What is computed from numbers is a value, or the error is one of the program. -/
theorem yields_number (hs : s.Typed) {op : BinaryOp} {x y : Int} {result : Except ErrorCode Pointer}
    (h : numberValue? op x y = some result) : s.Yields (result, s) := by
  cases op with
  | add | sub | mul =>
    cases h
    exact yields_ok hs (s.value_number _)
  | div =>
    cases h
    split
    · exact yields_error hs rfl
    · exact yields_ok hs (s.value_number _)
  | rem =>
    cases h
    split
    · split
      · exact yields_error hs rfl
      · exact yields_ok hs (s.value_number _)
    · exact yields_error hs rfl
  | equal | less | greater | atMost | atLeast =>
    cases h
    exact yields_ok hs (value_verdict hs.sound _)
  | same | cons | hide => cases h

theorem yields_binary (hs : s.Typed) {operator a b : Pointer} (hop : (binaryOf? operator).isSome)
    (ha : s.Value a) (hb : s.Value b) : s.Yields (s.applyBinary operator a b) := by
  obtain ⟨op, hop⟩ := Option.isSome_iff_exists.1 hop
  simp only [applyBinary, hop, binaryValue]
  have hchildren : ∀ c ∈ [a, b], s.Value c := by simp [ha, hb]
  cases hnumeric : numberValue? op (a.digest.headD 0) (b.digest.headD 0) with
  | some result =>
    dsimp only
    split
    · exact yields_number hs hnumeric
    · exact yields_error hs rfl
  | none =>
    cases op with
    | cons => exact yields_put hs rfl rfl hchildren
    | hide =>
      dsimp only
      split
      · exact yields_put hs rfl rfl hchildren
      · exact yields_error hs rfl
    | _ => exact yields_ok hs (value_verdict hs.sound _)

theorem typed_putList (hs : s.Typed) {ps : List Pointer} (hps : ∀ p ∈ ps, s.Value p) :
    s.Widens (s.putList ps) ∧ (s.putList ps).Value (listPointer ps) := by
  induction ps with
  | nil => exact ⟨.refl hs, s.value_nil⟩
  | cons p ps ih =>
    rw [List.forall_mem_cons] at hps
    obtain ⟨hwidens, hlist⟩ := ih hps.2
    have hchildren : ∀ c ∈ [p, listPointer ps], (s.putList ps).Value c := by
      simp [hwidens.extends_.value hps.1, hlist]
    have harity : Tag.cons.arity? = some [p, listPointer ps].length := rfl
    obtain ⟨hput, hnode⟩ := hwidens.typed.put harity hchildren
    exact ⟨hwidens.trans hput, hnode, rfl⟩

/-- The rest of a form is a value. -/
theorem typed_putNested (hs : s.Typed) (form : Form) {more : Option Pointer} {body : Pointer}
    (hmore : ∀ p ∈ more, s.Value p) (hbody : s.Value body) :
    s.Widens (s.putNested form more body) ∧ (s.putNested form more body).Value (nested form more body) := by
  cases more with
  | none => exact ⟨.refl hs, hbody⟩
  | some rest => exact typed_putList hs (by simp [value_symbol hs.sound, hmore rest rfl, hbody])

end Store

/-! ## The evaluation phase -/

variable {s t : Store} {expr env cont v : Pointer}

/-- What the evaluation phase leaves: a value for a continuation, or a state to go on with. -/
def Outcome.Typed (o : Outcome) (s : Store) : Prop :=
  if o.returned then s.Value o.state.expr ∧ s.EnvChain o.state.env ∧ s.ContChain o.state.cont
  else o.state.Typed s

namespace EvalPhase

theorem deliver_typed {result : Except ErrorCode Pointer × Store} (h : s.Yields result)
    (henv : s.EnvChain env) (hcont : s.ContChain cont) :
    s.Widens (deliver env cont result).2 ∧
      (deliver env cont result).1.Typed (deliver env cont result).2 := by
  obtain ⟨found, t⟩ := result
  obtain ⟨hwidens, hvalue, hcode⟩ := h
  have henv := hwidens.extends_.envChain henv
  cases found with
  | ok v => exact ⟨hwidens, hvalue v rfl, henv, hwidens.extends_.contChain hcont⟩
  | error code => exact ⟨hwidens, .failed (hcode code rfl) henv⟩

/-- A continuation is put in front of the chain. -/
theorem push_typed (hs : s.Typed) (hexpr : s.Value expr) (henv : s.EnvChain env)
    (hcont : s.ContChain cont) {tag : Tag} {a b c : Pointer} (htag : tag.arity? = some 4)
    (hfits : s.FitsFrame tag a b c) :
    s.Widens (push env expr tag [a, b, c, cont] s).2 ∧
      (push env expr tag [a, b, c, cont] s).1.Typed (push env expr tag [a, b, c, cont] s).2 := by
  obtain ⟨hwidens, hchain⟩ := hs.putFrame tag htag hfits hcont
  exact ⟨hwidens, .running (.inl (hwidens.extends_.value hexpr)) (hwidens.extends_.envChain henv) hchain⟩

/-- The evaluation of a value or a thunk leaves what is well-typed. -/
theorem expression_typed (depth : ℕ) (hs : s.Typed) (hexpr : s.Value expr ∨ s.Holds expr ∧ expr.tag = .thunk)
    (henv : s.EnvChain env) (hcont : s.ContChain cont) :
    s.Widens (evaluate depth ⟨expr, env, cont⟩ s).2 ∧
      (evaluate depth ⟨expr, env, cont⟩ s).1.Typed (evaluate depth ⟨expr, env, cont⟩ s).2 := by
  have hparts := hs.value_expression hexpr
  have hbinds := s.binds_expression (hexpr.imp Store.Value.tag And.right)
  unfold evaluate
  cases hexpression : s.expression expr <;>
    simp only [hexpression, Expression.pointers, Expression.Binds, List.forall_mem_cons, Option.mem_toList,
      List.not_mem_nil, false_imp_iff, implies_true, and_true] at hparts hbinds ⊢
  case value v => exact deliver_typed (Store.yields_ok hs hparts) henv hcont
  case «variable» => exact deliver_typed (Store.yields_lookup hs depth expr henv) henv hcont
  case lambda parameter more body =>
    obtain ⟨hparameter, hbody, hmore⟩ := hparts
    obtain ⟨hwidens, hnested⟩ := Store.typed_putNested hs .lambda hmore hbody
    have hfits : (s.putNested .lambda more body).FitsNode .function
        [parameter, nested .lambda more body, env] :=
      ⟨_, _, _, rfl, hwidens.extends_.symbol ⟨hparameter.holds, hbinds⟩, hnested,
        hwidens.extends_.envChain henv⟩
    have hyields := Store.yields_put hwidens.typed rfl rfl hfits
    exact deliver_typed ⟨hwidens.trans hyields.widens, hyields.value, hyields.error⟩ henv hcont
  case cond test first second =>
    exact push_typed hs hparts.1 henv hcont rfl ⟨hparts.2.1, hparts.2.2, henv⟩
  case body body => exact ⟨.refl hs, .running (.inl hparts) henv hcont⟩
  case bind recursive var init more body =>
    obtain ⟨hvar, hinit, hbody, hmore⟩ := hparts
    obtain ⟨hwidens, hnested⟩ := Store.typed_putNested hs (bindForm recursive) hmore hbody
    have henv := hwidens.extends_.envChain henv
    have hfits : (s.putNested (bindForm recursive) more body).FitsFrame (bindTag recursive) var
        (nested (bindForm recursive) more body) env := by
      have hvar := hwidens.extends_.symbol ⟨hvar.holds, hbinds⟩
      cases recursive <;> exact ⟨hvar, hnested, henv⟩
    have hpush := push_typed hwidens.typed (hwidens.extends_.value hinit) henv
      (hwidens.extends_.contChain hcont) (by cases recursive <;> rfl) hfits
    exact ⟨hwidens.trans hpush.1, hpush.2⟩
  case unary op operand =>
    exact push_typed hs hparts henv hcont rfl ⟨by rw [unaryOf?_symbol]; rfl, rfl, rfl⟩
  case binary op first second =>
    exact push_typed hs hparts.1 henv hcont rfl ⟨by rw [binaryOf?_symbol]; rfl, hparts.2, henv⟩
  case call0 head => exact push_typed hs hparts henv hcont rfl ⟨henv, rfl, rfl⟩
  case call head first others =>
    exact push_typed hs hparts.1 henv hcont rfl ⟨hparts.2.1, hparts.2.2, henv⟩
  case malformed => exact deliver_typed (Store.yields_error hs rfl) henv hcont

/-- What the evaluation phase makes of a well-typed state is well-typed. -/
theorem reduct_typed (depth : ℕ) (hs : s.Typed) {st : State} (hst : st.Typed s) :
    s.Widens (reduct depth st s).2 ∧ (reduct depth st s).1.Typed (reduct depth st s).2 := by
  unfold reduct
  split
  · exact ⟨.refl hs, hst⟩
  rename_i hhalted
  cases hst with
  | running hexpr henv hcont => exact expression_typed depth hs hexpr henv hcont
  | completed => exact absurd rfl hhalted
  | failed => exact absurd rfl hhalted

end EvalPhase

/-! ## The continuation phase -/

namespace ContPhase

theorem handOn_typed {result : Except ErrorCode Pointer × Store} (h : s.Yields result)
    (henv : s.EnvChain env) (hcont : s.ContChain cont) :
    s.Widens (handOn env cont result).2 ∧ (handOn env cont result).1.Typed (handOn env cont result).2 := by
  obtain ⟨found, t⟩ := result
  obtain ⟨hwidens, hvalue, hcode⟩ := h
  have henv := hwidens.extends_.envChain henv
  cases found with
  | ok v =>
    have harity : Tag.thunk.arity? = some [v, .nil].length := rfl
    obtain ⟨hput, hthunk⟩ := hwidens.typed.put harity ⟨v, rfl, hvalue v rfl⟩
    have hall := hwidens.trans hput
    exact ⟨hall, .running (.inr ⟨hthunk, rfl⟩) (hput.extends_.envChain henv)
      (hall.extends_.contChain hcont)⟩
  | error code => exact ⟨hwidens, .failed (hcode code rfl) henv⟩

theorem fail_typed (hs : s.Typed) (henv : s.EnvChain env) {code : ErrorCode}
    (hcode : code.ofProgram = true) : s.Widens s ∧ (State.fail env code).Typed s :=
  ⟨.refl hs, .failed hcode henv⟩

/-- A binding is put in front of an environment, in which a body is entered. -/
theorem bind_typed (hs : s.Typed) {tag : Tag} {var outer body : Pointer} (htag : tag.isEnv = true)
    (hvar : s.Symbol var) (hv : s.Value v) (houter : s.EnvChain outer) (hbody : s.Value body)
    (hcont : s.ContChain cont) : s.Widens (s.put tag [var, v, outer]) ∧
      (⟨body, Store.nodePointer tag [var, v, outer], cont⟩ : State).Typed (s.put tag [var, v, outer]) := by
  obtain ⟨hwidens, hchain⟩ := hs.putEnv tag htag hvar hv houter
  exact ⟨hwidens, .running (.inl (hwidens.extends_.value hbody)) hchain (hwidens.extends_.contChain hcont)⟩

/-- What becomes of a function that is called with an argument is well-typed. -/
theorem enter_typed (hs : s.Typed) {function caller : Pointer} {more : Option Pointer}
    (hfunction : s.Value function) (hv : s.Value v) (hcaller : s.EnvChain caller)
    (hcont : s.ContChain cont) (henv : s.EnvChain env) (hmore : ∀ p ∈ more, p.tag = .cons ∧ s.Value p) :
    s.Widens (enter s function v caller cont env more).2 ∧
      (enter s function v caller cont env more).1.Typed (enter s function v caller cont env more).2 := by
  unfold enter
  split
  swap
  · exact fail_typed hs henv rfl
  rename_i htag
  obtain ⟨hparameter, hbody, houter⟩ := hs.function_parts htag hfunction.holds
  split
  · exact fail_typed hs henv rfl
  cases more with
  | none => exact bind_typed hs rfl hparameter hv houter hbody hcont
  | some rest =>
    obtain ⟨hcons, hrest⟩ := hmore rest rfl
    have hparts := hs.value_part (.inl hcons) hrest.holds
    obtain ⟨hwidens, hbound⟩ := hs.putEnv .env rfl hparameter hv houter
    obtain ⟨hput, hchain⟩ := hwidens.typed.putFrame .call rfl
      ⟨hwidens.extends_.value (hparts 0), hwidens.extends_.value (hparts 1),
        hwidens.extends_.envChain hcaller⟩ (hwidens.extends_.contChain hcont)
    have hall := hwidens.trans hput
    exact ⟨hall, .running (.inl (hall.extends_.value hbody)) (hput.extends_.envChain hbound) hchain⟩

/-- What the continuation phase makes of a value is well-typed. -/
theorem resume_typed (hs : s.Typed) (hv : s.Value v) (henv : s.EnvChain env) (hcont : s.ContChain cont) :
    s.Widens (resume ⟨v, env, cont⟩ s).2 ∧
      (resume ⟨v, env, cont⟩ s).1.Typed (resume ⟨v, env, cont⟩ s).2 := by
  have hparts := hcont.parts
  cases htag : cont.tag <;> rw [htag] at hparts <;> simp only [resume, htag]
  case outermost => exact ⟨.refl hs, .completed hv henv⟩
  case call0 =>
    obtain ⟨-, houter⟩ := hparts rfl
    split
    · rename_i hfunction
      obtain ⟨-, hbody, hclosed⟩ := hs.function_parts hfunction hv.holds
      split
      · exact ⟨.refl hs, .running (.inl hbody) hclosed houter⟩
      · exact fail_typed hs henv rfl
    · exact fail_typed hs henv rfl
  case call =>
    obtain ⟨⟨hargument, hothers, hcaller⟩, houter⟩ := hparts rfl
    split
    · obtain ⟨hwidens, hchain⟩ := hs.putFrame .call2 rfl ⟨hv, hothers, hcaller⟩ houter
      exact ⟨hwidens, .running (.inl (hwidens.extends_.value hargument))
        (hwidens.extends_.envChain hcaller) hchain⟩
    · exact fail_typed hs henv rfl
  case call2 =>
    obtain ⟨⟨hfunction, hothers, hcaller⟩, houter⟩ := hparts rfl
    cases hmore : Store.rest? (s.part cont 1) with
    | none =>
      refine fail_typed hs henv ?_
      split <;> rfl
    | some more =>
      refine enter_typed hs hfunction hv hcaller houter henv fun p hp => ?_
      obtain ⟨rfl, hcons⟩ := Store.of_rest? hmore p hp
      exact ⟨hcons, hothers⟩
  case bindLet | bindRec =>
    obtain ⟨⟨hvar, hbody, hsaved⟩, houter⟩ := hparts rfl
    exact bind_typed hs rfl hvar hv hsaved hbody houter
  case branch =>
    obtain ⟨⟨hfirst, hsecond, hsaved⟩, houter⟩ := hparts rfl
    refine ⟨.refl hs, .running (.inl ?_) hsaved houter⟩
    split
    · exact hsecond
    · exact hfirst
  case unary =>
    obtain ⟨⟨hop, -, -⟩, houter⟩ := hparts rfl
    exact handOn_typed (Store.yields_unary hs hop hv) henv houter
  case binary =>
    obtain ⟨⟨hop, hsecond, hsaved⟩, houter⟩ := hparts rfl
    obtain ⟨hwidens, hchain⟩ := hs.putFrame .binary2 rfl ⟨hop, hv, rfl⟩ houter
    exact ⟨hwidens, .running (.inl (hwidens.extends_.value hsecond))
      (hwidens.extends_.envChain hsaved) hchain⟩
  case binary2 =>
    obtain ⟨⟨hop, hfirst, -⟩, houter⟩ := hparts rfl
    exact handOn_typed (Store.yields_binary hs hop hfirst hv) henv houter
  all_goals
    cases hcont with
    | outermost => cases htag
    | frame _ hfits =>
      rw [htag] at hfits
      exact hfits.elim

/-- What the continuation phase makes of a well-typed outcome is well-typed. -/
theorem reduct_typed (hs : s.Typed) {o : Outcome} (h : o.Typed s) :
    s.Widens (reduct o s).2 ∧ (reduct o s).1.Typed (reduct o s).2 := by
  unfold Outcome.Typed at h
  unfold reduct
  split at h
  · rename_i hreturned
    rw [if_pos hreturned]
    exact resume_typed hs h.1 h.2.1 h.2.2
  · rename_i hreturned
    rw [if_neg hreturned]
    exact ⟨.refl hs, h⟩

end ContPhase

/-! ## Steps -/

theorem Outcome.Typed.state {o : Outcome} (h : o.Typed s) : o.state.Typed s := by
  unfold Outcome.Typed at h
  split at h
  · exact .running (.inl h.1) h.2.1 h.2.2
  · exact h

theorem Outcome.Typed.value {o : Outcome} (h : o.Typed s) (hreturned : o.returned = true) :
    s.Value o.state.expr := by
  unfold Outcome.Typed at h
  rw [if_pos hreturned] at h
  exact h.1

/-- The children of a value are values and environments. -/
theorem Store.Typed.value_child (hs : s.Typed) {p q : Pointer} (hp : s.Value p) (h : s.Child p q) :
    s.Value q ∨ s.EnvChain q := by
  obtain ⟨cs, hnode, hq⟩ := h
  have hfits := hs.node hnode
  have hvalue := hp.tag
  cases htag : p.tag <;> rw [htag] at hfits hvalue
  case cons | commitment => exact .inl (hfits q hq)
  case function =>
    obtain ⟨parameter, body, env, rfl, hparameter, hbody, henv⟩ := hfits
    simp only [List.mem_cons, List.not_mem_nil, or_false] at hq
    rcases hq with rfl | rfl | rfl
    · exact .inl ⟨hparameter.holds, by rw [hparameter.tag]; rfl⟩
    · exact .inl hbody
    · exact .inr henv
  case nil | number | symbol =>
    obtain ⟨_, _, _, _, -, hframe, -⟩ := hfits
    exact hframe.elim
  all_goals cases hvalue

/-- So are those of environments. -/
theorem Store.Typed.env_child (hs : s.Typed) {p q : Pointer} (hp : s.EnvChain p) (h : s.Child p q) :
    s.Value q ∨ s.EnvChain q := by
  cases hp with
  | nil => exact hs.value_child s.value_nil h
  | bind _ hnode hvar hvalue houter =>
    obtain ⟨cs, hcs, hq⟩ := h
    rw [hnode] at hcs
    cases hcs
    simp only [List.mem_cons, List.not_mem_nil, or_false] at hq
    rcases hq with rfl | rfl | rfl
    · exact .inl ⟨hvar.holds, by rw [hvar.tag]; rfl⟩
    · exact .inl hvalue
    · exact .inr houter

/-- Nothing but values and environments stands below a value. -/
theorem Store.Typed.above (hs : s.Typed) {p q : Pointer} (hp : s.Value p) (h : s.Above p q) :
    s.Value q ∨ s.EnvChain q := by
  induction h with
  | refl => exact .inl hp
  | tail _ hchild ih => exact ih.elim (hs.value_child · hchild) (hs.env_child · hchild)

/-- Values have a written form. -/
theorem Store.Typed.exists_render (hs : s.Typed) (hv : s.Value v) : ∃ text, s.render v = .ok text := by
  cases hrender : s.render v with
  | ok text => exact ⟨text, rfl⟩
  | error fault =>
    obtain ⟨q, value, habove, htag, -⟩ := Store.render_eq_error hs.reachable hv.holds fault hrender
    rcases hs.above hv habove with hvalue | henv
    · have hq := hvalue.tag
      rw [htag] at hq
      cases hq
    · cases henv with
      | nil => cases htag
      | bind hisEnv =>
        rw [htag] at hisEnv
        cases hisEnv

namespace Machine

variable {config : Config} {state : State}

/-- A step from a well-typed state is computed, and what it comes to is well-typed. -/
theorem step_typed (config : Config) (hs : s.Typed) (hst : state.Typed s) : ∃ F t,
    step config state s = .ok F t ∧ s.Widens t ∧ F.input = state ∧ F.intermediate.Typed t ∧
      F.output.Typed t := by
  have hheld := hst.held hs.sound
  have hmiddle : s.Widens (middle config state s).2 ∧
      (middle config state s).1.Typed (middle config state s).2 :=
    EvalPhase.reduct_typed config.lookupDepth hs hst
  obtain ⟨hwidens, hmiddle⟩ := hmiddle
  have hnext : (middle config state s).2.Widens (next config state s).2 ∧
      (next config state s).1.Typed (next config state s).2 :=
    ContPhase.reduct_typed hwidens.typed hmiddle
  obtain ⟨hwidens', hnext⟩ := hnext
  rcases step_cases config hs.sound hheld with ⟨F, hstep, hfollows⟩ | ⟨v, fault, hreported, hrender, -⟩
  · refine ⟨F, _, hstep, hwidens.trans hwidens', hfollows.input, ?_, ?_⟩
    · rw [hfollows.intermediate]
      exact hmiddle.state.mono hwidens'.extends_
    · rw [hfollows.output]
      exact hnext
  · obtain ⟨hreturned, rfl⟩ := report?_eq_some hreported
    obtain ⟨text, htext⟩ := hwidens.typed.exists_render (hmiddle.value hreturned)
    rw [htext] at hrender
    cases hrender

end Machine

end FieldLisp
