import FieldLisp.Proofs.Machine.ContReading
import FieldLisp.Proofs.Machine.EvalReduct

/-!
# Computing the continuation phase

On a store that holds the outcome of the evaluation phase, the guard of exactly one rule holds, and
this rule computes what the phase makes of it. One rule reports a value and needs its written form:

* `ContPhase.view`, `ContPhase.gives_prelude`: what the rules see of an outcome;
* `ContPhase.guards_view`: the guard of the rule `ContPhase.firing` holds, and no other;
* `ContPhase.gives_run`, `ContPhase.reports_run`: this rule computes `ContPhase.reduct`.
-/

namespace FieldLisp.ContPhase

open StepModel Workspace

variable {s : Store} {o : Outcome} {v env cont : Pointer}

/-- What the rules of the phase see of an outcome. -/
def view (s : Store) (o : Outcome) : Scope Int Pointer :=
  let child (i : ℕ) : Pointer :=
    if o.returned && Tag.frames.contains o.state.cont.tag then s.part o.state.cont i else .nil
  ⟨o.state.expr, o.state.env, o.state.cont, bit o.returned, child 0, child 1, child 2, child 3⟩

theorem gives_prelude (hs : s.Sound) (hcont : s.Holds o.state.cont) :
    Gives (prelude o.toStep : ComputeM _) s (view s o) s := by
  unfold prelude
  rw [tagIn_eq (by decide) (by decide) (by decide), pure_bind]
  simp only [Outcome.toStep, both_cons, both_nil, pure_bind]
  cases hnode : o.returned && Tag.frames.contains o.state.cont.tag with
  | true =>
    refine (gives_unhash hs (arity_of_frame (Bool.and_eq_true_iff.1 hnode).2) hcont rfl).bind ?_
    simp only [view, hnode, if_true]
    exact gives_pure _ s
  | false =>
    refine (gives_unhash_off o.state.cont 4 s rfl).bind ?_
    simp only [view, hnode]
    exact gives_pure _ s

/-- The guard of one rule holds, and no other. -/
theorem guards_view (s : Store) (o : Outcome) : (guards (view s o) : ComputeM _) =
    pure (ContRule.all.map fun rule => (rule, bit (rule == firing o.returned o.state.cont))) := by
  have htagged {guard : ContRule × Tag → ComputeM (ContRule × Int)} (hguard : ∀ p, guard p =
      pure (p.1, bit (o.returned && o.state.cont.tag == p.2))) : ruleTags.mapM guard =
        pure (ruleTags.map fun p => (p.1, bit (o.returned && o.state.cont.tag == p.2))) := by
    rw [← List.mapM_pure]
    exact congrArg (ruleTags.mapM ·) (funext hguard)
  unfold guards
  rw [htagged fun p => by simp only [view, tagIs_eq, both_cons, both_nil, pure_bind], pure_bind,
    tagIn_eq (by decide) (by decide) (by decide), pure_bind]
  simp only [view, no_bit, both_cons, both_nil, pure_bind, firing]
  congr 1
  generalize o.state.cont.tag = tag
  cases o.returned with
  | false => rfl
  | true => cases tag <;> rfl

/-! ## Rules -/

/-- The state as the rules compute it. -/
def toStep (st : State) : Step Int Pointer := ⟨st.expr, st.env, st.cont, bit false⟩

/-- What the rules see of a value that is handed to a continuation. -/
def frameView (s : Store) (v env cont : Pointer) : Scope Int Pointer :=
  ⟨v, env, cont, bit true, s.part cont 0, s.part cont 1, s.part cont 2, s.part cont 3⟩

theorem resume_bind {recursive : Bool} (htag : cont.tag = bindTag recursive) :
    resume ⟨v, env, cont⟩ s =
      (⟨s.part cont 1, Store.nodePointer (bindEnv recursive) [s.part cont 0, v, s.part cont 2],
        s.part cont 3⟩, s.put (bindEnv recursive) [s.part cont 0, v, s.part cont 2]) := by
  simp only [resume, htag]
  cases recursive <;> rfl

/-- The rule computes what the phase makes of the state. -/
def Computes (s : Store) (v env cont : Pointer) (x : ComputeM (Step Int Pointer)) : Prop :=
  Gives x s (toStep (resume ⟨v, env, cont⟩ s).1) (resume ⟨v, env, cont⟩ s).2

section
variable (hs : s.Sound) (hv : s.Holds v) (hcont : s.Holds cont)

include hs hv

theorem gives_call0 (htag : cont.tag = .call0) :
    Computes s v env cont (call0 (frameView s v env cont)) := by
  unfold Computes call0
  simp only [resume, htag, frameView, tagIs_eq, pure_bind]
  by_cases hfunction : v.tag = .function
  · refine (gives_unhash3 hs (by rw [hfunction]; rfl) hv
      (by rw [hfunction, beq_self_eq_true, enabled_bit])).bind ?_
    simp only [hfunction, beq_self_eq_true, pointerEq_eq, ptr_eq, both_cons, both_nil, pure_bind,
      choose_bit, Bool.true_and, if_true]
    by_cases hnullary : s.part v 0 = Builtin.noParameterPointer
    · simp only [hnullary, beq_self_eq_true, if_true]
      exact gives_pure _ s
    · simp only [hnullary, beq_eq_false_iff_ne.2 hnullary, if_false, Bool.false_eq_true]
      exact gives_pure _ s
  · refine (gives_unhash3_off v s (by rw [enabled_bit, beq_eq_false_iff_ne.2 hfunction])).bind ?_
    simp only [hfunction, beq_eq_false_iff_ne.2 hfunction, pointerEq_eq, ptr_eq, both_cons, both_nil,
      pure_bind, choose_bit, Bool.false_and, if_false, Bool.false_eq_true]
    exact gives_pure _ s

include hcont

theorem gives_call (htag : cont.tag = .call) :
    Computes s v env cont (call (frameView s v env cont)) := by
  have hchild := hs.holds_part (by rw [htag]; rfl) hcont
  unfold Computes call
  simp only [resume, htag, frameView, tagIs_eq, pure_bind, choose_bit]
  by_cases hfunction : v.tag = .function
  · simp only [hfunction, beq_self_eq_true, if_true]
    refine (gives_hashTag hs rfl ?_ rfl).bind (gives_pure _ _)
    simp [hv, hchild]
  · simp only [hfunction, beq_eq_false_iff_ne.2 hfunction, if_false, Bool.false_eq_true]
    exact (gives_hashTag_off _ _ s rfl).bind (gives_pure _ s)

theorem gives_binding (recursive : Bool) (htag : cont.tag = bindTag recursive) :
    Computes s v env cont (binding (bindEnv recursive) (frameView s v env cont)) := by
  have hchild := hs.holds_part (by rw [htag]; cases recursive <;> rfl) hcont
  have harity : (bindEnv recursive).arity? = some 3 := by cases recursive <;> rfl
  unfold Computes binding
  rw [resume_bind htag]
  refine (gives_hashTag hs harity ?_ rfl).bind (gives_pure _ _)
  simp [frameView, hv, hchild]

omit hv hcont hs in
theorem gives_branch (htag : cont.tag = .branch) :
    Computes s v env cont (branch (frameView s v env cont)) := by
  unfold Computes branch
  simp only [resume, htag, frameView, tagIs_eq, pure_bind, selectPointer_bit, beq_iff_eq]
  exact gives_pure _ s

theorem gives_binary (htag : cont.tag = .binary) :
    Computes s v env cont (binary (frameView s v env cont)) := by
  have hchild := hs.holds_part (by rw [htag]; rfl) hcont
  unfold Computes binary
  simp only [resume, htag]
  refine (gives_hashTag hs rfl ?_ rfl).bind (gives_pure _ _)
  simp [frameView, hv, hchild, ptr_eq, s.holds_nil]

/-- A function that is called with one argument more. -/
theorem gives_call2 (htag : cont.tag = .call2) :
    Computes s v env cont (call2 (frameView s v env cont)) := by
  have hchild := hs.holds_part (by rw [htag]; rfl) hcont
  unfold Computes call2
  simp only [resume, htag, frameView, tagIs_eq, pure_bind, Store.rest?_eq]
  have hexclusive := MarkM.tags_exclusive (s.part cont 1) .cons .nil (by decide)
  have hfunction := hchild 0
  have hmore := hchild 1
  generalize s.part cont 0 = function at hfunction ⊢
  generalize s.part cont 1 = more at hmore hexclusive ⊢
  -- Without a function that takes an argument nothing is taken in.
  have off (parameter body functionEnv : Pointer) (out : Step Int Pointer) : Gives (do
      let bound ← hashTag .env [parameter, v, functionEnv] (some (bit false))
      let pair ← unhash2 more (some (bit false))
      let call ← hashTag .call [pair.1, pair.2, s.part cont 2, s.part cont 3] (some (bit false))
      pure (if false then (⟨body, bound, if more.tag == .cons then call else s.part cont 3, lit 0⟩ :
        Step Int Pointer) else out)) s out s :=
    (gives_hashTag_off _ _ s rfl).bind ((gives_unhash2_off more s rfl).bind
      ((gives_hashTag_off _ _ s rfl).bind (gives_pure _ s)))
  by_cases htag' : function.tag = .function
  · have harity : function.tag.arity? = some 3 := by
      rw [htag']
      rfl
    refine (gives_unhash3 hs harity hfunction
      (by rw [htag', beq_self_eq_true, enabled_bit])).bind ?_
    have hparts := hs.holds_part harity hfunction
    simp only [enter, htag', beq_self_eq_true, pointerEq_eq, ptr_eq, oneOf_pair hexclusive, no_bit,
      both_cons, both_nil, pure_bind, selectPointer_bit, choose_bit, Bool.true_and, if_true]
    by_cases hnullary : s.part function 0 = Builtin.noParameterPointer
    · simp only [hnullary, beq_self_eq_true, Bool.not_true, Bool.false_and, if_true]
      cases more.tag == .cons || more.tag == .nil <;> exact off _ _ _ _
    · simp only [hnullary, beq_eq_false_iff_ne.2 hnullary, Bool.not_false, Bool.true_and, if_false]
      cases more.tag == .cons || more.tag == .nil with
      | false => exact off _ _ _ _
      | true =>
        have hbound : ∀ c ∈ [s.part function 0, v, s.part function 2], s.Holds c := by
          simp [hparts, hv]
        have htakes := Store.takes_put .env hs rfl hbound
        refine (gives_hashTag hs rfl hbound rfl).bind ?_
        by_cases hcons : more.tag = .cons
        · have hpair : more.tag.arity? = some 2 := by
            rw [hcons]
            rfl
          simp only [hcons, beq_self_eq_true, Bool.true_and, if_true]
          refine (gives_unhash2 htakes.sound hpair (htakes.extends_.holds hmore) rfl).bind ?_
          rw [htakes.extends_.part_eq hs hpair hmore, htakes.extends_.part_eq hs hpair hmore]
          refine (gives_hashTag htakes.sound rfl ?_ rfl).bind (gives_pure _ _)
          have hheld (p : Pointer) (hp : s.Holds p) := htakes.extends_.holds hp
          simp [hheld _ (hs.holds_part hpair hmore _), hheld _ (hchild _)]
        · simp only [beq_eq_false_iff_ne.2 hcons, Bool.and_false, if_false, Bool.false_eq_true]
          exact (gives_unhash2_off more _ rfl).bind ((gives_hashTag_off _ _ _ rfl).bind
            (gives_pure _ _))
  · refine (gives_unhash3_off function s
      (by rw [enabled_bit, beq_eq_false_iff_ne.2 htag'])).bind ?_
    simp only [enter, htag', beq_eq_false_iff_ne.2 htag', pointerEq_eq, ptr_eq, oneOf_pair hexclusive,
      no_bit, both_cons, both_nil, pure_bind, selectPointer_bit, choose_bit, Bool.false_and, if_false,
      Bool.false_eq_true]
    cases more.tag == .cons || more.tag == .nil <;> exact off _ .nil _ _

end

/-! ## Operators -/

theorem beq_unary (p : Pointer) (op : UnaryOp) :
    (formOf? p == some (Form.unary op)) = decide (unaryOf? p = some op) := by
  have hiff : formOf? p = some (.unary op) ↔ unaryOf? p = some op := by
    unfold unaryOf?
    cases formOf? p with
    | none => simp
    | some form => cases form <;> simp
  rw [beq_eq_decide, decide_eq_decide]
  exact hiff

theorem beq_binary (p : Pointer) (op : BinaryOp) :
    (formOf? p == some (Form.binary op)) = decide (binaryOf? p = some op) := by
  have hiff : formOf? p = some (.binary op) ↔ binaryOf? p = some op := by
    unfold binaryOf?
    cases formOf? p with
    | none => simp
    | some form => cases form <;> simp
  rw [beq_eq_decide, decide_eq_decide]
  exact hiff

section Flags
variable {κ : Type} [DecidableEq κ] (chosen : Option κ) (ks : List κ)

/-- Whether each of several operators is the one that was chosen. -/
def chosenFlags : List (κ × Int) := ks.map fun k => (k, bit (decide (chosen = some k)))

variable {ks}

theorem flag_chosen {k : κ} (h : k ∈ ks) :
    flag (chosenFlags chosen ks) k = bit (decide (chosen = some k)) :=
  flag_map h fun k => bit (decide (chosen = some k))

theorem chosen_exclusive {ops : List κ} (hnodup : ops.Nodup) :
    ops.Pairwise fun a b => (decide (chosen = some a) && decide (chosen = some b)) = false :=
  hnodup.imp fun {a b} hab => by
    refine Bool.eq_false_iff.2 fun h => hab ?_
    simp only [Bool.and_eq_true, decide_eq_true_eq] at h
    exact Option.some.inj (h.1.symm.trans h.2)

/-- The flag that says whether there is an operator at all. -/
theorem oneOf_chosenFlags (hne : ks ≠ []) (hnodup : ks.Nodup) :
    oneOf ((chosenFlags chosen ks).map (·.2)) = bit (ks.any fun k => decide (chosen = some k)) := by
  rw [chosenFlags, List.map_map]
  exact oneOf_map hne (chosen_exclusive chosen hnodup)

end Flags

theorem failWith_eq (env : Pointer) (code : ErrorCode) :
    (Step.failWith env (lit code.value) : ComputeM _) = pure (toStep (.fail env code)) := by
  cases code <;> rfl

/-- Whether an operator takes its operand apart. -/
def takesApart (op : UnaryOp) (tag : Tag) : Bool :=
  match op with
  | .car | .cdr => tag == .cons
  | .payload | .secret => tag == .commitment
  | .atom | .commit | .emit => false

/-- Whether an operator takes an operand. -/
def accepts (op : UnaryOp) (tag : Tag) : Bool :=
  match op with
  | .car | .cdr => tag == .cons || tag == .nil
  | .payload | .secret => tag == .commitment
  | .atom | .commit | .emit => true

/-- What an operator gives, from the parts of its operand and a commitment to it. -/
def unaryResult (op : UnaryOp) (v : Pointer) (parts : Pointer × Pointer) (commitment : Pointer) :
    Pointer :=
  match op with
  | .car | .secret => if v.tag = .nil then .nil else parts.1
  | .cdr | .payload => if v.tag = .nil then .nil else parts.2
  | .atom => verdict (!v.tag == .cons)
  | .commit => commitment
  | .emit => v

theorem unaryFlags_eq (p : Pointer) : (UnaryOp.all.mapM fun op => do
    let same ← pointerEq p (ptr (Form.unary op).symbol)
    pure (op, same) : ComputeM (List (UnaryOp × Int))) =
      pure (chosenFlags (unaryOf? p) UnaryOp.all) := by
  rw [Workspace.operatorFlags_eq]
  simp only [beq_unary]
  rfl

/-- The rule for one operator of one operand. -/
theorem unary_eq {op : UnaryOp} (hop : unaryOf? (s.part cont 0) = some op) :
    (unary (frameView s v env cont) : ComputeM _) = (do
      let parts ← unhash2 v (some (bit (takesApart op v.tag)))
      let commitment ← hashTag .commitment [.number 0, v] (some (bit (decide (op = .commit))))
      StepModel.emit v (some (bit (decide (op = .emit))))
      let result := unaryResult op v parts commitment
      let thunk ← hashTag .thunk [result, .nil] (some (bit (accepts op v.tag)))
      pure (if accepts op v.tag then ⟨thunk, env, s.part cont 3, bit false⟩
        else toStep (.fail env .argumentError))) := by
  have hflag (k : UnaryOp) : flag (chosenFlags (some op) UnaryOp.all) k = bit (decide (op = k)) := by
    rw [flag_chosen _ (by cases k <;> decide)]
    simp
  have hknown : oneOf ((chosenFlags (some op) UnaryOp.all).map (·.2)) = bit true := by
    rw [oneOf_chosenFlags _ (by decide) (by decide)]
    cases op <;> rfl
  unfold unary
  simp only [frameView, unaryFlags_eq, hop, pure_bind]
  simp only [hflag, hknown, tagIs_eq, pure_bind, truth_bit, ptr_eq, returning, no_bit,
    oneOf_pair (MarkM.tags_exclusive v .cons .nil (by decide))]
  cases op <;> simp [oneOf_pair, both_cons, both_nil, selectPointer_bit, select_bit, failWith_eq,
    choose_bit, no_bit, takesApart, accepts, unaryResult, lit_zero]

/-- Without an operator nothing is computed. -/
theorem gives_unary_unknown (hop : unaryOf? (s.part cont 0) = none) :
    Gives (unary (frameView s v env cont) : ComputeM _) s
      (toStep (.fail env .invalidContinuation)) s := by
  have hflag (k : UnaryOp) : flag (chosenFlags none UnaryOp.all) k = bit false :=
    flag_chosen _ (by cases k <;> decide)
  have hknown : oneOf ((chosenFlags (none : Option UnaryOp) UnaryOp.all).map (·.2)) = bit false :=
    oneOf_chosenFlags _ (by decide) (by decide)
  unfold unary
  simp only [frameView, unaryFlags_eq, hop, pure_bind]
  simp only [hflag, hknown, oneOf_pair (rfl : (false && false) = false), tagIs_eq, both_cons, both_nil,
    pure_bind, Bool.false_and, Bool.or_self, no_bit, truth_bit, ptr_eq, selectPointer_bit, select_bit,
    returning, failWith_eq, choose_bit, if_false, Bool.false_eq_true,
    oneOf_pair (MarkM.tags_exclusive v .cons .nil (by decide)), bind_assoc]
  exact (gives_unhash2_off v s rfl).bind ((gives_hashTag_off _ _ s rfl).bind
    ((gives_emit_off v s rfl).bind ((gives_hashTag_off _ _ s rfl).bind (gives_pure _ s))))

/-- The last lines of two rules: a value is handed on, if there is one. -/
theorem gives_handOn {t : Store} {r k : Pointer} {c : ErrorCode} {ok : Bool}
    {result : Except ErrorCode Pointer × Store} (hsound : t.Sound) (hr : ok = true → t.Holds r)
    (hresult : result = (if ok then .ok r else .error c, t)) :
    Gives (do
      let thunk ← hashTag .thunk [r, .nil] (some (bit ok))
      pure (if ok then ⟨thunk, env, k, bit false⟩ else toStep (.fail env c))) t
      (toStep (handOn env k result).1) (handOn env k result).2 := by
  subst hresult
  cases ok with
  | true =>
    refine (gives_hashTag hsound rfl ?_ rfl).bind (gives_pure _ _)
    simp [hr rfl, t.holds_nil]
  | false => exact (gives_hashTag_off _ _ t rfl).bind (gives_pure _ t)

/-- What is taken apart is nil of nil anyway. -/
theorem if_nil_car (s : Store) (v : Pointer) : (if v.tag = .nil then .nil else s.car v) = s.car v := by
  by_cases h : v.tag = .nil
  · rw [if_pos h, Store.car, if_neg (by rw [h]; decide)]
  · rw [if_neg h]

theorem if_nil_cdr (s : Store) (v : Pointer) : (if v.tag = .nil then .nil else s.cdr v) = s.cdr v := by
  by_cases h : v.tag = .nil
  · rw [if_pos h, Store.cdr, if_neg (by rw [h]; decide)]
  · rw [if_neg h]

/-- The parts of a commitment are there where an operator takes it apart. -/
theorem gives_unhash2_commitment (hs : s.Sound) (hv : s.Holds v) : ∃ parts,
    Gives (unhash2 v (some (bit (v.tag == .commitment)))) s parts s ∧
      (v.tag = .commitment → parts = (s.part v 0, s.part v 1) ∧ s.Holds parts.1 ∧ s.Holds parts.2) := by
  by_cases htag : v.tag = .commitment
  · have harity : v.tag.arity? = some 2 := by
      rw [htag]
      rfl
    exact ⟨_, gives_unhash2 hs harity hv (by rw [htag, beq_self_eq_true, enabled_bit]), fun _ =>
      ⟨rfl, hs.holds_part harity hv 0, hs.holds_part harity hv 1⟩⟩
  · exact ⟨_, gives_unhash2_off v s (by rw [enabled_bit, beq_eq_false_iff_ne.2 htag]),
      fun h => absurd h htag⟩

theorem holds_verdict (hs : s.Sound) (b : Bool) : s.Holds (verdict b) := MarkM.holds_truth hs b

/-- A builtin of one operand is computed. -/
theorem gives_unary (hs : s.Sound) (hv : s.Holds v) {op : UnaryOp}
    (hop : unaryOf? (s.part cont 0) = some op) (hsilent : op ≠ .emit) (htag : cont.tag = .unary) :
    Computes s v env cont (unary (frameView s v env cont)) := by
  unfold Computes
  rw [unary_eq hop]
  simp only [resume, htag, Store.applyUnary, hop]
  have off : Gives (hashTag .commitment [.number 0, v] (some (bit false))) s .nil s :=
    gives_hashTag_off _ _ s rfl
  have silent : Gives (StepModel.emit v (some (bit false))) s () s := gives_emit_off v s rfl
  cases op with
  | car =>
    refine (gives_unhash2_pair hs fun _ => hv).bind (off.bind (silent.bind (gives_handOn hs (fun _ => ?_) ?_)))
    · simp only [unaryResult, if_nil_car]
      exact hs.holds_car hv
    · simp only [Store.unaryValue, accepts, unaryResult, if_nil_car, Bool.or_eq_true, beq_iff_eq]
      split <;> rfl
  | cdr =>
    refine (gives_unhash2_pair hs fun _ => hv).bind (off.bind (silent.bind (gives_handOn hs (fun _ => ?_) ?_)))
    · simp only [unaryResult, if_nil_cdr]
      exact hs.holds_cdr hv
    · simp only [Store.unaryValue, accepts, unaryResult, if_nil_cdr, Bool.or_eq_true, beq_iff_eq]
      split <;> rfl
  | payload =>
    obtain ⟨parts, hparts, hthere⟩ := gives_unhash2_commitment hs hv
    refine hparts.bind (off.bind (silent.bind (gives_handOn hs (fun hok => ?_) ?_)))
    · have hcommitment : v.tag = .commitment := beq_iff_eq.1 hok
      simp only [unaryResult, hcommitment, reduceCtorEq, if_false]
      exact (hthere hcommitment).2.2
    · by_cases hcommitment : v.tag = .commitment
      · simp [Store.unaryValue, accepts, unaryResult, hcommitment, (hthere hcommitment).1]
      · simp [Store.unaryValue, accepts, hcommitment]
  | secret =>
    obtain ⟨parts, hparts, hthere⟩ := gives_unhash2_commitment hs hv
    refine hparts.bind (off.bind (silent.bind (gives_handOn hs (fun hok => ?_) ?_)))
    · have hcommitment : v.tag = .commitment := beq_iff_eq.1 hok
      simp only [unaryResult, hcommitment, reduceCtorEq, if_false]
      exact (hthere hcommitment).2.1
    · by_cases hcommitment : v.tag = .commitment
      · simp [Store.unaryValue, accepts, unaryResult, hcommitment, (hthere hcommitment).1]
      · simp [Store.unaryValue, accepts, hcommitment]
  | atom =>
    refine (gives_unhash2_off v s rfl).bind (off.bind (silent.bind (gives_handOn hs (fun _ => ?_) rfl)))
    exact holds_verdict hs _
  | commit =>
    have hzero : s.Holds (.number 0) := s.holds_immediate (Pointer.immediate_canonical .number 0) rfl
    have hchildren : ∀ c ∈ [Pointer.number 0, v], s.Holds c := by simp [hv, hzero]
    have htakes := Store.takes_put .commitment hs rfl hchildren
    exact (gives_unhash2_off v s rfl).bind ((gives_hashTag hs rfl hchildren rfl).bind
      ((gives_emit_off v _ rfl).bind (gives_handOn htakes.sound (fun _ => htakes.holds) rfl)))
  | emit => exact absurd rfl hsilent

/-- The builtin that reports its operand is computed, if the operand has a written form. -/
theorem reports_unary (hs : s.Sound) (hv : s.Holds v)
    (hop : unaryOf? (s.part cont 0) = some .emit) (htag : cont.tag = .unary) :
    Reports (unary (frameView s v env cont)) s v (toStep (resume ⟨v, env, cont⟩ s).1)
      (resume ⟨v, env, cont⟩ s).2 := by
  rw [unary_eq hop]
  simp only [resume, htag, Store.applyUnary, hop]
  exact (gives_unhash2_off v s rfl).bind_reports ((gives_hashTag_off _ _ s rfl).bind_reports
    ((reports_emit v s rfl).bind (gives_handOn hs (fun _ => hv) rfl)))

theorem isSmall_eq (x : Int) : (isSmall x : ComputeM Int) = pure (bit (small x)) := by
  change (both (no (bit (Field.isNegative x))) [bit (Field.isNegative (Field.reduce
    (x - Field.reduce (Int.ofNat (1 <<< divisionBits)))))] : ComputeM Int) = _
  rw [no_bit, both_cons, both_nil]
  rfl

theorem binaryFlags_eq (p : Pointer) : (BinaryOp.all.mapM fun op => do
    let same ← pointerEq p (ptr (Form.binary op).symbol)
    pure (op, same) : ComputeM (List (BinaryOp × Int))) =
      pure (chosenFlags (binaryOf? p) BinaryOp.all) := by
  rw [Workspace.operatorFlags_eq]
  simp only [beq_binary]
  rfl

/-- Whether both operands are numbers. -/
def areNumbers (a b : Pointer) : Bool := a.tag == .number && b.tag == .number

/-- Whether an operator has a value for its operands. -/
def succeeds (op : BinaryOp) (a b : Pointer) : Bool :=
  let x := a.digest.headD 0
  let y := b.digest.headD 0
  match op with
  | .div => areNumbers a b && !(y == 0)
  | .rem => areNumbers a b && (small x && small y) && !(y == 0)
  | .same | .cons => true
  | .hide => a.tag == .number
  | _ => areNumbers a b

/-- Why an operator has no value for its operands. -/
def binaryError (op : BinaryOp) (a b : Pointer) : ErrorCode :=
  match op with
  | .div => if areNumbers a b then .divisionByZero else .argumentError
  | .rem =>
    if areNumbers a b && (small (a.digest.headD 0) && small (b.digest.headD 0)) then .divisionByZero
    else .argumentError
  | _ => .argumentError

/-- What an operator gives, from a pair of its operands and a commitment to them. -/
def binaryResult (op : BinaryOp) (a b pair commitment : Pointer) : Pointer :=
  let x := a.digest.headD 0
  let y := b.digest.headD 0
  match op with
  | .add => ⟨.number, [ElementModel.add x y, 0, 0, 0]⟩
  | .sub => ⟨.number, [ElementModel.sub x y, 0, 0, 0]⟩
  | .mul => ⟨.number, [Field.reduce (x * y), 0, 0, 0]⟩
  | .div => ⟨.number, [if y = 0 then 0 else Field.reduce (x * Field.invert y), 0, 0, 0]⟩
  | .rem => ⟨.number, [if succeeds .rem a b then x.fmod y else 0, 0, 0, 0]⟩
  | .equal => verdict (Field.reduce (x - y) == 0)
  | .less => verdict (Field.toSigned x < Field.toSigned y)
  | .greater => verdict (Field.toSigned y < Field.toSigned x)
  | .atMost => verdict (!(Field.toSigned y < Field.toSigned x))
  | .atLeast => verdict (!(Field.toSigned x < Field.toSigned y))
  | .same => verdict (a == b)
  | .cons => pair
  | .hide => commitment

/-- The error of a rule is one of two. -/
theorem failWith_select (env : Pointer) (b : Bool) (code other : ErrorCode) :
    (Step.failWith env (if b = true then lit code.value else lit other.value) : ComputeM _) =
      pure (toStep (.fail env (if b then code else other))) := by
  cases b <;> exact failWith_eq env _

theorem and_not_self_and (b d : Bool) : ((!b) && (b && !d)) = false := by cases b <;> rfl

/-- The rule for one operator of two operands. -/
theorem binary2_eq {op : BinaryOp} {a : Pointer} (hop : binaryOf? (s.part cont 0) = some op)
    (ha : s.part cont 1 = a) (hcanonical : a.Canonical) (hv : v.Canonical) :
    (binary2 (frameView s v env cont) : ComputeM _) = (do
      let pair ← hashTag .cons [a, v] (some (bit (decide (op = .cons))))
      let commitment ← hashTag .commitment [a, v] (some (bit (decide (op = .hide) && a.tag == .number)))
      let thunk ← hashTag .thunk [binaryResult op a v pair commitment, .nil] (some (bit (succeeds op a v)))
      pure (if succeeds op a v then ⟨thunk, env, s.part cont 3, bit false⟩
        else toStep (.fail env (binaryError op a v)))) := by
  have hflag (k : BinaryOp) : flag (chosenFlags (some op) BinaryOp.all) k = bit (decide (op = k)) := by
    rw [flag_chosen _ (by cases k <;> decide)]
    simp
  have hknown : oneOf ((chosenFlags (some op) BinaryOp.all).map (·.2)) = bit true := by
    rw [oneOf_chosenFlags _ (by decide) (by decide)]
    cases op <;> rfl
  have hdivides : ((decide (op = .rem) && (a.tag == .number && v.tag == .number)) &&
      (small (a.digest.headD 0) && small (v.digest.headD 0)) && !(v.digest.headD 0 == 0)) = true →
        v.digest.headD 0 ≠ 0 := by
    simp
  unfold binary2
  simp only [frameView, binaryFlags_eq, hop, ha, pure_bind]
  simp only [hflag, hknown, tagIs_eq, pure_bind, ptr_eq, returning, no_bit, both_cons, both_nil,
    payload_of_canonical hcanonical, payload_of_canonical hv, div_eq hv.payload, isSmall_eq, Workspace.mul_eq, equal_eq,
    pointerEq_eq, divRem_bit hdivides]
  generalize haNumber : (a.tag == .number) = aNumber
  generalize hnumbers : (aNumber && v.tag == .number) = numbers
  generalize hsmall : (small (a.digest.headD 0) && small (v.digest.headD 0)) = areSmall
  cases op <;>
    simp only [reduceCtorEq, decide_false, decide_true, Bool.false_and, Bool.true_and, both_cons,
      both_nil, pure_bind, select_bit, if_true, if_false, Bool.false_eq_true, exclusive_bit,
      List.map_cons, List.map_nil, hflag, oneOf, List.foldl_cons, List.foldl_nil, add_bit,
      Bool.or_false, Bool.false_or, Bool.and_false, Bool.and_true, selectPointer_bit, no_bit, less_eq,
      number_eq, truth_bit, failWith_eq, choose_bit, Bool.not_not, Bool.bne_false, Bool.bne_true,
      add_bit (and_not_self_and numbers areSmall),
      failWith_select, binaryResult, succeeds,
      binaryError, areNumbers, haNumber, hnumbers, hsmall, lit_zero, bind_assoc]
  all_goals
    generalize (v.digest.headD 0 == 0) = yZero
    cases numbers <;> cases areSmall <;> cases yZero <;> cases aNumber <;> rfl

/-- Without an operator nothing is computed. -/
theorem gives_binary2_unknown (hop : binaryOf? (s.part cont 0) = none)
    (hcanonical : (s.part cont 1).Canonical) (hv : v.Canonical) :
    Gives (binary2 (frameView s v env cont) : ComputeM _) s
      (toStep (.fail env .invalidContinuation)) s := by
  have hflag (k : BinaryOp) : flag (chosenFlags none BinaryOp.all) k = bit false :=
    flag_chosen _ (by cases k <;> decide)
  have hknown : oneOf ((chosenFlags (none : Option BinaryOp) BinaryOp.all).map (·.2)) = bit false :=
    oneOf_chosenFlags _ (by decide) (by decide)
  have hoff (x y : Int) : (StepModel.divRem x y (some (bit false)) : ComputeM _) = pure (0, 0) :=
    divRem_bit fun h => by cases h
  unfold binary2
  simp only [frameView, binaryFlags_eq, hop, pure_bind]
  simp only [hflag, hknown, tagIs_eq, pure_bind, ptr_eq, returning, no_bit, both_cons, both_nil,
    payload_of_canonical hcanonical, payload_of_canonical hv, div_eq hv.payload, isSmall_eq, Workspace.mul_eq, equal_eq,
    pointerEq_eq, Bool.false_and, hoff, select_bit, if_false, Bool.false_eq_true]
  simp only [List.map_cons, List.map_nil, hflag, oneOf, List.foldl_cons, List.foldl_nil, add_bit,
    Bool.false_and, Bool.or_self, select_bit, selectPointer_bit, exclusive_bit, less_eq, number_eq,
    truth_bit, no_bit, both_cons, both_nil, failWith_eq, choose_bit, if_false, Bool.false_eq_true,
    pure_bind, bind_assoc]
  exact (gives_hashTag_off _ _ s rfl).bind ((gives_hashTag_off _ _ s rfl).bind
    ((gives_hashTag_off _ _ s rfl).bind (gives_pure _ s)))

theorem canonical_fmod {x y : Int} (hy : Field.Canonical y) (hne : y ≠ 0) :
    Field.Canonical (x.fmod y) := by
  have hpositive : 0 < y := lt_of_le_of_ne hy.1 (Ne.symm hne)
  exact ⟨Int.fmod_nonneg_of_pos x hpositive, (Int.fmod_lt_of_pos x hpositive).trans hy.2⟩

/-- The value of an operator that computes with numbers. -/
theorem numberValue_eq {op : BinaryOp} {a : Pointer} {result : Except ErrorCode Pointer}
    (ha : a.Canonical) (hv : v.Canonical) (p q : Pointer)
    (h : numberValue? op (a.digest.headD 0) (v.digest.headD 0) = some result) :
    (if a.tag = .number ∧ v.tag = .number then result else .error .argumentError) =
      if succeeds op a v then .ok (binaryResult op a v p q) else .error (binaryError op a v) := by
  have hx := ha.payload
  have hy := hv.payload
  have hnumbers : (a.tag = .number ∧ v.tag = .number) ↔ areNumbers a v = true := by
    simp [areNumbers]
  generalize hareNumbers : areNumbers a v = numbers at hnumbers
  simp only [hnumbers]
  cases op with
  | rem =>
    cases h
    simp only [succeeds, binaryResult, binaryError, hareNumbers]
    generalize a.digest.headD 0 = x
    generalize v.digest.headD 0 = y at hy ⊢
    by_cases hzero : y = 0
    · cases numbers <;> cases small x && small y <;> simp [hzero]
    · have hnumber : Pointer.number (x.fmod y) = ⟨.number, [x.fmod y, 0, 0, 0]⟩ := by
        rw [Pointer.number, Pointer.immediate, Field.reduce_eq_self (canonical_fmod hy hzero)]
        rfl
      cases numbers <;> cases small x && small y <;> simp [hzero, hnumber]
  | div =>
    cases h
    simp only [succeeds, binaryResult, binaryError, hareNumbers]
    generalize a.digest.headD 0 = x
    generalize v.digest.headD 0 = y
    have hnumber : Pointer.number (x * Field.invert y) =
        ⟨.number, [Field.reduce (x * Field.invert y), 0, 0, 0]⟩ := rfl
    by_cases hzero : y = 0 <;> cases numbers <;> simp [hzero, hnumber]
  | equal =>
    cases h
    have hsame : (Field.reduce (a.digest.headD 0 - v.digest.headD 0) == 0) =
        (a.digest.headD 0 == v.digest.headD 0) := by
      rw [Bool.eq_iff_iff, beq_iff_eq, beq_iff_eq, ← Field.cast_eq_zero (Field.reduce_canonical _),
        Field.cast_reduce, Int.cast_sub, sub_eq_zero, Field.cast_inj hx hy]
    simp only [succeeds, binaryResult, binaryError, hareNumbers, hsame]
  | same => cases h
  | cons => cases h
  | hide => cases h
  | add | sub | mul =>
    cases h
    simp only [succeeds, binaryResult, binaryError, hareNumbers]
    rfl
  | less | greater | atMost | atLeast =>
    cases h
    simp only [succeeds, binaryResult, binaryError, hareNumbers]

theorem holds_number (s : Store) {x : Int} (hx : Field.Canonical x) : s.Holds ⟨.number, [x, 0, 0, 0]⟩ := by
  rw [← Field.reduce_eq_self hx]
  exact s.holds_immediate (Pointer.immediate_canonical .number x) rfl

/-- What an operator computes from numbers is held. -/
theorem holds_binaryResult (hs : s.Sound) {op : BinaryOp} {a : Pointer} (ha : a.Canonical)
    (hv : v.Canonical) {p q : Pointer} (hp : op = .cons → s.Holds p) (hq : op = .hide → s.Holds q) :
    s.Holds (binaryResult op a v p q) := by
  have hx := ha.payload
  have hy := hv.payload
  cases op with
  | cons => exact hp rfl
  | hide => exact hq rfl
  | add | sub | mul => exact holds_number s (Field.reduce_canonical _)
  | div =>
    refine holds_number s ?_
    split
    · exact Field.canonical_zero
    · exact Field.reduce_canonical _
  | rem =>
    refine holds_number s ?_
    split
    · rename_i hsucceeds
      simp only [succeeds, Bool.and_eq_true, Bool.not_eq_true', beq_eq_false_iff_ne, ne_eq] at hsucceeds
      exact canonical_fmod hy hsucceeds.2
    · exact Field.canonical_zero
  | _ => exact holds_verdict hs _

/-- A builtin of two operands is computed. -/
theorem gives_binary2 (hs : s.Sound) (hv : s.Holds v) (hcont : s.Holds cont) {op : BinaryOp}
    (hop : binaryOf? (s.part cont 0) = some op) (htag : cont.tag = .binary2) :
    Computes s v env cont (binary2 (frameView s v env cont)) := by
  have ha := hs.holds_part (by rw [htag]; rfl) hcont 1
  unfold Computes
  rw [binary2_eq hop rfl ha.canonical hv.canonical]
  simp only [resume, htag, Store.applyBinary, hop]
  generalize s.part cont 1 = a at ha ⊢
  have hchildren : ∀ c ∈ [a, v], s.Holds c := by simp [ha, hv]
  have noPair : Gives (hashTag .cons [a, v] (some (bit false))) s .nil s :=
    gives_hashTag_off _ _ s rfl
  have noCommitment : Gives (hashTag .commitment [a, v] (some (bit false))) s .nil s :=
    gives_hashTag_off _ _ s rfl
  cases hnumeric : numberValue? op (a.digest.headD 0) (v.digest.headD 0) with
  | some result =>
    have hvalue := numberValue_eq ha.canonical hv.canonical .nil .nil hnumeric
    have hcons : op ≠ .cons := by
      rintro rfl
      cases hnumeric
    have hhide : op ≠ .hide := by
      rintro rfl
      cases hnumeric
    simp only [Store.binaryValue, hnumeric, hcons, hhide, decide_false, Bool.false_and]
    refine noPair.bind (noCommitment.bind (gives_handOn hs (fun _ => ?_) (by rw [hvalue])))
    exact holds_binaryResult hs ha.canonical hv.canonical (fun h => absurd h hcons)
      fun h => absurd h hhide
  | none =>
    cases op with
    | same => exact noPair.bind (noCommitment.bind (gives_handOn hs (fun _ => holds_verdict hs _) rfl))
    | cons =>
      have htakes := Store.takes_put .cons hs rfl hchildren
      exact (gives_hashTag hs rfl hchildren rfl).bind ((gives_hashTag_off _ _ _ rfl).bind
        (gives_handOn htakes.sound (fun _ => htakes.holds) rfl))
    | hide =>
      by_cases hnumber : a.tag = .number
      · have htakes := Store.takes_put .commitment hs rfl hchildren
        simp only [Store.binaryValue, hnumeric, hnumber, succeeds, decide_true, beq_self_eq_true,
          Bool.and_self, if_true]
        exact noPair.bind ((gives_hashTag hs rfl hchildren rfl).bind
          (gives_handOn (c := .argumentError) htakes.sound (fun _ => htakes.holds) rfl))
      · simp only [Store.binaryValue, hnumeric, hnumber, succeeds, beq_eq_false_iff_ne.2 hnumber,
          Bool.and_false, if_false]
        exact noPair.bind (noCommitment.bind (gives_handOn hs (fun h => by cases h) rfl))
    | _ => cases hnumeric

/-! ## The phase -/

theorem view_of_frame (h : Tag.frames.contains cont.tag = true) :
    view s ⟨⟨v, env, cont⟩, true⟩ = frameView s v env cont := by
  simp only [view, frameView, h, Bool.true_and, if_true]

/-- The rule whose guard holds computes what the phase makes of the state, if it reports nothing. -/
theorem gives_run (hs : s.Sound) (hexpr : s.Holds o.state.expr) (hcont : s.Holds o.state.cont)
    (hsilent : reported o s = none) :
    Gives (run (firing o.returned o.state.cont) (view s o) : ComputeM _) s (toStep (reduct o s).1)
      (reduct o s).2 := by
  obtain ⟨⟨v, env, cont⟩, returned⟩ := o
  cases returned with
  | false => exact gives_pure _ s
  | true =>
    change Gives (run (tagRule cont.tag) (view s ⟨⟨v, env, cont⟩, true⟩) : ComputeM _) s
      (toStep (resume ⟨v, env, cont⟩ s).1) (resume ⟨v, env, cont⟩ s).2
    cases htag : cont.tag with
    | call0 =>
      rw [view_of_frame (by rw [htag]; rfl)]
      exact gives_call0 hs hexpr htag
    | call =>
      rw [view_of_frame (by rw [htag]; rfl)]
      exact gives_call hs hexpr hcont htag
    | call2 =>
      rw [view_of_frame (by rw [htag]; rfl)]
      exact gives_call2 hs hexpr hcont htag
    | bindLet =>
      rw [view_of_frame (by rw [htag]; rfl)]
      exact gives_binding hs hexpr hcont false htag
    | bindRec =>
      rw [view_of_frame (by rw [htag]; rfl)]
      exact gives_binding hs hexpr hcont true htag
    | branch =>
      rw [view_of_frame (by rw [htag]; rfl)]
      exact gives_branch htag
    | unary =>
      rw [view_of_frame (by rw [htag]; rfl)]
      cases hop : unaryOf? (s.part cont 0) with
      | none =>
        simp only [resume, htag, Store.applyUnary, hop]
        exact gives_unary_unknown hop
      | some op =>
        refine gives_unary hs hexpr hop ?_ htag
        rintro rfl
        simp [reported, htag, hop] at hsilent
    | binary =>
      rw [view_of_frame (by rw [htag]; rfl)]
      exact gives_binary hs hexpr hcont htag
    | binary2 =>
      rw [view_of_frame (by rw [htag]; rfl)]
      cases hop : binaryOf? (s.part cont 0) with
      | none =>
        simp only [resume, htag, Store.applyBinary, hop]
        exact gives_binary2_unknown hop (hs.holds_part (by rw [htag]; rfl) hcont 1).canonical
          hexpr.canonical
      | some op => exact gives_binary2 hs hexpr hcont hop htag
    | _ =>
      simp only [resume, htag]
      exact gives_pure _ s

/-- The rule that reports a value computes what the phase makes of the state. -/
theorem reports_run (hs : s.Sound) (hexpr : s.Holds o.state.expr)
    (hreported : reported o s = some v) :
    Reports (run (firing o.returned o.state.cont) (view s o) : ComputeM _) s v (toStep (reduct o s).1)
      (reduct o s).2 := by
  obtain ⟨⟨value, env, cont⟩, returned⟩ := o
  unfold reported at hreported
  split at hreported
  · rename_i h
    obtain ⟨rfl, htag, hop⟩ := h
    cases hreported
    change Reports (run (tagRule cont.tag) (view s ⟨⟨value, env, cont⟩, true⟩) : ComputeM _) s value
      (toStep (resume ⟨value, env, cont⟩ s).1) (resume ⟨value, env, cont⟩ s).2
    rw [view_of_frame (by rw [htag]; rfl), htag]
    exact reports_unary hs hexpr hop htag
  · cases hreported

end FieldLisp.ContPhase
