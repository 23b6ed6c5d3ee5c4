import FieldLisp.Machine.EvalRules
import FieldLisp.Proofs.Machine.Slots

/-!
# Reading a state

What the evaluation phase reads off a state before any of its rules runs. Each child that is there
is reliable, and every flag is sure: a flag of a child that is not there is masked by the flag that
says so.

* `EvalPhase.Scope.Read`: what the rules of the phase see is right;
* `EvalPhase.yields_prelude`: reading a state is not stuck;
* `EvalPhase.firing`, `EvalPhase.guards_eq`: the guard of exactly one rule holds.
-/

namespace FieldLisp

open StepModel MarkM

namespace MarkM

/-- A child that is there under a condition, and nil otherwise. -/
structure Part (honest : Bool) (s : Store) (present : Bool) (p : MarkedPointer) : Prop where
  reliable : present = true → Reliable s p
  absent : present = false → p.value = .nil
  honest : honest = true → p.sure = true

namespace Part
variable {honest : Bool} {s : Store} {present : Bool} {p : MarkedPointer}

theorem sure (h : Part honest s present p) (hpresent : present = true) : p.sure = true :=
  (h.reliable hpresent).sure

/-- What is not there is no pair. -/
theorem and_isCons (h : Part honest s present p) :
    (present && p.value.tag == .cons) = (p.value.tag == .cons) := by
  cases hpresent : present with
  | true => rfl
  | false =>
    rw [h.absent hpresent]
    rfl

theorem isThere (h : Part honest s present p) {tag : Tag} (htag : p.value.tag = tag)
    (hne : tag ≠ .nil) : present = true := by
  refine Bool.eq_true_of_not_eq_false fun habsent => hne ?_
  rw [← htag, h.absent habsent]
  rfl

theorem reliable_of_tag (h : Part honest s present p) {tag : Tag} (htag : p.value.tag = tag)
    (hne : tag ≠ .nil) : Reliable s p := h.reliable (h.isThere htag hne)

theorem of_reliable (h : Reliable s p) : Part honest s true p :=
  ⟨fun _ => h, nofun, fun _ => h.sure⟩

/-- A test is masked by the flag that says whether the pointer is there. -/
theorem masked (h : Part honest s present p) (b : Bool) (hpresent : present = true) :
    (p.sure || b) = true := by
  rw [h.sure hpresent, Bool.true_or]

end Part

theorem Opened.part {c : Setting} (hcomputes : c.Computes) {s : Store} {enabled : Bool}
    {key : SlotKey} {i : ℕ} {p : MarkedPointer} (h : Opened c s enabled key i p) :
    Part c.honest s enabled p where
  reliable := h.reliable
  absent hoff := by
    rw [h.eq hoff, hcomputes.fill]
    change (List.replicate _ _).getD _ _ = _
    rw [List.getD_eq_getElem?_getD, List.getElem?_replicate]
    split <;> rfl
  honest := h.sure_of_honest

/-- Taking a part apart that is a pair, or none. -/
theorem yields_unhash2_part {c : Setting} (hcomputes : c.Computes) (hproper : c.Proper)
    {W : MarkWorld} (hsound : W.store.Sound) {present : Bool} {p : MarkedPointer}
    (hp : Part c.honest W.store present p)
    {post : MarkedPointer × MarkedPointer → MarkWorld → Prop}
    (hpost : ∀ a b W', Reads W 2 W' →
      (p.value.tag = .cons → W.store.nodes[p.value]? = some [a.value, b.value]) →
      Part c.honest W.store (p.value.tag == .cons) a →
      Part c.honest W.store (p.value.tag == .cons) b → post (a, b) W') :
    (unhash2 p (some (.bit true (p.value.tag == .cons))) : MarkM c _).Yields W post := by
  refine yields_unhash2 hproper hsound (admits_bit (fun _ _ => rfl) fun _ => rfl) (fun hon => ?_)
    fun a b W' hW' hnode ha hb => ?_
  · rw [on_bit, hcomputes.gate, Bool.true_and, beq_iff_eq] at hon
    exact ⟨hp.reliable_of_tag hon nofun, by rw [hon]; rfl⟩
  · rw [on_bit, hcomputes.gate, Bool.true_and] at hnode ha hb
    exact hpost a b W' hW' (fun h => hnode (beq_iff_eq.2 h)) (ha.part hcomputes)
      (hb.part hcomputes)

end MarkM

theorem Tag.contains_halts (tag : Tag) : Tag.halts.contains tag = tag.isHalted := by
  cases tag <;> rfl

namespace EvalPhase

/-- What the rules of the phase see of a state is right, and all flags are sure. -/
structure Scope.Read (honest : Bool) (store : Store) (s : Scope (Marked Int) MarkedPointer) :
    Prop where
  expr : Reliable store s.expr
  env : Reliable store s.env
  cont : Reliable store s.cont
  halted : s.halted = .bit true (Tag.halts.contains s.cont.value.tag)
  isCons : s.isCons = .bit true (s.expr.value.tag == .cons)
  head : Part honest store (s.expr.value.tag == .cons) s.head
  arguments : Part honest store (s.expr.value.tag == .cons) s.arguments
  a1 : Part honest store (s.arguments.value.tag == .cons) s.a1
  tail1 : Part honest store (s.arguments.value.tag == .cons) s.tail1
  a2 : Part honest store (s.tail1.value.tag == .cons) s.a2
  tail2 : Part honest store (s.tail1.value.tag == .cons) s.tail2
  a3 : Part honest store (s.tail2.value.tag == .cons) s.a3
  tail3 : Part honest store (s.tail2.value.tag == .cons) s.tail3
  noArgument : s.noArgument =
    .bit true (s.expr.value.tag == .cons && s.arguments.value.tag == .nil)
  oneArgument : s.oneArgument =
    .bit true (s.arguments.value.tag == .cons && s.tail1.value.tag == .nil)
  twoArguments : s.twoArguments =
    .bit true (s.tail1.value.tag == .cons && s.tail2.value.tag == .nil)
  threeArguments : s.threeArguments =
    .bit true (s.tail2.value.tag == .cons && s.tail3.value.tag == .nil)
  headIs : s.headIs =
    Form.all.map fun form => (form, .bit s.head.sure (s.head.value == form.symbol))
  exprNode : s.expr.value.tag = .cons →
    store.nodes[s.expr.value]? = some [s.head.value, s.arguments.value]
  argumentsNode : s.arguments.value.tag = .cons →
    store.nodes[s.arguments.value]? = some [s.a1.value, s.tail1.value]

variable {c : Setting}

theorem yields_prelude (hcomputes : c.Computes) (hproper : c.Proper) {W : MarkWorld}
    (hsound : W.store.Sound) {expr env cont : MarkedPointer} (hexpr : Reliable W.store expr)
    (henv : Reliable W.store env) (hcont : Reliable W.store cont) :
    (prelude expr env cont : MarkM c _).Yields W fun s W' =>
      W'.store = W.store ∧ W'.cursor.used 2 = W.cursor.used 2 + 4 ∧ s.expr = expr ∧ s.env = env ∧
        s.cont = cont ∧ s.Read c.honest W.store := by
  unfold prelude
  rw [tagIn_eq (by decide) (by decide) (by decide) (.inl hcont.sure), pure_bind, tagIs_eq, pure_bind,
    hcont.sure, hexpr.sure, Bool.true_or, yields_bind]
  refine yields_unhash2_part hcomputes hproper hsound (.of_reliable hexpr) ?_
  intro head arguments W₁ hW₁ hexprNode hhead harguments
  dsimp only
  rw [tagIs_eq, pure_bind, both_masked (harguments.masked _), both_nil, pure_bind,
    harguments.and_isCons, yields_bind]
  rw [← hW₁.store] at hsound hexpr henv hcont hexprNode hhead harguments ⊢
  refine yields_unhash2_part hcomputes hproper hsound harguments ?_
  intro a1 tail1 W₂ hW₂ hargumentsNode ha1 htail1
  dsimp only
  rw [tagIs_eq, pure_bind, both_masked (htail1.masked _), both_nil, pure_bind,
    htail1.and_isCons, yields_bind]
  rw [← hW₂.store] at hsound hexpr henv hcont hexprNode hhead harguments hargumentsNode ha1 htail1 ⊢
  refine yields_unhash2_part hcomputes hproper hsound htail1 ?_
  intro a2 tail2 W₃ hW₃ _ ha2 htail2
  dsimp only
  rw [tagIs_eq, pure_bind, both_masked (htail2.masked _), both_nil, pure_bind,
    htail2.and_isCons, yields_bind]
  rw [← hW₃.store] at hexprNode hargumentsNode
  rw [← hW₃.store] at hsound hexpr henv hcont hhead harguments ha1 htail1 ha2 htail2 ⊢
  refine yields_unhash2_part hcomputes hproper hsound htail2 ?_
  intro a3 tail3 W₄ hW₄ _ ha3 htail3
  dsimp only
  rw [tagIs_eq, pure_bind, both_masked (harguments.masked _), both_nil, pure_bind,
    tagIs_eq, pure_bind, both_masked (htail1.masked _), both_nil, pure_bind,
    tagIs_eq, pure_bind, both_masked (htail2.masked _), both_nil, pure_bind,
    tagIs_eq, pure_bind, both_masked (htail3.masked _), both_nil, pure_bind,
    pointerFlags_eq, pure_bind, yields_pure]
  refine ⟨hW₄.store, ?_, rfl, rfl, rfl, hexpr, henv, hcont, rfl, rfl, hhead, harguments, ha1, htail1, ha2, htail2,
    ha3, htail3, rfl, rfl, rfl, rfl, rfl, hexprNode, hargumentsNode⟩
  simp [hW₄.cursor, hW₃.cursor, hW₂.cursor, hW₁.cursor, SlotCursor.next]

/-! ## Guards -/

/-- The rule for a pair with this head. -/
def formRule : Option Form → EvalRule
  | some .quote => .quote
  | some .lambda => .lambda
  | some .cond => .cond
  | some .bindLet => .bindLet
  | some .bindRec => .bindRec
  | some (.unary _) => .unary
  | some (.binary _) => .binary
  | none => .apply

/-- The rule that the evaluation phase follows, from the expression, the head of a pair and the
continuation. -/
def firing (expr head cont : Pointer) : EvalRule :=
  if Tag.halts.contains cont.tag then .terminal
  else if expr.tag = .cons then formRule (formOf? head)
  else if valueTags.contains expr.tag || expr == Builtin.truthPointer then .selfEvaluating
  else if expr.tag = .thunk then .thunk
  else if expr.tag = .symbol then .lookup
  else .invalidExpr

/-- The guard of one rule holds, and no other. -/
theorem guards_eq {s : Scope (Marked Int) MarkedPointer} {store : Store}
    (h : s.Read c.honest store) : (guards s : MarkM c _) = pure (EvalRule.all.map fun rule =>
      (rule, .bit true (rule == firing s.expr.value s.head.value s.cont.value))) := by
  have hflag (form : Form) : flag s.headIs form =
      .bit s.head.sure (s.head.value == form.symbol) := by rw [h.headIs, flag_map form.mem_all]
  have hspecial : oneOf (s.headIs.map (·.2)) =
      .bit s.head.sure (Form.all.any (formOf? s.head.value == some ·)) := by
    rw [h.headIs, List.map_map]
    exact oneOf_forms (by decide) (by decide)
  have hunary : oneOf (UnaryOp.all.map fun op => flag s.headIs (Form.unary op)) =
      .bit s.head.sure ((UnaryOp.all.map Form.unary).any (formOf? s.head.value == some ·)) := by
    simp only [hflag]
    exact oneOf_forms (by decide : UnaryOp.all.map Form.unary ≠ []) (by decide)
  have hbinary : oneOf (BinaryOp.all.map fun op => flag s.headIs (Form.binary op)) =
      .bit s.head.sure ((BinaryOp.all.map Form.binary).any (formOf? s.head.value == some ·)) := by
    simp only [hflag]
    exact oneOf_forms (by decide : BinaryOp.all.map Form.binary ≠ []) (by decide)
  -- What is asked of the head is masked unless the expression is a pair.
  have hmasked (halted v : Bool) :
      (both (.bit true (!halted && s.expr.value.tag == .cons)) [.bit s.head.sure v] : MarkM c _) =
        pure (.bit true (!halted && s.expr.value.tag == .cons && v)) := by
    rw [both_masked fun hform => h.head.sure (Bool.and_eq_true_iff.1 hform).2, both_nil]
  have htruth : (valueTags.contains s.expr.value.tag && s.expr.value == Builtin.truthPointer) =
      false := by
    refine Bool.eq_false_iff.2 fun hboth => ?_
    rw [Bool.and_eq_true, beq_iff_eq] at hboth
    rw [hboth.2] at hboth
    cases hboth.1
  unfold guards
  simp only [hspecial, hunary, hbinary]
  simp only [ptr_eq, pointerEq_eq, pure_bind, h.halted, h.isCons, no_bit, both_cons true true, both_nil,
    hflag, hmasked, tagIs_eq, h.expr.sure, Bool.true_or, MarkedPointer.certain, Bool.and_true,
    tagIn_eq (by decide : valueTags ≠ []) (by decide) (by decide) (.inl h.expr.sure),
    tagIn_eq (by decide : expressionTags ≠ []) (by decide) (by decide) (.inl h.expr.sure),
    oneOf_pair htruth]
  congr 1
  have htag : (s.expr.value == Builtin.truthPointer) = true → s.expr.value.tag = .symbol :=
    fun h => by rw [beq_iff_eq.1 h]; rfl
  simp only [beq_symbol, firing, EvalRule.all, List.map_cons, List.map_nil]
  generalize Tag.halts.contains s.cont.value.tag = halted
  generalize (s.expr.value == Builtin.truthPointer) = isTruth at htag
  generalize s.expr.value.tag = tag at htag
  generalize formOf? s.head.value = form
  cases halted with
  | true => rfl
  | false =>
    cases isTruth with
    | true =>
      rw [htag rfl]
      rfl
    | false =>
      cases tag
      case cons =>
        cases form with
        | none => rfl
        | some form =>
          cases form with
          | unary op => cases op <;> rfl
          | binary op => cases op <;> rfl
          | _ => rfl
      all_goals rfl

end EvalPhase

end FieldLisp
