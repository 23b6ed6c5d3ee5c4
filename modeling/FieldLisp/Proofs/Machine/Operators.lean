import FieldLisp.Proofs.Machine.Emitting

/-!
# Builtins of two operands

The rule for builtins of two operands computes the candidates of all of them and chooses one by flags. Here it is
compared with a reference semantics that has a case for each result:

* `Field.Signed`, `Field.signed_iff`: the signed integer that stands for an element;
* `NumberResult`, `numberResult_iff`: what builtins that compute with numbers give;
* `BinaryResult`: what an operator gives for any operands;
* `BinaryResult.eq`, `binaryResult_of_applyBinary`: there is always one result, the one that is computed;
* `Machine.step_of_phases`: a step of which both phases are known;
* `Machine.operator_result`: the rule gives this result, and hands it on in a thunk.
-/

namespace FieldLisp

/-! ## Numbers -/

namespace Field

/-- An integer that stands for an element, between the negative and the positive half of the order. -/
structure Signed (x z : ℤ) : Prop where
  congruent : z ≡ x [ZMOD order]
  above : -order < 2 * z
  below : 2 * z ≤ order

/-- There is one, and it is the one by which numbers are compared. -/
theorem signed_iff {x z : ℤ} (hx : Canonical x) : Signed x z ↔ z = toSigned x := by
  obtain ⟨hnonneg, hlt⟩ := hx
  have hnegative : isNegative x = decide (half < x) := rfl
  unfold toSigned
  rw [hnegative]
  constructor
  · rintro ⟨hcongruent, habove, hbelow⟩
    obtain ⟨k, hk⟩ := hcongruent.dvd
    by_cases hhalf : half < x
    · rw [if_pos (decide_eq_true hhalf)]
      unfold order half at *
      omega
    · rw [if_neg (by simpa using hhalf)]
      unfold order half at *
      omega
  · rintro rfl
    by_cases hhalf : half < x
    · rw [if_pos (decide_eq_true hhalf)]
      refine ⟨(Int.modEq_iff_dvd.2 ⟨1, by ring⟩), ?_, ?_⟩
      · unfold order half at *
        omega
      · unfold order half at *
        omega
    · rw [if_neg (by simpa using hhalf)]
      refine ⟨rfl, ?_, ?_⟩
      · unfold order half at *
        omega
      · unfold order half at *
        omega

/-- There is one quotient of two elements, unless the second one is zero. -/
theorem quotient_iff {x y q : ℤ} (hy : Canonical y) (hne : y ≠ 0) :
    (Canonical q ∧ q * y ≡ x [ZMOD order]) ↔ q = reduce (x * invert y) := by
  have hcast : (y : Element) ≠ 0 := fun h => hne ((cast_eq_zero hy).1 h)
  have hmul : q * y ≡ x [ZMOD order] ↔ ((q : Element)) = x * (y : Element)⁻¹ := by
    rw [eq_mul_inv_iff_mul_eq₀ hcast, ← Int.cast_mul, cast_eq_iff]
    rfl
  rw [hmul, ← cast_invert, ← Int.cast_mul]
  constructor
  · rintro ⟨hq, h⟩
    exact (reduce_eq_of_cast hq h.symm).symm
  · rintro rfl
    exact ⟨reduce_canonical _, cast_reduce _⟩

end Field

theorem Pointer.number_reduce (n : ℤ) : Pointer.number (Field.reduce n) = .number n := by
  rw [number, number, immediate, immediate, Field.reduce_reduce]

/-- What a builtin gives for two numbers, if it is one that computes with numbers. -/
inductive NumberResult (x y : ℤ) : BinaryOp → Except ErrorCode Pointer → Prop
  | sum : NumberResult x y .add (.ok (.number (x + y)))
  | difference : NumberResult x y .sub (.ok (.number (x - y)))
  | product : NumberResult x y .mul (.ok (.number (x * y)))
  | quotient {q : ℤ} (hy : y ≠ 0) (hq : Field.Canonical q) (hmul : q * y ≡ x [ZMOD Field.order]) :
      NumberResult x y .div (.ok (.number q))
  | quotientByZero (hy : y = 0) : NumberResult x y .div (.error .divisionByZero)
  | remainder (hx : x < 2 ^ 32) (hy : y < 2 ^ 32) (hne : y ≠ 0) : NumberResult x y .rem (.ok (.number (x % y)))
  | remainderByZero (hx : x < 2 ^ 32) (hy : y = 0) : NumberResult x y .rem (.error .divisionByZero)
  | large (hlarge : ¬(x < 2 ^ 32 ∧ y < 2 ^ 32)) : NumberResult x y .rem (.error .argumentError)
  | equal : NumberResult x y .equal (.ok (verdict (x = y)))
  | less {z u : ℤ} (hz : Field.Signed x z) (hu : Field.Signed y u) : NumberResult x y .less (.ok (verdict (z < u)))
  | greater {z u : ℤ} (hz : Field.Signed x z) (hu : Field.Signed y u) :
      NumberResult x y .greater (.ok (verdict (z > u)))
  | atMost {z u : ℤ} (hz : Field.Signed x z) (hu : Field.Signed y u) : NumberResult x y .atMost (.ok (verdict (z ≤ u)))
  | atLeast {z u : ℤ} (hz : Field.Signed x z) (hu : Field.Signed y u) :
      NumberResult x y .atLeast (.ok (verdict (z ≥ u)))

/-- The builtins that compute with numbers. -/
def BinaryOp.numeric : List BinaryOp := [.add, .sub, .mul, .div, .rem, .equal, .less, .greater, .atMost, .atLeast]

theorem numberValue?_eq_none {op : BinaryOp} {x y : ℤ} : numberValue? op x y = none ↔ op ∉ BinaryOp.numeric := by
  cases op <;> simp [numberValue?, BinaryOp.numeric]

/-- The result is the one that is computed. -/
theorem numberResult_iff {x y : ℤ} {op : BinaryOp} {r : Except ErrorCode Pointer} (hx : Field.Canonical x)
    (hy : Field.Canonical y) : NumberResult x y op r ↔ numberValue? op x y = some r := by
  have hsmall : (ContPhase.small x && ContPhase.small y) = true ↔ x < 2 ^ 32 ∧ y < 2 ^ 32 := by
    rw [Bool.and_eq_true, ContPhase.small_iff hx, ContPhase.small_iff hy]
    rfl
  have hsigned {a z : ℤ} (ha : Field.Canonical a) (h : Field.Signed a z) : z = Field.toSigned a :=
    (Field.signed_iff ha).1 h
  constructor
  · intro h
    cases h with
    | sum | difference | product => rfl
    | quotient hne hq hmul =>
      rw [(Field.quotient_iff hy hne).1 ⟨hq, hmul⟩, numberValue?, if_neg hne, Pointer.number_reduce]
    | quotientByZero hzero => rw [numberValue?, if_pos hzero]
    | remainder hx' hy' hne =>
      rw [numberValue?, if_pos (hsmall.2 ⟨hx', hy'⟩), if_neg hne, Int.fmod_eq_emod_of_nonneg _ hy.1]
    | remainderByZero hx' hzero =>
      rw [numberValue?, if_pos (hsmall.2 ⟨hx', by omega⟩), if_pos hzero]
    | large hlarge => rw [numberValue?, if_neg fun h => hlarge (hsmall.1 h)]
    | equal => rfl
    | less hz hu | greater hz hu =>
      rw [hsigned hx hz, hsigned hy hu]
      rfl
    | atMost hz hu | atLeast hz hu =>
      rw [hsigned hx hz, hsigned hy hu, numberValue?, ← decide_not]
      simp only [not_lt, ge_iff_le]
  · have hfirst : Field.Signed x (Field.toSigned x) := (Field.signed_iff hx).2 rfl
    have hsecond : Field.Signed y (Field.toSigned y) := (Field.signed_iff hy).2 rfl
    intro h
    cases op with
    | add | sub | mul =>
      cases h
      constructor
    | div =>
      cases h
      split
      · exact .quotientByZero ‹_›
      · rename_i hne
        obtain ⟨hq, hmul⟩ := (Field.quotient_iff hy hne).2 rfl
        rw [← Pointer.number_reduce]
        exact .quotient hne hq hmul
    | rem =>
      cases h
      split
      · rename_i hboth
        obtain ⟨hx', hy'⟩ := hsmall.1 hboth
        split
        · exact .remainderByZero hx' ‹_›
        · rw [Int.fmod_eq_emod_of_nonneg _ hy.1]
          exact .remainder hx' hy' ‹_›
      · rename_i hboth
        exact .large fun h => hboth (hsmall.2 h)
    | equal =>
      cases h
      exact .equal
    | less =>
      cases h
      exact .less hfirst hsecond
    | greater =>
      cases h
      exact .greater hfirst hsecond
    | atMost =>
      cases h
      simp only [← decide_not, not_lt]
      exact .atMost hfirst hsecond
    | atLeast =>
      cases h
      simp only [← decide_not, not_lt]
      exact .atLeast hfirst hsecond
    | same | cons | hide => cases h

/-! ## Operators -/

/-- What an operator gives for two operands. -/
inductive BinaryResult (a b : Pointer) : Pointer → Except ErrorCode Pointer → Prop
  | number {op : BinaryOp} {r : Except ErrorCode Pointer} (ha : a.tag = .number) (hb : b.tag = .number)
      (hr : NumberResult (a.digest.headD 0) (b.digest.headD 0) op r) : BinaryResult a b (Form.binary op).symbol r
  | notNumber {op : BinaryOp} (hop : op ∈ BinaryOp.numeric) (h : ¬(a.tag = .number ∧ b.tag = .number)) :
      BinaryResult a b (Form.binary op).symbol (.error .argumentError)
  | same : BinaryResult a b (Form.binary .same).symbol (.ok (verdict (a = b)))
  | pair : BinaryResult a b (Form.binary .cons).symbol (.ok (Store.nodePointer .cons [a, b]))
  | hidden (ha : a.tag = .number) :
      BinaryResult a b (Form.binary .hide).symbol (.ok (Store.nodePointer .commitment [a, b]))
  | exposed (ha : a.tag ≠ .number) : BinaryResult a b (Form.binary .hide).symbol (.error .argumentError)
  | unknown {operator : Pointer} (h : ∀ op, operator ≠ (Form.binary op).symbol) :
      BinaryResult a b operator (.error .invalidContinuation)

variable {s : Store} {a b operator : Pointer} {r : Except ErrorCode Pointer}

namespace Store

theorem applyBinary_symbol (s : Store) (op : BinaryOp) (a b : Pointer) :
    s.applyBinary (Form.binary op).symbol a b = s.binaryValue op a b := by
  rw [applyBinary, binaryOf?_symbol]

theorem applyBinary_unknown (s : Store) (h : ∀ op, operator ≠ (Form.binary op).symbol) :
    s.applyBinary operator a b = (.error .invalidContinuation, s) := by
  rw [applyBinary]
  cases hop : binaryOf? operator with
  | none => rfl
  | some op =>
    refine absurd ?_ (h op)
    rw [← beq_iff_eq, beq_symbol, ContPhase.beq_binary, hop, decide_eq_true rfl]

/-- A builtin that computes with numbers fails for other operands. -/
theorem binaryValue_of_number (s : Store) {op : BinaryOp}
    (h : numberValue? op (a.digest.headD 0) (b.digest.headD 0) = some r) :
    s.binaryValue op a b = (if a.tag = .number ∧ b.tag = .number then r else .error .argumentError, s) := by
  simp only [binaryValue, h]

end Store

/-- The result is one that is computed. -/
theorem BinaryResult.eq (s : Store) (ha : a.Canonical) (hb : b.Canonical) (h : BinaryResult a b operator r) :
    (s.applyBinary operator a b).1 = r := by
  cases h with
  | number ha' hb' hr =>
    rw [s.applyBinary_symbol, s.binaryValue_of_number ((numberResult_iff ha.payload hb.payload).1 hr),
      if_pos ⟨ha', hb'⟩]
  | @notNumber op hop h =>
    rw [s.applyBinary_symbol]
    cases hvalue : numberValue? op (a.digest.headD 0) (b.digest.headD 0) with
    | some r => rw [s.binaryValue_of_number hvalue, if_neg h]
    | none => exact absurd hop (numberValue?_eq_none.1 hvalue)
  | same =>
    rw [s.applyBinary_symbol]
    rfl
  | pair =>
    rw [s.applyBinary_symbol]
    rfl
  | hidden ha =>
    rw [s.applyBinary_symbol, Store.binaryValue, numberValue?]
    simp only [if_pos ha]
  | exposed ha =>
    rw [s.applyBinary_symbol, Store.binaryValue, numberValue?]
    simp only [if_neg ha]
  | unknown h => rw [s.applyBinary_unknown h]

/-- There is always a result. -/
theorem binaryResult_of_applyBinary (s : Store) (operator : Pointer) (ha : a.Canonical) (hb : b.Canonical) :
    BinaryResult a b operator (s.applyBinary operator a b).1 := by
  by_cases hknown : ∃ op, operator = (Form.binary op).symbol
  · obtain ⟨op, rfl⟩ := hknown
    rw [s.applyBinary_symbol]
    cases hvalue : numberValue? op (a.digest.headD 0) (b.digest.headD 0) with
    | some r =>
      rw [s.binaryValue_of_number hvalue]
      by_cases hnumbers : a.tag = .number ∧ b.tag = .number
      · rw [if_pos hnumbers]
        exact .number hnumbers.1 hnumbers.2 ((numberResult_iff ha.payload hb.payload).2 hvalue)
      · rw [if_neg hnumbers]
        refine .notNumber (not_not.1 fun hop => ?_) hnumbers
        rw [numberValue?_eq_none.2 hop] at hvalue
        cases hvalue
    | none =>
      cases op with
      | same => exact .same
      | cons => exact .pair
      | hide =>
        by_cases hnumber : a.tag = .number
        · simp only [Store.binaryValue, numberValue?, if_pos hnumber]
          exact .hidden hnumber
        · simp only [Store.binaryValue, numberValue?, if_neg hnumber]
          exact .exposed hnumber
      | _ => cases hvalue
  · rw [s.applyBinary_unknown fun op h => hknown ⟨op, h⟩]
    exact .unknown fun op h => hknown ⟨op, h⟩

/-! ## The rule -/

/-- The state that a result leads to. A value goes on in a thunk, and an error stops the machine. -/
def State.handed (env next : Pointer) : Except ErrorCode Pointer → State
  | .ok v => ⟨Store.nodePointer .thunk [v, .nil], env, next⟩
  | .error code => .fail env code

namespace Machine

open Store
open EStateM (bind_of_ok)

variable {env cont next unused : Pointer}

/-- A step of which both phases are known. -/
theorem step_of_phases {config : Config} {st : State} {rule : EvalRule} {returnRule : ContRule}
    {mid out : Step Int Pointer} {w w' : Workspace} (heval : evalPhase config st (.ofStore s) = .ok (rule, mid) w)
    (hcont : contPhase mid w = .ok (returnRule, out) w') :
    ∃ F, step config st s = .ok F w'.store ∧ F.returnRule = returnRule ∧ F.output = ⟨out.expr, out.env, out.cont⟩ := by
  let F : Frame := ⟨st, ⟨out.expr, out.env, out.cont⟩, rule, returnRule, ⟨mid.expr, mid.env, mid.cont⟩, mid.ret != 0,
    w'.slots, w'.emitted.reverse⟩
  have hframe : frame config st (.ofStore s) = .ok F w' := by
    unfold frame
    rw [bind_of_ok heval]
    dsimp only
    rw [bind_of_ok hcont]
    rfl
  exact ⟨F, by rw [step, hframe], rfl, rfl⟩

/-- The rule hands on what the operator gives. -/
theorem reduct_binary2 (htag : cont.tag = .binary2) (hnode : s.nodes[cont]? = some [operator, a, unused, next]) :
    ContPhase.reduct ⟨⟨b, env, cont⟩, true⟩ s = ContPhase.handOn env next (s.applyBinary operator a b) := by
  rw [ContPhase.reduct, if_pos rfl]
  simp only [ContPhase.resume, htag]
  rw [part_of_node hnode, part_of_node hnode, part_of_node hnode]
  rfl

/-- A value that is handed on is in the store. -/
theorem holds_handOn {result : Except ErrorCode Pointer × Store} {v : Pointer} (h : Finds Holds s result)
    (hv : result.1 = .ok v) : (ContPhase.handOn env next result).2.Holds v := by
  obtain ⟨r, t⟩ := result
  obtain rfl : r = .ok v := hv
  have hheld := h.2 v rfl
  have harity : Tag.thunk.arity? = some [v, .nil].length := rfl
  exact (grows_put h.1.sound harity (by simp [hheld, holds_nil])).1.holds hheld

/-- When a value comes to a continuation for the second operand, the operator has one result for both operands, whatever
they are, and the rule goes on with it. -/
theorem operator_result (env : Pointer) (hs : Reachable s) (hb : s.Holds b) (htag : cont.tag = .binary2)
    (hread : s.fetch cont none = .ok [operator, a, unused, next]) :
    ∃ r, BinaryResult a b operator r ∧ (∀ r', BinaryResult a b operator r' → r' = r) ∧
      (∀ w : Workspace, w.store = s → ∃ w', contPhase ⟨b, env, cont, 1⟩ w =
        .ok (.binary2, ContPhase.toStep (.handed env next r)) w' ∧ ∀ v, r = .ok v → w'.store.Holds v) ∧
      ∀ config st t rule w, evalPhase config st (.ofStore t) = .ok (rule, ⟨b, env, cont, 1⟩) w → w.store = s →
        ∃ F u, step config st t = .ok F u ∧ F.returnRule = .binary2 ∧ F.output = .handed env next r := by
  have hsound := reachable_sound hs
  have hnode := node_of_fetch hread
  have ha : s.Holds a := (hsound.node hnode).2.2 a (by simp)
  have hcont := hsound.contains_of_node hnode
  have hreduct : ContPhase.reduct ⟨⟨b, env, cont⟩, true⟩ s = _ := reduct_binary2 htag hnode
  have hfirst : (ContPhase.reduct ⟨⟨b, env, cont⟩, true⟩ s).1 = .handed env next (s.applyBinary operator a b).1 := by
    rw [hreduct]
    rcases s.applyBinary operator a b with ⟨r | r, t⟩ <;> rfl
  have hsilent : ContPhase.reported ⟨⟨b, env, cont⟩, true⟩ s = none := by
    rw [ContPhase.reported, htag, if_neg (by simp)]
  have hphase (w : Workspace) (hw : w.store = s) : ∃ w', contPhase ⟨b, env, cont, 1⟩ w =
      .ok (.binary2, ContPhase.toStep (.handed env next (s.applyBinary operator a b).1)) w' ∧
        ∀ v, (s.applyBinary operator a b).1 = .ok v → w'.store.Holds v := by
    obtain ⟨w', hphase, hw', -⟩ :=
      gives_contPhase_of_silent hsound (o := ⟨⟨b, env, cont⟩, true⟩) hb hcont hsilent w hw
    have hfiring : ContPhase.firing true cont = .binary2 := by
      rw [ContPhase.firing, htag]
      rfl
    refine ⟨w', ?_, fun v hv => ?_⟩
    · rw [← hfirst, ← hfiring]
      exact hphase
    · rw [hw', hreduct]
      exact holds_handOn (finds_binary inherited_holds hsound operator ha hb) hv
  refine ⟨_, binaryResult_of_applyBinary s operator ha.canonical hb.canonical,
    fun r' h => (h.eq s ha.canonical hb.canonical).symm, hphase, ?_⟩
  rintro config st t rule w heval hw
  obtain ⟨w', hcontPhase, -⟩ := hphase w hw
  obtain ⟨F, hstep, hrule, houtput⟩ := step_of_phases heval hcontPhase
  exact ⟨F, _, hstep, hrule, houtput⟩

/-! ## A remainder -/

namespace Operator

/-- What waits for the second operand of a remainder of seven. -/
def remainder : List Pointer := [(Form.binary .rem).symbol, .number 7, .nil, .outermost]

/-- The state in which it is two, and the store that holds what waits. -/
def second : State := ⟨.number 2, .nil, nodePointer .binary2 remainder⟩
def prepared : Store := (Store.empty false).put .binary2 remainder

theorem prepared_finds : Reachable prepared ∧ prepared.fetch (nodePointer .binary2 remainder) none = .ok remainder ∧
    second.Held prepared := by
  have hempty := empty_sound false
  have hremainder : ∀ c ∈ remainder, (Store.empty false).Holds c := by
    simp only [remainder, List.forall_mem_cons, List.not_mem_nil, false_imp_iff, implies_true, and_true]
    exact ⟨hempty.holds_symbol _, holds_immediate _ (Pointer.immediate_canonical .number 7) rfl, holds_nil _,
      holds_immediate _ (Pointer.immediate_canonical .outermost 0) rfl⟩
  have htakes := takes_put .binary2 hempty rfl hremainder
  have hnode := htakes.node rfl fun ds h => by simp [Store.empty] at h
  refine ⟨.node .binary2 (.empty false) fun c hc => (hremainder c hc).canonical, ?_, State.held_iff.2 ⟨?_, ?_, ?_⟩⟩
  · rw [fetch, prepared, hnode]
    rfl
  · exact holds_immediate _ (Pointer.immediate_canonical .number 2) rfl
  · exact holds_nil _
  · exact htakes.holds

end Operator

/-- The remainder of seven and two is handed on. -/
theorem operator_result_remainder : ∃ F t, step .standard Operator.second Operator.prepared = .ok F t ∧
    F.returnRule = .binary2 ∧ F.output = ⟨nodePointer .thunk [.number 1, .nil], .nil, .outermost⟩ := by
  obtain ⟨hreachable, hread, hheld⟩ := Operator.prepared_finds
  have hsecond : Operator.prepared.Holds (.number 2) := (State.held_iff.1 hheld).1
  obtain ⟨r, -, hunique, -, hstep⟩ := operator_result .nil hreachable hsecond rfl hread
  have hone : BinaryResult (.number 7) (.number 2) (Form.binary .rem).symbol (.ok (.number 1)) :=
    .number rfl rfl (.remainder (by decide) (by decide) (by decide))
  obtain rfl := hunique _ hone
  obtain ⟨w, heval, hw⟩ := Emitter.exists_evalPhase .standard (reachable_sound hreachable) hheld rfl
    (show Operator.prepared.expression Operator.second.expr = .value (.number 2) from rfl)
  exact hstep _ _ _ _ _ heval hw

end Machine

end FieldLisp
