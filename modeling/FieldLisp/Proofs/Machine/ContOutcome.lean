import FieldLisp.Proofs.Machine.ContReading

/-!
# Outcomes of the continuation phase

No rule of the phase is stuck, whether it is the selected one or not, and the outcome of the selected
one is sure. Signs and integer division are sure only where witnesses compute them themselves, so an
operator that needs them asks for that.

* `ContPhase.yields_unary`, `ContPhase.yields_binary2`: the builtins;
* `ContPhase.yields_run`: the statement for all rules.
-/

namespace FieldLisp

open StepModel MarkM

/-! ## Values that are computed -/

theorem MarkM.holds_truth {s : Store} (h : s.Sound) (b : Bool) :
    s.Holds (if b then Builtin.truthPointer else .nil) := by
  cases b with
  | true => exact h.holds_builtin (by decide)
  | false => exact s.holds_nil

theorem MarkM.reliable_carrying (s : Store) (tag : Tag) (htag : tag.isImmediate = true) {x : Marked Int}
    (hsure : x.sure = true) (hx : Field.Canonical x.value) :
    Reliable s ⟨⟨tag, [x.value, 0, 0, 0]⟩, x.sure, false⟩ := by
  refine ⟨hsure, ?_⟩
  have h : (⟨tag, [x.value, 0, 0, 0]⟩ : Pointer) = .immediate tag x.value := by
    rw [Pointer.immediate, Field.reduce_eq_self hx]
    rfl
  rw [h]
  exact s.holds_immediate (Pointer.immediate_canonical tag _) htag

theorem MarkM.number_eq {c : Setting} (x : Marked Int) : (number x : MarkM c MarkedPointer) =
    pure ⟨⟨.number, [x.value, 0, 0, 0]⟩, x.sure, false⟩ := makePointer_eq .number x

theorem MarkM.emit_eq {c : Setting} (p : MarkedPointer) (condition : Option (Marked Int)) :
    (emit p condition : MarkM c Unit) = pure () := rfl

theorem MarkM.failWith_eq {c : Setting} (env : MarkedPointer) (code : Marked Int) :
    (Step.failWith env code : MarkM c _) =
      pure ⟨⟨⟨.error, [code.value, 0, 0, 0]⟩, code.sure, false⟩, env, ptr .failed, lit 0⟩ := by
  unfold Step.failWith
  rw [makePointer_eq .error code, pure_bind]

theorem concluded_failWith {s : Store} {env : MarkedPointer} (h : Reliable s env) {code : Marked Int}
    (hcode : ∃ reason : ErrorCode, code = lit reason.value) :
    (⟨⟨⟨.error, [code.value, 0, 0, 0]⟩, code.sure, false⟩, env, ptr .failed, lit 0⟩ :
      Step (Marked Int) MarkedPointer).Concluded s where
  expr := by
    obtain ⟨reason, rfl⟩ := hcode
    exact reliable_carrying s .error rfl rfl (Field.reduce_canonical _)
  env := h
  cont := reliable_immediate s .failed 0 rfl
  ret := ⟨false, rfl⟩

namespace ContPhase

variable {c : Setting} {W : MarkWorld} {s : Scope (Marked Int) MarkedPointer} {returns : Bool}

/-- A value is handed on in a thunk. -/
theorem yields_returning {value env cont : MarkedPointer} {known : Prop} {v : Bool} {x : Marked Int}
    {β : Type} {f : Step (Marked Int) MarkedPointer → MarkM c β} {post : β → MarkWorld → Prop}
    (hsound : W.store.Sound) (hx : Flag c known v x) (hknown : c.gate = true → v = true → known)
    (hvalue : c.gate = true → v = true → Reliable W.store value)
    (h : ∀ p W', W'.store.Sound → W.store.Extends W'.store →
      (c.gate = true → v = true → Reliable W'.store p) → (f ⟨p, env, cont, lit 0⟩).Yields W' post) :
    (returning value env cont x >>= f).Yields W post := by
  unfold returning
  rw [bind_assoc]
  refine yields_hashTag_if hsound rfl hx hknown (fun hgate hv => ?_) fun p W' hsound' hext hp => ?_
  · simp [hvalue hgate hv, reliable_nil]
  · rw [pure_bind]
    exact h p W' hsound' hext hp

/-! ## Calls -/

theorem yields_call0 (hproper : c.Proper) (hsound : W.store.Sound)
    (hread : s.Read c.honest W.store returns)
    (hlive : c.gate = true → (returns && Tag.frames.contains s.cont.value.tag) = true) :
    (call0 s : MarkM c _).Yields W (Concludes c) := by
  unfold call0
  refine yields_tagIs (hread.value.sees : Sees c True _) fun isFunction hfunction => ?_
  refine yields_unhash3_if hproper hsound hfunction (fun _ _ => trivial)
    (fun _ h => ⟨hread.value, by rw [beq_iff_eq.1 h]; rfl⟩)
    fun parameter body functionEnv W₁ hW₁ hparameter hbody henv => ?_
  rw [← hW₁] at hread hparameter hbody henv
  dsimp only
  refine yields_pointerEq hparameter.sees rfl fun nullary hnullary => ?_
  refine yields_choose hfunction fun failed hfailed => ?_
  refine yields_both hfunction hnullary fun ok hok => ?_
  refine yields_outcome hok (fun hgate => ⟨trivial, fun h => ⟨hgate, h⟩⟩) (fun hgate h => ?_)
    fun _ _ => ?_
  · have h := (Bool.and_eq_true_iff.1 h).1
    exact ⟨hbody.get hgate h, henv.get hgate h, hread.child3.reliable (hlive hgate), false, rfl⟩
  · rw [hfailed (.inr trivial)]
    split <;> exact concluded_fail hread.env _

theorem yields_call (hsound : W.store.Sound) (hread : s.Read c.honest W.store returns)
    (hlive : c.gate = true → (returns && Tag.frames.contains s.cont.value.tag) = true) :
    (call s : MarkM c _).Yields W (Concludes c) := by
  unfold call
  refine yields_tagIs (hread.value.sees : Sees c True _) fun isFunction hfunction => ?_
  refine yields_hashTag_if hsound rfl hfunction (fun _ _ => trivial) (fun hgate _ => ?_)
    fun cont W' _ hext hcont => ?_
  · have hlive := hlive hgate
    simp [hread.value, hread.child1.reliable hlive, hread.child2.reliable hlive,
      hread.child3.reliable hlive]
  · refine yields_outcome hfunction (fun _ => trivial) (fun hgate h => ?_) fun _ _ =>
      concluded_fail (hread.env.extends hext) _
    have hlive := hlive hgate
    exact ⟨(hread.child0.reliable hlive).extends hext, (hread.child2.reliable hlive).extends hext,
      hcont hgate h, false, rfl⟩

theorem yields_call2 (hproper : c.Proper) (hsound : W.store.Sound)
    (hread : s.Read c.honest W.store returns)
    (hlive : c.gate = true → (returns && Tag.frames.contains s.cont.value.tag) = true) :
    (call2 s : MarkM c _).Yields W (Concludes c) := by
  unfold call2
  dsimp only
  refine yields_tagIs (hread.child0.sees hlive) fun isFunction hfunction => ?_
  refine yields_unhash3_if hproper hsound hfunction (fun hgate _ => hgate)
    (fun hgate h => ⟨hread.child0.reliable (hlive hgate), by rw [beq_iff_eq.1 h]; rfl⟩)
    fun parameter body functionEnv W₁ hW₁ hparameter hbody henv => ?_
  rw [← hW₁] at hsound hread hparameter hbody henv
  dsimp only
  refine yields_pointerEq hparameter.sees rfl fun nullary hnullary => ?_
  refine yields_tagIs (hread.child1.sees hlive) fun hasMore hmore => ?_
  refine yields_tagIs (hread.child1.sees hlive) fun ending hending => ?_
  have hlist := hmore.oneOf hending (tags_exclusive _ .cons .nil nofun)
  refine yields_both_cons hfunction hnullary.no fun _ hboth => ?_
  refine yields_both hboth hlist fun ok hok => ?_
  obtain ⟨isOk, hisOk⟩ : ∃ b, b = ((s.child0.value.tag == .function) &&
      !(parameter.value == (ptr Builtin.noParameterPointer : MarkedPointer).value) &&
      (s.child1.value.tag == .cons || s.child1.value.tag == .nil)) := ⟨_, rfl⟩
  rw [← hisOk] at hok
  replace hok := hok.mono (c.gate = true) fun hgate =>
    ⟨⟨hgate, fun h => ⟨hgate, h⟩⟩, fun _ => ⟨hgate, hgate⟩⟩
  have hisFunction (h : isOk = true) : (s.child0.value.tag == .function) = true := by
    simp only [hisOk, Bool.and_eq_true] at h
    exact h.1.1
  refine yields_hashTag_if hsound rfl hok (fun hgate _ => hgate) (fun hgate h => ?_)
    fun env W₂ hsound' hext henv' => ?_
  · have h := hisFunction h
    simp [hparameter.get hgate h, hread.value, henv.get hgate h]
  refine yields_both hok hmore fun chained hchained => ?_
  replace hchained := hchained.mono (c.gate = true) fun hgate => ⟨hgate, fun _ => hgate⟩
  refine yields_unhash2_if hproper hsound' hchained (fun hgate _ => hgate) (fun hgate h => ?_)
    fun next rest W₃ hW₃ hnext hrest => ?_
  · have h := (Bool.and_eq_true_iff.1 h).2
    exact ⟨(hread.child1.reliable (hlive hgate)).extends hext, by rw [beq_iff_eq.1 h]; rfl⟩
  rw [← hW₃] at hsound' hext hnext hrest henv'
  dsimp only
  refine yields_hashTag_if hsound' rfl hchained (fun hgate _ => hgate) (fun hgate h => ?_)
    fun call W₄ _ hext' hcall => ?_
  · have hlive := hlive hgate
    simp [hnext.get hgate h, hrest.get hgate h, (hread.child2.reliable hlive).extends hext,
      (hread.child3.reliable hlive).extends hext]
  refine yields_selectPointer hmore fun cont hcont => ?_
  refine yields_choose hfunction fun failed hfailed => ?_
  refine yields_outcome hok (fun hgate => hgate) (fun hgate h => ?_) fun hgate _ => ?_
  · refine ⟨?_, (henv' hgate h).extends hext', ?_, false, rfl⟩
    · exact (hbody.get hgate (hisFunction h)).extends (hext.trans hext')
    · rw [hcont (.inr hgate)]
      split
      · rename_i hpair
        exact hcall hgate (by rw [h, hpair]; rfl)
      · exact (hread.child3.reliable (hlive hgate)).extends (hext.trans hext')
  · rw [hfailed (.inr hgate)]
    split <;> exact concluded_fail (hread.env.extends (hext.trans hext')) _

/-! ## Bindings and branches -/

theorem yields_binding {tag : Tag} (htag : tag.arity? = some 3) (hsound : W.store.Sound)
    (hread : s.Read c.honest W.store returns)
    (hlive : c.gate = true → (returns && Tag.frames.contains s.cont.value.tag) = true) :
    (binding tag s : MarkM c _).Yields W (Concludes c) := by
  unfold binding
  refine yields_bind.2 (yields_hashTag hsound htag admits_none (fun hon => ?_)
    fun env W' _ hext henv => yields_pure.2 fun hgate => ?_)
  · have hlive := hlive (on_none.symm.trans hon)
    simp [hread.child0.reliable hlive, hread.value, hread.child2.reliable hlive]
  · have hlive := hlive hgate
    exact ⟨(hread.child1.reliable hlive).extends hext, henv (on_none.trans hgate),
      (hread.child3.reliable hlive).extends hext, false, rfl⟩

theorem yields_branch (hread : s.Read c.honest W.store returns)
    (hlive : c.gate = true → (returns && Tag.frames.contains s.cont.value.tag) = true) :
    (branch s : MarkM c _).Yields W (Concludes c) := by
  unfold branch
  refine yields_tagIs (hread.value.sees : Sees c True _) fun isNil hnil => ?_
  refine yields_selectPointer hnil fun chosen hchosen => yields_pure.2 fun hgate => ?_
  have hlive := hlive hgate
  refine ⟨?_, hread.child2.reliable hlive, hread.child3.reliable hlive, false, rfl⟩
  rw [hchosen (.inr trivial)]
  split
  · exact hread.child1.reliable hlive
  · exact hread.child0.reliable hlive

theorem yields_binary (hsound : W.store.Sound) (hread : s.Read c.honest W.store returns)
    (hlive : c.gate = true → (returns && Tag.frames.contains s.cont.value.tag) = true) :
    (binary s : MarkM c _).Yields W (Concludes c) := by
  unfold binary
  refine yields_bind.2 (yields_hashTag hsound rfl admits_none (fun hon => ?_)
    fun cont W' _ hext hcont => yields_pure.2 fun hgate => ?_)
  · have hlive := hlive (on_none.symm.trans hon)
    simp [hread.child0.reliable hlive, hread.value, hread.child3.reliable hlive, reliable_nil]
  · have hlive := hlive hgate
    exact ⟨(hread.child1.reliable hlive).extends hext, (hread.child2.reliable hlive).extends hext,
      hcont (on_none.trans hgate), false, rfl⟩

/-! ## Operators -/

/-- Whether a form is one of several. -/
def among (op : Option Form) (forms : List Form) : Bool := forms.any (op == some ·)

theorem among_iff {op : Option Form} {forms : List Form} :
    among op forms = true ↔ ∃ form ∈ forms, op = some form := by
  simp [among]

theorem among_exclusive (op : Option Form) {fs gs : List Form} (h : ∀ form ∈ fs, form ∉ gs) :
    (among op fs && among op gs) = false := by
  refine Bool.eq_false_iff.2 fun hboth => ?_
  obtain ⟨hfs, hgs⟩ := Bool.and_eq_true_iff.1 hboth
  obtain ⟨form, hform, rfl⟩ := among_iff.1 hfs
  obtain ⟨other, hother, heq⟩ := among_iff.1 hgs
  exact h form hform (Option.some.inj heq ▸ hother)

theorem or_exclusive {a b d : Bool} (ha : (a && d) = false) (hb : (b && d) = false) :
    ((a || b) && d) = false := by
  rw [Bool.and_or_distrib_right, ha, hb]
  rfl

theorem and_exclusive {a b : Bool} (h : (a && b) = false) (x y : Bool) :
    ((a && x) && (b && y)) = false := by
  cases a <;> cases b <;> simp at h ⊢

/-- Whether a pointer is the symbol of each of several operators. -/
def operatorFlags {κ : Type} (p : MarkedPointer) (form : κ → Form) (ks : List κ) :
    List (κ × Marked Int) := ks.map fun k => (k, .bit p.sure (p.value == (form k).symbol))

theorem operatorFlags_eq {κ : Type} (p : MarkedPointer) (form : κ → Form) (ks : List κ) :
    (ks.mapM fun k => do
      let same ← pointerEq p (ptr (form k).symbol)
      pure (k, same) : MarkM c (List (κ × Marked Int))) = pure (operatorFlags p form ks) :=
  pointerFlags_eq p (fun k => (form k).symbol) ks

/-- One flag for the flags of two lists. -/
theorem oneOf_append {κ : Type} (f : κ → Marked Int) (k : κ) (ks js : List κ) :
    oneOf ((k :: ks ++ js).map f) = oneOf (oneOf ((k :: ks).map f) :: js.map f) := by
  rw [List.map_append]
  exact List.foldl_append ..

section Operators
variable {κ : Type} [BEq κ] [LawfulBEq κ] {form : κ → Form} {ks : List κ} {p : MarkedPointer}
  {known : Prop}

/-- One flag for several operators. -/
theorem oneOf_operators (hp : Sees c known p) {ops : List κ} (hne : ops ≠ [])
    (hnodup : (ops.map form).Nodup) (hops : ∀ k ∈ ops, k ∈ ks) :
    Flag c known (among (formOf? p.value) (ops.map form))
      (oneOf (ops.map (flag (operatorFlags p form ks)))) := by
  have hflags : ops.map (flag (operatorFlags p form ks)) =
      (ops.map form).map fun form => .bit p.sure (p.value == form.symbol) := by
    rw [List.map_map]
    exact List.map_congr_left fun k hk => by rw [operatorFlags, flag_map (hops k hk)]; rfl
  rw [hflags, oneOf_forms (by simpa using hne) hnodup]
  exact ⟨rfl, hp⟩

/-- The flag that says whether there is an operator at all. -/
theorem oneOf_operatorFlags (hp : Sees c known p) (hne : ks ≠ []) (hnodup : (ks.map form).Nodup) :
    Flag c known (among (formOf? p.value) (ks.map form))
      (oneOf ((operatorFlags p form ks).map (·.2))) := by
  have hflags : (operatorFlags p form ks).map (·.2) = ks.map (flag (operatorFlags p form ks)) := by
    rw [operatorFlags, List.map_map]
    exact List.map_congr_left fun k hk => by rw [flag_map hk]; rfl
  rw [hflags]
  exact oneOf_operators hp hne hnodup fun _ => id

end Operators

/-- What a builtin of one operand gives, where its operand is right. -/
theorem yields_unary (hproper : c.Proper) (hsound : W.store.Sound)
    (hread : s.Read c.honest W.store returns)
    (hlive : c.gate = true → (returns && Tag.frames.contains s.cont.value.tag) = true) :
    (unary s : MarkM c _).Yields W (Concludes c) := by
  unfold unary
  rw [operatorFlags_eq s.child0 Form.unary, pure_bind]
  have hsees : Sees c (c.gate = true) s.child0 := hread.child0.sees hlive
  have hops (ops : List UnaryOp) (hne : ops ≠ []) (hnodup : (ops.map Form.unary).Nodup) :
      Flag c (c.gate = true) _ (oneOf (ops.map (flag (operatorFlags s.child0 Form.unary UnaryOp.all)))) :=
    oneOf_operators hsees hne hnodup fun op _ => by cases op <;> decide
  have hknown : Flag c (c.gate = true) _ (oneOf ((operatorFlags _ _ UnaryOp.all).map (·.2))) :=
    oneOf_operatorFlags hsees nofun (by decide : (UnaryOp.all.map Form.unary).Nodup)
  have hvalue : Sees c True s.value := hread.value.sees
  generalize formOf? s.child0.value = op at hops hknown
  generalize operatorFlags s.child0 Form.unary UnaryOp.all = isOp at hops hknown ⊢
  refine yields_tagIs hvalue fun isCons hcons => ?_
  refine yields_tagIs hvalue fun isNil hnil => ?_
  refine yields_tagIs hvalue fun isCommitment hcommitment => ?_
  have hlistOp := hops [.car, .cdr] nofun (by decide)
  have hcommitmentOp := hops [.secret, .payload] nofun (by decide)
  have hkinds := among_exclusive op (by decide : ∀ form ∈ [UnaryOp.car, .cdr].map Form.unary,
    form ∉ [UnaryOp.secret, .payload].map Form.unary)
  refine yields_both hlistOp hcons fun splitsList hsplitsList => ?_
  refine yields_both hcommitmentOp hcommitment fun splitsCommitment hsplitsCommitment => ?_
  have hsplits := hsplitsList.oneOf hsplitsCommitment (and_exclusive hkinds _ _)
  refine yields_unhash2_if hproper hsound hsplits
    (fun hgate _ => ⟨⟨hgate, fun _ => trivial⟩, hgate, fun _ => trivial⟩)
    (fun _ h => ⟨hread.value, ?_⟩) fun first second W₁ hW₁ hfirst hsecond => ?_
  · simp only [Bool.or_eq_true, Bool.and_eq_true, beq_iff_eq] at h
    obtain ⟨_, htag⟩ | ⟨_, htag⟩ := h <;> rw [htag] <;> rfl
  rw [← hW₁] at hsound hread hfirst hsecond
  dsimp only
  refine yields_selectPointer (hops [.car, .secret] nofun (by decide)) fun part hpart => ?_
  refine yields_selectPointer hnil fun part' hpart' => ?_
  have hlist := hcons.oneOf hnil (tags_exclusive _ .cons .nil nofun)
  refine yields_both hlistOp hlist.no fun badList hbadList => ?_
  refine yields_both hcommitmentOp hcommitment.no fun badCommitment hbadCommitment => ?_
  have hbad := hbadList.oneOf hbadCommitment (and_exclusive hkinds _ _)
  refine yields_both hknown hbad.no fun ok hok => ?_
  obtain ⟨isOk, hisOk⟩ : ∃ b, b = (among op (UnaryOp.all.map Form.unary) &&
      !(among op ([UnaryOp.car, .cdr].map Form.unary) &&
          !(s.value.value.tag == .cons || s.value.value.tag == .nil) ||
        among op ([UnaryOp.secret, .payload].map Form.unary) &&
          !(s.value.value.tag == .commitment))) := ⟨_, rfl⟩
  rw [← hisOk] at hok
  replace hok := hok.mono (c.gate = true) fun hgate =>
    ⟨hgate, fun _ => ⟨⟨hgate, fun _ => ⟨trivial, trivial⟩⟩, hgate, fun _ => trivial⟩⟩
  refine yields_both hok (hops [.commit] nofun (by decide)) fun commits hcommits => ?_
  refine yields_hashTag_if hsound rfl hcommits (fun hgate _ => ⟨hgate, fun _ => hgate⟩)
    (fun _ _ => ?_) fun commitment W₂ hsound' hext hcommitment' => ?_
  · have hzero := reliable_immediate W₁.store .number 0 rfl
    rw [Pointer.number]
    simp [hread.value, hzero]
  refine yields_both hok (hops [.emit] nofun (by decide)) fun emits _ => ?_
  rw [emit_eq, pure_bind]
  refine yields_truth hcons.no fun isAtom hatom => ?_
  refine yields_selectPointer (hops [.emit] nofun (by decide)) fun reported hreported => ?_
  refine yields_selectPointer (hops [.commit] nofun (by decide)) fun built hbuilt => ?_
  refine yields_selectPointer (hops [.atom] nofun (by decide)) fun result hresult => ?_
  refine yields_select hknown fun code hcode => ?_
  have hchild := fun hgate => (hread.child3.reliable (hlive hgate)).extends hext
  refine yields_returning hsound' hok (fun hgate _ => hgate) (fun hgate h => ?_)
    fun thunk W₃ _ hext' hthunk => ?_
  · obtain ⟨hany, hgood⟩ := Bool.and_eq_true_iff.1 (hisOk ▸ h)
    obtain ⟨_, hform, rfl⟩ := among_iff.1 hany
    obtain ⟨o, -, rfl⟩ := List.mem_map.1 hform
    rw [hresult (.inr hgate), hbuilt (.inr hgate), hreported (.inr hgate), hpart' (.inr trivial),
      hpart (.inr hgate), hatom (.inr trivial)]
    have htwo (h : s.value.value.tag ≠ .nil) (hform : o ∈ [UnaryOp.car, .cdr, .secret, .payload]) :
        Reliable W₂.store first ∧ Reliable W₂.store second := by
      have hon : (among (some (Form.unary o)) ([UnaryOp.car, .cdr].map Form.unary) &&
          s.value.value.tag == .cons ||
          among (some (Form.unary o)) ([UnaryOp.secret, .payload].map Form.unary) &&
          s.value.value.tag == .commitment) = true := by
        generalize s.value.value.tag = tag at h hgood ⊢
        cases o <;> cases tag <;> simp +decide at h hgood hform ⊢
      exact ⟨(hfirst.get hgate hon).extends hext, (hsecond.get hgate hon).extends hext⟩
    cases o with
    | atom =>
      rw [if_pos (by decide)]
      exact reliable_certain (holds_truth hsound' _)
    | commit =>
      rw [if_neg (by decide), if_pos (by decide)]
      exact hcommitment' hgate (by rw [h]; decide)
    | emit =>
      rw [if_neg (by decide), if_neg (by decide), if_pos (by decide)]
      exact hread.value.extends hext
    | _ =>
      rw [if_neg (by decide), if_neg (by decide), if_neg (by decide)]
      split
      · exact reliable_nil _
      · rename_i hnil
        have htwo := htwo (by simpa using hnil) (by decide)
        split
        · exact htwo.1
        · exact htwo.2
  rw [failWith_eq, pure_bind]
  refine yields_outcome hok (fun hgate => hgate) (fun hgate h => ?_) fun hgate h => ?_
  · exact ⟨hthunk hgate h, hread.env.extends (hext.trans hext'), (hchild hgate).extends hext', false,
      rfl⟩
  · refine concluded_failWith (hread.env.extends (hext.trans hext')) ?_
    rw [hcode (.inr hgate)]
    split <;> exact ⟨_, rfl⟩

/-! ## Arithmetic -/

/-- Operators of which the circuit checks signs, which is all that it knows of their size. -/
def signedOps : List BinaryOp := [.rem, .less, .greater, .atMost, .atLeast]

/-- Operators that compute numbers. -/
def arithmeticOps : List BinaryOp := [.add, .sub, .mul, .div, .rem]

/-- Operators that compare numbers. -/
def comparisonOps : List BinaryOp := [.equal, .less, .greater, .atMost, .atLeast]

/-- Whether a number is a legal operand of integer division, as the rules test it. -/
def small (x : Int) : Bool :=
  !Field.isNegative x && Field.isNegative (Field.reduce (x - Field.reduce (Int.ofNat (1 <<< divisionBits))))

theorem small_iff {x : Int} (hx : Field.Canonical x) : small x = true ↔ x < 2 ^ divisionBits := by
  unfold small
  rw [Bool.and_eq_true, Bool.not_eq_true', Bool.eq_false_iff, ne_eq, Field.isNegative_iff, Field.isNegative_iff,
    show Field.reduce (Int.ofNat (1 <<< divisionBits)) = 4294967296 by decide,
    show (2 : Int) ^ divisionBits = 4294967296 by decide]
  obtain ⟨hnonneg, hlt⟩ := hx
  unfold Field.reduce
  unfold Field.order at hlt ⊢
  omega

section Lines
variable {known known' : Prop} {v : Bool} {x y z : Marked Int} {β : Type}
  {post : β → MarkWorld → Prop}

theorem yields_isSmall {f : Marked Int → MarkM c β}
    (hx : c.honest = true ∨ known → x.sure = true ∧ c.signs = true)
    (h : ∀ r, Flag c known (small x.value) r → (f r).Yields W post) :
    (isSmall x >>= f).Yields W post := by
  have hsmall : (isSmall x : MarkM c (Marked Int)) = both
      (no (.bit (x.sure && c.signs) (Field.isNegative x.value)))
      [.bit (x.sure && true && c.signs) (Field.isNegative (Field.reduce
        (x.value - Field.reduce (Int.ofNat (1 <<< divisionBits)))))] := rfl
  have hbelow : Flag c known _ (.bit (x.sure && true && c.signs) (Field.isNegative (Field.reduce
      (x.value - Field.reduce (Int.ofNat (1 <<< divisionBits)))))) :=
    ⟨rfl, fun hk => by simp [hx hk]⟩
  have hnegative : Flag c known _ (.bit (x.sure && c.signs) (Field.isNegative x.value)) :=
    ⟨rfl, fun hk => by simp [hx hk]⟩
  rw [hsmall]
  exact yields_both hnegative.no hbelow fun r hr => h r (hr.mono _ fun hk => ⟨hk, fun _ => hk⟩)

theorem yields_less {f : Marked Int → MarkM c β}
    (hx : c.honest = true ∨ known → (x.sure && y.sure && c.signs) = true)
    (h : ∀ r, Flag c known (Field.toSigned x.value < Field.toSigned y.value) r →
      (f r).Yields W post) :
    (less x y >>= f).Yields W post := h (.bit _ _) ⟨rfl, hx⟩

theorem yields_div {f : Marked Int × Marked Int → MarkM c β} (hy : y.sure = true)
    (h : ∀ q zero, (y.value ≠ 0 → q.sure = x.sure ∧ Field.Canonical q.value) →
      Flag c True (y.value == 0) zero → (f (q, zero)).Yields W post) :
    (div x y >>= f).Yields W post := by
  change ((pure (quotient c x y) : MarkM c _) >>= f).Yields W post
  rw [pure_bind]
  unfold quotient
  split
  · rename_i hzero
    refine h _ _ (absurd hzero) ⟨by rw [hzero]; rfl, fun _ => hy⟩
  · rename_i hzero
    refine h _ _ (fun _ => ⟨by simp [hy], Field.reduce_canonical _⟩) ⟨?_, fun _ => hy⟩
    rw [beq_eq_false_iff_ne.2 hzero]
    rfl

theorem yields_divRem {f : Marked Int × Marked Int → MarkM c β} (hz : Flag c known v z)
    (hknown : c.gate = true → v = true → known)
    (hoperands : c.gate = true → v = true → x.sure = true ∧ y.sure = true ∧ 0 ≤ x.value ∧
      x.value < 2 ^ divisionBits ∧ 0 < y.value ∧ y.value < 2 ^ divisionBits)
    (h : ∀ q r, (c.gate = true → v = true → r.sure = c.signs ∧ Field.Canonical r.value) →
      (f (q, r)).Yields W post) :
    (divRem x y (some z) >>= f).Yields W post := by
  have hmay : MayDivide c x y (some z) := by
    refine ⟨hz.admits hknown, fun hon => ⟨nofun, ?_⟩⟩
    rw [hz.on, Bool.and_eq_true] at hon
    obtain ⟨hx, hy, _, hxlt, hpos, hylt⟩ := hoperands hon.1 hon.2
    exact ⟨hx, hy, hxlt, hpos, hylt⟩
  change ((require _ _ : MarkM c _) >>= f).Yields W post
  rw [require_eq hmay, pure_bind]
  unfold divided
  rw [hz.on]
  split
  · rename_i hon
    rw [Bool.and_eq_true] at hon
    obtain ⟨_, _, _, _, hpos, hylt⟩ := hoperands hon.1 hon.2
    refine h _ _ fun _ _ => ⟨rfl, ?_⟩
    rw [Int.fmod_eq_emod_of_nonneg _ hpos.le]
    exact ⟨Int.emod_nonneg _ hpos.ne', ((Int.emod_lt_of_pos _ hpos).trans hylt).trans (by decide)⟩
  · rename_i hoff
    refine h _ _ fun hgate hv => absurd ?_ hoff
    rw [hgate, hv]
    rfl

end Lines

theorem payload_eq (p : MarkedPointer) :
    (payload p : MarkM c (Marked Int)) = pure ⟨p.value.digest.headD 0, p.sure⟩ := rfl

theorem mul_eq (x y : Marked Int) : (mul x y : MarkM c (Marked Int)) = pure (times x y) := rfl

theorem yields_binary2 (hsound : W.store.Sound)
    (hread : s.Read c.honest W.store returns)
    (hlive : c.gate = true → (returns && Tag.frames.contains s.cont.value.tag) = true)
    (hhonest : c.honest = true → c.signs = true)
    (hsigned : c.gate = true →
      among (formOf? s.child0.value) (signedOps.map Form.binary) = true → c.signs = true) :
    (binary2 s : MarkM c _).Yields W (Concludes c) := by
  unfold binary2
  dsimp only
  rw [operatorFlags_eq s.child0 Form.binary, pure_bind, payload_eq, pure_bind, payload_eq, pure_bind]
  have hsees : Sees c (c.gate = true) s.child0 := hread.child0.sees hlive
  have hops (ops : List BinaryOp) (hne : ops ≠ []) (hnodup : (ops.map Form.binary).Nodup) :
      Flag c (c.gate = true) _ (oneOf (ops.map (flag (operatorFlags s.child0 Form.binary BinaryOp.all)))) :=
    oneOf_operators hsees hne hnodup fun op _ => by cases op <;> decide
  have hop (op : BinaryOp) : Flag c (c.gate = true) (among _ [Form.binary op])
      (flag (operatorFlags s.child0 Form.binary BinaryOp.all) op) :=
    hops [op] nofun (List.nodup_singleton _)
  have hknown : Flag c (c.gate = true) _ (oneOf ((operatorFlags _ _ BinaryOp.all).map (·.2))) :=
    oneOf_operatorFlags hsees nofun (by decide : (BinaryOp.all.map Form.binary).Nodup)
  generalize formOf? s.child0.value = op at hops hop hknown hsigned
  generalize operatorFlags s.child0 Form.binary BinaryOp.all = isOp at hops hop hknown ⊢
  have ha : Sees c (c.gate = true) s.child1 := hread.child1.sees hlive
  obtain ⟨x, hx⟩ : ∃ x : Marked Int, x = ⟨s.child1.value.digest.headD 0, s.child1.sure⟩ := ⟨_, rfl⟩
  obtain ⟨y, hy⟩ : ∃ y : Marked Int, y = ⟨s.value.value.digest.headD 0, s.value.sure⟩ := ⟨_, rfl⟩
  rw [← hx, ← hy]
  have hxsure (hk : c.honest = true ∨ c.gate = true) : x.sure = true := by rw [hx]; exact ha hk
  have hysure : y.sure = true := by rw [hy]; exact hread.value.sure
  have hxcanonical (hgate : c.gate = true) : Field.Canonical x.value := by
    rw [hx]
    exact (hread.child1.reliable (hlive hgate)).holds.canonical.payload
  have hycanonical : Field.Canonical y.value := by
    rw [hy]
    exact hread.value.holds.canonical.payload
  refine yields_tagIs ha fun aNumber haNumber => ?_
  refine yields_tagIs (hread.value.sees : Sees c True _) fun bNumber hbNumber => ?_
  refine yields_both haNumber hbNumber fun numbers hnumbers => ?_
  replace hnumbers := hnumbers.mono (c.gate = true) fun hgate => ⟨hgate, fun _ => trivial⟩
  obtain ⟨areNumbers, hareNumbers⟩ : ∃ b, b = (s.child1.value.tag == .number &&
    s.value.value.tag == .number) := ⟨_, rfl⟩
  rw [← hareNumbers] at hnumbers
  refine yields_div hysure fun quotient yZero hquotient hyZero => ?_
  dsimp only
  have hsmall {z : Marked Int} (hz : c.honest = true ∨ c.gate = true → z.sure = true) :
      c.honest = true ∨ (c.gate = true ∧ c.signs = true) → z.sure = true ∧ c.signs = true
    | .inl h => ⟨hz (.inl h), hhonest h⟩
    | .inr h => ⟨hz (.inr h.1), h.2⟩
  refine yields_isSmall (hsmall hxsure) fun xSmall hxSmall => ?_
  refine yields_isSmall (hsmall fun _ => hysure) fun ySmall hySmall => ?_
  refine yields_both hxSmall hySmall fun isSmall hisSmall => ?_
  replace hisSmall := hisSmall.mono (c.gate = true ∧ c.signs = true) fun h => ⟨h, fun _ => h⟩
  refine yields_both_cons (hop .rem) hnumbers fun _ hdivides => ?_
  refine yields_both_cons hdivides hisSmall fun _ hdivides => ?_
  refine yields_both hdivides hyZero.no fun divides hdivides => ?_
  have hremSigned (hgate : c.gate = true) (h : among op [Form.binary .rem] = true) :
      c.signs = true := by
    refine hsigned hgate (among_iff.2 ⟨.binary .rem, by decide, ?_⟩)
    simpa [among] using h
  replace hdivides := hdivides.mono (c.gate = true) fun hgate =>
    ⟨⟨⟨hgate, fun _ => hgate⟩, fun h => ⟨hgate, hremSigned hgate (Bool.and_eq_true_iff.1 h).1⟩⟩,
      fun _ => trivial⟩
  refine yields_divRem hdivides (fun hgate _ => hgate) (fun hgate h => ?_)
    fun _ remainder hremainder => ?_
  · simp only [Bool.and_eq_true, Bool.not_eq_true', beq_eq_false_iff_ne] at h
    obtain ⟨⟨_, hxlt, hylt⟩, hne⟩ := h
    have hxcanonical := hxcanonical hgate
    exact ⟨hxsure (.inr hgate), hysure, hxcanonical.1, (small_iff hxcanonical).1 hxlt,
      lt_of_le_of_ne hycanonical.1 (Ne.symm hne), (small_iff hycanonical).1 hylt⟩
  rw [mul_eq, pure_bind]
  refine yields_select (hop .div) fun value₁ hvalue₁ => ?_
  refine yields_select (hop .mul) fun value₂ hvalue₂ => ?_
  refine yields_select (hop .sub) fun value₃ hvalue₃ => ?_
  refine yields_select (hop .add) fun value hvalue => ?_
  refine yields_select (hops [.greater, .atMost] nofun (by decide)) fun left hleft => ?_
  refine yields_select (hops [.greater, .atMost] nofun (by decide)) fun right hright => ?_
  have hordering (hk : c.honest = true ∨ (c.gate = true ∧ c.signs = true)) :
      (left.sure && right.sure && c.signs) = true := by
    have hk' := hk.imp_right And.left
    have hsigns : c.signs = true := hk.elim hhonest And.right
    rw [hleft hk', hright hk', hsigns]
    split <;> simp [hxsure hk', hysure]
  refine yields_less hordering fun isLess hless => ?_
  refine yields_exclusive hless (hops [.atMost, .atLeast] nofun (by decide)) fun ordered hordered => ?_
  replace hordered := hordered.mono (c.gate = true ∧ c.signs = true) fun h => ⟨h, h.1⟩
  have hequality (hk : c.honest = true ∨ c.gate = true) : (x.sure && y.sure) = true := by
    rw [hxsure hk, hysure]
    rfl
  refine yields_equal hequality fun areEqual hequal => ?_
  refine yields_pointerEq ha hread.value.sure fun areSame hsame => ?_
  refine yields_selectFlag (hop .same) hsame hordered fun _ hverdict => ?_
  refine yields_selectFlag (hop .equal) hequal hverdict fun verdict hverdict => ?_
  replace hverdict := hverdict.mono (c.gate = true ∧
      (among op ([BinaryOp.equal, .same].map Form.binary) = false → c.signs = true)) fun h =>
    ⟨h.1, fun _ => h.1, fun hequal => ⟨h.1, fun _ => h.1, fun hsame => ⟨h.1, h.2 ?_⟩⟩⟩
  swap
  · simp only [among, List.any_cons, List.any_nil, List.map_cons, List.map_nil, Bool.or_false]
      at hequal hsame ⊢
    rw [hequal, hsame]
    rfl
  refine yields_hashTag_if hsound rfl (hop .cons) (fun hgate _ => hgate)
    (fun hgate _ => ?_) fun pair W₁ hsound₁ hext₁ hpair => ?_
  · simp [hread.child1.reliable (hlive hgate), hread.value]
  refine yields_both (hop .hide) haNumber fun hides hhides => ?_
  refine yields_hashTag_if hsound₁ rfl hhides (fun hgate _ => ⟨hgate, fun _ => hgate⟩)
    (fun hgate _ => ?_) fun commitment W₂ hsound₂ hext₂ hcommitment => ?_
  · simp [(hread.child1.reliable (hlive hgate)).extends hext₁, hread.value.extends hext₁]
  rw [number_eq, pure_bind]
  refine yields_truth hverdict fun isTrue hisTrue => ?_
  have harithmetic := hops arithmeticOps nofun (by decide)
  have hnumeric := hops (arithmeticOps ++ comparisonOps) nofun (by decide)
  have happend : oneOf ((arithmeticOps ++ comparisonOps).map (flag isOp)) =
      oneOf (oneOf (arithmeticOps.map (flag isOp)) :: comparisonOps.map (flag isOp)) :=
    oneOf_append ..
  rw [happend] at hnumeric
  refine yields_selectPointer harithmetic fun computed hcomputed => ?_
  refine yields_selectPointer (hop .hide) fun built hbuilt => ?_
  refine yields_selectPointer (hop .cons) fun result hresult => ?_
  refine yields_both hnumeric hnumbers.no fun notNumbers hnotNumbers => ?_
  refine yields_both_cons (hop .rem) hnumbers fun _ hlarge => ?_
  refine yields_both hlarge hisSmall.no fun large hlarge => ?_
  refine yields_both (hop .hide) haNumber.no fun noSecret hnoSecret => ?_
  have hnumericHide := among_exclusive op (by decide :
    ∀ form ∈ (arithmeticOps ++ comparisonOps).map Form.binary, form ∉ [Form.binary .hide])
  have hremHide := among_exclusive op (by decide :
    ∀ form ∈ [Form.binary .rem], form ∉ [Form.binary .hide])
  have hbad := (hnotNumbers.oneOf hlarge (by cases areNumbers <;> simp)).oneOf hnoSecret
    (or_exclusive (and_exclusive hnumericHide _ _)
      (and_exclusive (by rw [Bool.and_right_comm, hremHide, Bool.false_and]) _ _))
  obtain ⟨isBad, hisBad⟩ : ∃ b, b =
      (among op ((arithmeticOps ++ comparisonOps).map Form.binary) && !areNumbers ||
        among op [Form.binary .rem] && areNumbers && !(small x.value && small y.value) ||
        among op [Form.binary .hide] && !(s.child1.value.tag == .number)) := ⟨_, rfl⟩
  rw [← hisBad] at hbad
  replace hbad := hbad.mono (c.gate = true) fun hgate =>
    ⟨⟨⟨hgate, fun _ => hgate⟩, ⟨hgate, fun _ => hgate⟩, fun h =>
      ⟨hgate, hremSigned hgate (Bool.and_eq_true_iff.1 h).1⟩⟩, hgate, fun _ => hgate⟩
  refine yields_both_cons (hops [.div, .rem] nofun (by decide)) hnumbers fun _ hbyZero => ?_
  refine yields_both hbyZero hyZero fun byZero hbyZero => ?_
  replace hbyZero := hbyZero.mono (c.gate = true) fun hgate => ⟨⟨hgate, fun _ => hgate⟩, fun _ => trivial⟩
  refine yields_both_cons hknown hbad.no fun _ hok => ?_
  refine yields_both hok hbyZero.no fun ok hok => ?_
  replace hok := hok.mono (c.gate = true) fun hgate => ⟨⟨hgate, fun _ => hgate⟩, fun _ => hgate⟩
  refine yields_select hbad fun reason hreason => ?_
  refine yields_select hknown fun code hcode => ?_
  have hext := hext₁.trans hext₂
  refine yields_returning hsound₂ hok (fun hgate _ => hgate) (fun hgate h => ?_)
    fun thunk W₃ _ hext' hthunk => ?_
  · obtain ⟨hall, hdivided⟩ := Bool.and_eq_true_iff.1 h
    obtain ⟨hany, hgood⟩ := Bool.and_eq_true_iff.1 hall
    obtain ⟨_, hform, rfl⟩ := among_iff.1 hany
    obtain ⟨o, -, rfl⟩ := List.mem_map.1 hform
    have hxsure := hxsure (.inr hgate)
    rw [hresult (.inr hgate), hbuilt (.inr hgate), hcomputed (.inr hgate)]
    -- A number is computed from numbers, and not by a division by zero.
    have hnumber (ho : o ∈ arithmeticOps) : value.sure = true ∧ Field.Canonical value.value := by
      have hare : areNumbers = true := by
        cases hcase : areNumbers with
        | true => rfl
        | false =>
          rw [hisBad, hcase] at hgood
          cases o <;> simp +decide at ho hgood
      rw [hvalue (.inr hgate), hvalue₃ (.inr hgate), hvalue₂ (.inr hgate), hvalue₁ (.inr hgate)]
      cases o with
      | add =>
        rw [if_pos (by decide)]
        exact ⟨by rw [← hequality (.inr hgate)]; rfl, Field.reduce_canonical _⟩
      | sub =>
        rw [if_neg (by decide), if_pos (by decide)]
        exact ⟨by rw [← hequality (.inr hgate)]; rfl, Field.reduce_canonical _⟩
      | mul =>
        rw [if_neg (by decide), if_neg (by decide), if_pos (by decide)]
        exact ⟨by simp [times, hxsure, hysure], Field.reduce_canonical _⟩
      | div =>
        rw [if_neg (by decide), if_neg (by decide), if_neg (by decide), if_pos (by decide)]
        obtain ⟨hsure, hcanonical⟩ := hquotient (by simpa +decide [hare] using hdivided)
        exact ⟨hsure.trans hxsure, hcanonical⟩
      | rem =>
        rw [if_neg (by decide), if_neg (by decide), if_neg (by decide), if_neg (by decide)]
        rw [hisBad, hare] at hgood
        obtain ⟨hsure, hcanonical⟩ := hremainder hgate (by
          simp +decide [hare] at hgood hdivided ⊢
          exact ⟨hgood, hdivided⟩)
        exact ⟨hsure.trans (hremSigned hgate (by decide)), hcanonical⟩
      | _ => exact absurd ho (by decide)
    -- A comparison knows the signs that it needs.
    have hcompared (ho : o ∈ BinaryOp.same :: comparisonOps) : Reliable W₂.store isTrue := by
      rw [hisTrue (.inr ⟨hgate, fun h => hsigned hgate ?_⟩)]
      · exact reliable_certain (holds_truth hsound₂ _)
      · cases o <;> simp +decide at ho h ⊢
    cases o with
    | cons =>
      rw [if_pos (by decide)]
      exact (hpair hgate (by decide)).extends hext₂
    | hide =>
      rw [if_neg (by decide), if_pos (by decide)]
      refine hcommitment hgate ?_
      simpa +decide [hisBad] using hgood
    | add | sub | mul | div | rem =>
      rw [if_neg (by decide), if_neg (by decide), if_pos (by decide)]
      exact reliable_carrying _ .number rfl (hnumber (by decide)).1 (hnumber (by decide)).2
    | equal | less | greater | atMost | atLeast | same =>
      rw [if_neg (by decide), if_neg (by decide), if_neg (by decide)]
      exact hcompared (by decide)
  rw [failWith_eq, pure_bind]
  have henv := hread.env.extends (hext.trans hext')
  refine yields_outcome hok (fun hgate => hgate) (fun hgate h => ?_) fun hgate h => ?_
  · exact ⟨hthunk hgate h, henv, (hread.child3.reliable (hlive hgate)).extends (hext.trans hext'),
      false, rfl⟩
  · refine concluded_failWith henv ?_
    rw [hcode (.inr hgate), hreason (.inr hgate)]
    split
    · split <;> exact ⟨_, rfl⟩
    · exact ⟨_, rfl⟩

/-! ## All rules -/

/-- Rules that look at the children of the continuation. -/
def opens : ContRule → Bool
  | .pass | .outermost | .invalidCont => false
  | _ => true

theorem live_of_firing {cont : Pointer} {rule : ContRule} (hrule : rule = firing returns cont)
    (h : opens rule = true) : (returns && Tag.frames.contains cont.tag) = true := by
  subst hrule
  unfold firing at h
  cases returns with
  | false => cases h
  | true =>
    generalize cont.tag = tag at h
    cases tag <;> first | rfl | cases h

/-- No rule is stuck, and the selected one has a reliable outcome. -/
theorem yields_run (rule : ContRule) (hproper : c.Proper) (hsound : W.store.Sound)
    (hread : s.Read c.honest W.store returns)
    (hfires : c.gate = true → rule = firing returns s.cont.value)
    (hsigned : rule = .binary2 → c.gate = true →
      among (formOf? s.child0.value) (signedOps.map Form.binary) = true → c.signs = true) :
    (run rule s : MarkM c _).Yields W (Concludes c) := by
  have hlive (h : opens rule = true) (hgate : c.gate = true) := live_of_firing (hfires hgate) h
  cases rule with
  | pass => exact yields_pure.2 fun _ => ⟨hread.value, hread.env, hread.cont, false, rfl⟩
  | outermost =>
    exact yields_pure.2 fun _ =>
      ⟨hread.value, hread.env, reliable_immediate _ .terminal 0 rfl, false, rfl⟩
  | call0 => exact yields_call0 hproper hsound hread (hlive rfl)
  | call => exact yields_call hsound hread (hlive rfl)
  | call2 => exact yields_call2 hproper hsound hread (hlive rfl)
  | bindLet => exact yields_binding rfl hsound hread (hlive rfl)
  | bindRec => exact yields_binding rfl hsound hread (hlive rfl)
  | branch => exact yields_branch hread (hlive rfl)
  | unary => exact yields_unary hproper hsound hread (hlive rfl)
  | binary => exact yields_binary hsound hread (hlive rfl)
  | binary2 => exact yields_binary2 hsound hread (hlive rfl) hproper.signs (hsigned rfl)
  | invalidCont => exact yields_pure.2 fun _ => concluded_fail hread.env _

end ContPhase

end FieldLisp
