import FieldLisp.Proofs.Machine.EvalReading
import FieldLisp.Proofs.Machine.Knowledge

/-!
# Outcomes of the evaluation phase

No rule of the phase is stuck, whether it is the selected one or not, and the outcome of the selected
one is sure:

* `Concludes`: all parts of an outcome are reliable, if the rule is selected;
* `EvalPhase.yields_run`: the statement for all rules. What is left over in a slot may decide on the
  body of a lambda without parameters, so there it asks for more.
-/

namespace FieldLisp

open StepModel MarkM

/-- All parts of an outcome are reliable. -/
structure Step.Concluded (x : Step (Marked Int) MarkedPointer) (s : Store) : Prop where
  expr : Reliable s x.expr
  env : Reliable s x.env
  cont : Reliable s x.cont
  ret : ∃ v, x.ret = .bit true v

/-- The outcome is certain if the rule is selected. -/
def Concludes (c : Setting) (x : Step (Marked Int) MarkedPointer) (W : MarkWorld) : Prop :=
  c.gate = true → x.Concluded W.store

theorem concluded_fail {s : Store} {env : MarkedPointer} (h : Reliable s env) (code : ErrorCode) :
    (Step.fail env code : Step (Marked Int) MarkedPointer).Concluded s where
  expr := reliable_immediate s .error code.value rfl
  env := h
  cont := reliable_immediate s .failed 0 rfl
  ret := ⟨false, rfl⟩

/-- The last line of a rule: it succeeds with an outcome, or fails. -/
theorem yields_outcome {c : Setting} {W : MarkWorld} {known : Prop} {v : Bool} {x : Marked Int}
    {a b : Step (Marked Int) MarkedPointer} (hx : Flag c known v x) (hknown : c.gate = true → known)
    (ha : c.gate = true → v = true → a.Concluded W.store)
    (hb : c.gate = true → v = false → b.Concluded W.store) :
    (Step.choose x a b : MarkM c _).Yields W (Concludes c) := by
  rw [← bind_pure (Step.choose x a b)]
  refine yields_choose hx fun r hr => yields_pure.2 fun hgate => ?_
  rw [hr (.inr (hknown hgate))]
  cases hv : v with
  | true => exact ha hgate hv
  | false => exact hb hgate hv

/-- A part is sure where it is there. -/
theorem MarkM.Part.sees {c : Setting} {s : Store} {present : Bool} {p : MarkedPointer} {known : Prop}
    (h : Part c.honest s present p) (hknown : known → present = true) : Sees c known p
  | .inl hhonest => h.honest hhonest
  | .inr hk => h.sure (hknown hk)

namespace EvalPhase

variable {c : Setting} {W : MarkWorld} {s : Scope (Marked Int) MarkedPointer}

theorem yields_thunk (hproper : c.Proper) (hsound : W.store.Sound) (hread : s.Read c.honest W.store)
    (hlive : c.gate = true → s.expr.value.tag = .thunk) :
    (thunk s : MarkM c _).Yields W (Concludes c) := by
  unfold thunk
  rw [yields_bind]
  refine yields_unhash2 hproper hsound admits_none (fun hon => ?_) fun value rest W' hW' _ hvalue _ =>
    yields_pure.2 fun hgate => ?_
  · rw [on_none] at hon
    exact ⟨hread.expr, by rw [hlive hon]; rfl⟩
  · rw [hW'.store]
    exact ⟨hvalue.reliable (on_none.trans hgate), hread.env, hread.cont, true, rfl⟩

theorem yields_quote (hread : s.Read c.honest W.store) :
    (quote s : MarkM c _).Yields W (Concludes c) := by
  unfold quote
  rw [hread.oneArgument]
  refine yields_outcome (flag_bit _) (fun _ => trivial) (fun _ h => ?_) fun _ _ =>
    concluded_fail hread.env _
  exact ⟨hread.a1.reliable (Bool.and_eq_true_iff.1 h).1, hread.env, hread.cont, true, rfl⟩

theorem yields_cond (hsound : W.store.Sound) (hread : s.Read c.honest W.store) :
    (cond s : MarkM c _).Yields W (Concludes c) := by
  unfold cond
  dsimp only
  rw [hread.threeArguments]
  have hok : Flag c True _ _ := flag_bit (s.tail2.value.tag == .cons && s.tail3.value.tag == .nil)
  have harguments (h : (s.tail2.value.tag == .cons && s.tail3.value.tag == .nil) = true) :
      Reliable W.store s.a1 ∧ Reliable W.store s.a2 ∧ Reliable W.store s.a3 := by
    have htail2 := (Bool.and_eq_true_iff.1 h).1
    have htail1 := hread.tail2.isThere (beq_iff_eq.1 htail2) nofun
    have harguments := hread.tail1.isThere (beq_iff_eq.1 htail1) nofun
    exact ⟨hread.a1.reliable harguments, hread.a2.reliable htail1, hread.a3.reliable htail2⟩
  refine yields_hashTag_if hsound rfl hok (fun _ _ => trivial) (fun _ h => ?_)
    fun cont W' _ hext hcont => ?_
  · obtain ⟨_, ha2, ha3⟩ := harguments h
    simp [ha2, ha3, hread.env, hread.cont]
  · refine yields_outcome hok (fun _ => trivial) (fun hgate h => ?_) fun _ _ =>
      concluded_fail (hread.env.extends hext) _
    exact ⟨(harguments h).1.extends hext, hread.env.extends hext, hcont hgate h, false, rfl⟩

theorem Scope.Read.reliable_two {honest : Bool} {store : Store} (h : s.Read honest store)
    (htwo : (s.tail1.value.tag == .cons && s.tail2.value.tag == .nil) = true) :
    s.arguments.value.tag = .cons ∧ Reliable store s.a1 ∧ Reliable store s.a2 := by
  have htail1 := (Bool.and_eq_true_iff.1 htwo).1
  have harguments := h.tail1.isThere (beq_iff_eq.1 htail1) nofun
  exact ⟨beq_iff_eq.1 harguments, h.a1.reliable harguments, h.a2.reliable htail1⟩

theorem yields_unary (hsound : W.store.Sound) (hread : s.Read c.honest W.store)
    (hlive : c.gate = true → s.expr.value.tag = .cons) :
    (unary s : MarkM c _).Yields W (Concludes c) := by
  unfold unary
  dsimp only
  rw [hread.oneArgument]
  have hok : Flag c True _ _ := flag_bit (s.arguments.value.tag == .cons && s.tail1.value.tag == .nil)
  refine yields_hashTag_if hsound rfl hok (fun _ _ => trivial) (fun hgate h => ?_)
    fun cont W' _ hext hcont => ?_
  · have hhead := hread.head.reliable (beq_iff_eq.2 (hlive hgate))
    simp [hhead, hread.cont, reliable_nil]
  · refine yields_outcome hok (fun _ => trivial) (fun hgate h => ?_) fun _ _ =>
      concluded_fail (hread.env.extends hext) _
    exact ⟨(hread.a1.reliable (Bool.and_eq_true_iff.1 h).1).extends hext, hread.env.extends hext,
      hcont hgate h, false, rfl⟩

theorem yields_binary (hsound : W.store.Sound) (hread : s.Read c.honest W.store)
    (hlive : c.gate = true → s.expr.value.tag = .cons) :
    (binary s : MarkM c _).Yields W (Concludes c) := by
  unfold binary
  dsimp only
  rw [hread.twoArguments]
  have hok : Flag c True _ _ := flag_bit (s.tail1.value.tag == .cons && s.tail2.value.tag == .nil)
  refine yields_hashTag_if hsound rfl hok (fun _ _ => trivial) (fun hgate h => ?_)
    fun cont W' _ hext hcont => ?_
  · have hhead := hread.head.reliable (beq_iff_eq.2 (hlive hgate))
    simp [hhead, (hread.reliable_two h).2.2, hread.env, hread.cont]
  · refine yields_outcome hok (fun _ => trivial) (fun hgate h => ?_) fun _ _ =>
      concluded_fail (hread.env.extends hext) _
    exact ⟨(hread.reliable_two h).2.1.extends hext, hread.env.extends hext, hcont hgate h, false, rfl⟩

theorem yields_apply (hsound : W.store.Sound) (hread : s.Read c.honest W.store)
    (hlive : c.gate = true → s.expr.value.tag = .cons) :
    (apply s : MarkM c _).Yields W (Concludes c) := by
  unfold apply
  dsimp only
  rw [hread.noArgument]
  generalize hbare : (s.expr.value.tag == .cons && s.arguments.value.tag == .nil) = bare
  have hflag : Flag c True bare (.bit true bare) := flag_bit bare
  have hsees : Sees c (s.expr.value.tag = .cons) s.arguments := hread.arguments.sees beq_iff_eq.2
  have hexclusive : (bare && s.arguments.value.tag == .cons) = false := by
    rw [← hbare, Bool.and_assoc, tags_exclusive _ .nil .cons nofun, Bool.and_false]
  refine yields_tagIs hsees fun isPair hpair => ?_
  have hok := hflag.oneOf hpair hexclusive
  refine yields_select hflag fun number hnumber => ?_
  refine yields_selectPointer hflag fun first hfirst => ?_
  refine yields_selectPointer hflag fun second hsecond => ?_
  refine yields_selectPointer hflag fun third hthird => ?_
  rw [hnumber (.inr trivial), hfirst (.inr trivial), hsecond (.inr trivial), hthird (.inr trivial)]
  refine yields_hash_if (if bare then .call0 else .call) hsound hok
    (fun hgate _ => ⟨trivial, hlive hgate⟩) (fun hgate h => ?_) fun cont W' _ hext hcont => ?_
  · cases hcase : bare with
    | true =>
      refine ⟨rfl, rfl, rfl, ?_⟩
      simp [hread.env, hread.cont, reliable_nil]
    | false =>
      rw [hcase, Bool.false_or] at h
      refine ⟨rfl, rfl, rfl, ?_⟩
      simp [hread.env, hread.cont, hread.a1.reliable h, hread.tail1.reliable h]
  · refine yields_outcome hok (fun hgate => ⟨trivial, hlive hgate⟩) (fun hgate h => ?_) fun _ _ =>
      concluded_fail (hread.env.extends hext) _
    exact ⟨(hread.head.reliable (beq_iff_eq.2 (hlive hgate))).extends hext, hread.env.extends hext,
      hcont hgate h, false, rfl⟩

/-! ## Lambdas -/

/-- A lambda without parameters looks at a slot that is switched off. It is fine if the witness is
honest, or known to leave no pair there. -/
def Closes (c : Setting) (W : MarkWorld) (s : Scope (Marked Int) MarkedPointer) : Prop :=
  (c.honest = true ∧ W.store.Holds ((c.fill (W.key 2)).getD 1 .nil)) ∨
    c.sealed (W.key 2) 1 = true ∨ (s.arguments.value.tag = .cons → s.a1.value.tag ≠ .nil)

theorem yields_lambda (hproper : c.Proper) (hsound : W.store.Sound)
    (hread : s.Read c.honest W.store) (hcloses : c.gate = true → Closes c W s) :
    (lambda s : MarkM c _).Yields W (Concludes c) := by
  unfold lambda
  unfold Closes at hcloses
  dsimp only
  have ha1 : Sees c (s.arguments.value.tag = .cons) s.a1 := hread.a1.sees beq_iff_eq.2
  refine yields_tagIs ha1 fun noParameters hnone => ?_
  refine yields_tagIs ha1 fun hasParameters hsome => ?_
  refine yields_unhash2_if hproper hsound hsome
    (fun _ h => beq_iff_eq.1 (hread.a1.isThere (beq_iff_eq.1 h) nofun))
    (fun _ h => ⟨hread.a1.reliable_of_tag (beq_iff_eq.1 h) nofun, by rw [beq_iff_eq.1 h]; rfl⟩)
    fun first more W₁ hW₁ hfirst hmore => ?_
  rw [← hW₁] at hsound hread hfirst hmore hcloses
  dsimp only
  -- Whether more parameters follow is read off a child that is there only if there are parameters.
  have hdecided : c.honest = true ∨ (c.gate = true ∧
      (s.a1.value.tag = .cons ∨ c.honest = true ∨ c.sealed (W.key 2) 1 = true)) →
      (more.sure || more.notPair) = true := by
    rintro (h | ⟨hgate, h | h | h⟩)
    · rw [hmore.sees (.inl h), Bool.true_or]
    · rw [(hmore.get hgate (beq_iff_eq.2 h)).sure, Bool.true_or]
    · rw [hmore.sees (.inl h), Bool.true_or]
    · cases hpair : s.a1.value.tag == .cons with
      | true => rw [(hmore.get hgate hpair).sure, Bool.true_or]
      | false => rw [hmore.eq (by rw [hpair, Bool.and_false]), h, Bool.or_true]
  refine yields_isCons hdecided fun curried hcurried => ?_
  refine yields_tagIs hmore.sees fun ending hending => ?_
  have hlist := hcurried.oneOf hending (tags_exclusive _ .cons .nil nofun)
  refine yields_tagIs hfirst.sees fun isSymbol hsymbol => ?_
  refine yields_both_cons hsome hsymbol fun named hnamed => ?_
  refine yields_both hnamed hlist fun named hnamed => ?_
  rw [hread.twoArguments]
  have hexclusive : (s.a1.value.tag == .nil && (s.a1.value.tag == .cons &&
      first.value.tag == .symbol && (more.value.tag == .cons || more.value.tag == .nil))) = false := by
    rw [Bool.and_assoc, ← Bool.and_assoc, tags_exclusive _ .nil .cons nofun, Bool.false_and]
  refine yields_both (flag_bit _) (hnone.oneOf hnamed hexclusive) fun ok hok => ?_
  replace hok := hok.mono (c.gate = true) fun hgate => ⟨trivial, fun htwo =>
    have hpresent := (hread.reliable_two htwo).1
    ⟨hpresent, ⟨hpresent, fun h => ⟨hgate, h⟩⟩, fun h =>
      have hpair := (Bool.and_eq_true_iff.1 h).1
      ⟨⟨hgate, .inl (beq_iff_eq.1 hpair)⟩, hgate, hpair⟩⟩⟩
  obtain ⟨isOk, hisOk⟩ : ∃ isOk, isOk = (s.tail1.value.tag == .cons && s.tail2.value.tag == .nil &&
      (s.a1.value.tag == .nil || s.a1.value.tag == .cons && first.value.tag == .symbol &&
        (more.value.tag == .cons || more.value.tag == .nil))) := ⟨_, rfl⟩
  rw [← hisOk] at hok
  have hcases (h : isOk = true) : s.arguments.value.tag = .cons ∧ Reliable W₁.store s.a2 ∧
      (s.a1.value.tag = .nil ∨ s.a1.value.tag = .cons) := by
    obtain ⟨htwo, hcase⟩ := Bool.and_eq_true_iff.1 (hisOk ▸ h)
    obtain ⟨hpresent, _, ha2⟩ := hread.reliable_two htwo
    simp only [Bool.or_eq_true, Bool.and_eq_true, beq_iff_eq] at hcase
    exact ⟨hpresent, ha2, hcase.imp_right fun h => h.1.1⟩
  have hknown (hgate : c.gate = true) (h : isOk = true) : c.gate = true ∧
      (s.a1.value.tag = .cons ∨ c.honest = true ∨ c.sealed (W.key 2) 1 = true) := by
    obtain ⟨hpresent, _, hnil | hcons⟩ := hcases h
    · rcases hcloses hgate with h | h | h
      · exact ⟨hgate, .inr (.inl h.1)⟩
      · exact ⟨hgate, .inr (.inr h)⟩
      · exact absurd hnil (h hpresent)
    · exact ⟨hgate, .inl hcons⟩
  have hheld (hgate : c.gate = true) (h : isOk = true) (hpair : (more.value.tag == .cons) = true) :
      Reliable W₁.store more := by
    obtain ⟨hpresent, _, hnil | hcons⟩ := hcases h
    · have hmore := hmore.eq (by rw [hnil]; exact Bool.and_false _)
      rcases hcloses hgate with ⟨hhonest, hheld⟩ | hsealed | h
      · exact ⟨by rw [hmore, hhonest], by rw [hmore]; exact hheld⟩
      · rw [hmore] at hpair
        exact absurd (beq_iff_eq.1 hpair) (hproper.getD_sealed hsealed)
      · exact absurd hnil (h hpresent)
    · exact hmore.get hgate (beq_iff_eq.2 hcons)
  refine yields_both hok hcurried fun chained hchained => ?_
  refine yields_buildList_if hsound hchained (fun hgate _ => ⟨hgate, hknown hgate⟩)
    (fun hgate h => ?_) fun inner W₂ hsound' hext hinner => ?_
  · rw [Bool.and_eq_true] at h
    simp [hheld hgate h.1 h.2, (hcases h.1).2.1, reliable_certain (hsound.holds_symbol _)]
  refine yields_selectPointer hnone fun parameter hparameter => ?_
  refine yields_selectPointer hcurried fun body hbody => ?_
  refine yields_hashTag_if hsound' rfl hok (fun hgate _ => hgate) (fun hgate h => ?_)
    fun function W₃ _ hext' hfunction => ?_
  · obtain ⟨hpresent, ha2, hcase⟩ := hcases h
    have hparameter' : Reliable W₂.store parameter := by
      rw [hparameter (.inr hpresent)]
      rcases hcase with hnil | hcons
      · rw [if_pos (beq_iff_eq.2 hnil)]
        exact reliable_certain (hsound'.holds_builtin (by decide))
      · rw [if_neg (by rw [hcons]; nofun)]
        exact (hfirst.get hgate (beq_iff_eq.2 hcons)).extends hext
    have hbody' : Reliable W₂.store body := by
      rw [hbody (.inr (hknown hgate h))]
      split
      · rename_i hpair
        exact hinner hgate (by rw [h, hpair]; rfl)
      · exact ha2.extends hext
    simp [hparameter', hbody', hread.env.extends hext]
  · refine yields_outcome hok (fun hgate => hgate) (fun hgate h => ?_) fun _ _ =>
      concluded_fail (hread.env.extends (hext.trans hext')) _
    exact ⟨hfunction hgate h, hread.env.extends (hext.trans hext'),
      hread.cont.extends (hext.trans hext'), true, rfl⟩

/-! ## Bindings -/

theorem yields_binding {tag : Tag} (htag : tag.arity? = some 4) (hproper : c.Proper)
    (hsound : W.store.Sound) (hread : s.Read c.honest W.store)
    (hlive : c.gate = true → s.expr.value.tag = .cons) :
    (binding tag s : MarkM c _).Yields W (Concludes c) := by
  unfold binding
  dsimp only
  have ha1 : Sees c (s.arguments.value.tag = .cons) s.a1 := hread.a1.sees beq_iff_eq.2
  have hpresent (h : (s.a1.value.tag == .cons) = true) : s.arguments.value.tag = .cons :=
    beq_iff_eq.1 (hread.a1.isThere (beq_iff_eq.1 h) nofun)
  refine yields_tagIs ha1 fun empty hempty => ?_
  refine yields_tagIs ha1 fun nonempty hnonempty => ?_
  refine yields_unhash2_if hproper hsound hnonempty (fun _ => hpresent)
    (fun _ h => ⟨hread.a1.reliable_of_tag (beq_iff_eq.1 h) nofun, by rw [beq_iff_eq.1 h]; rfl⟩)
    fun binding rest W₁ hW₁ hbinding hrest => ?_
  rw [← hW₁] at hsound hread hbinding hrest
  dsimp only
  refine yields_tagIs hbinding.sees fun isPair hpair => ?_
  refine yields_both hnonempty hpair fun b1 hb1 => ?_
  obtain ⟨v1, hv1⟩ : ∃ v1, v1 = (s.a1.value.tag == .cons && binding.value.tag == .cons) := ⟨_, rfl⟩
  rw [← hv1] at hb1
  have hv1cons (h : v1 = true) : (s.a1.value.tag == .cons) = true ∧ binding.value.tag = .cons := by
    rw [hv1, Bool.and_eq_true, beq_iff_eq (a := binding.value.tag)] at h
    exact h
  replace hb1 := hb1.mono (c.gate = true ∧ s.arguments.value.tag = .cons)
    fun h => ⟨h.2, fun hcons => ⟨h.1, hcons⟩⟩
  refine yields_unhash2_if hproper hsound hb1 (fun hgate h => ⟨hgate, hpresent (hv1cons h).1⟩)
    (fun hgate h => ⟨hbinding.get hgate (hv1cons h).1, by rw [(hv1cons h).2]; rfl⟩)
    fun var varTail W₂ hW₂ hvar hvarTail => ?_
  rw [← hW₂] at hsound hread hrest hvar hvarTail
  dsimp only
  refine yields_tagIs hvarTail.sees fun isPair' hpair' => ?_
  refine yields_both hb1 hpair' fun b2 hb2 => ?_
  obtain ⟨v2, hv2⟩ : ∃ v2, v2 = (v1 && varTail.value.tag == .cons) := ⟨_, rfl⟩
  rw [← hv2] at hb2
  have hv2cons (h : v2 = true) : v1 = true ∧ varTail.value.tag = .cons := by
    rw [hv2, Bool.and_eq_true, beq_iff_eq] at h
    exact h
  replace hb2 := hb2.mono (c.gate = true ∧ s.arguments.value.tag = .cons)
    fun h => ⟨h, fun hv1 => ⟨h.1, hv1⟩⟩
  refine yields_unhash2_if hproper hsound hb2
    (fun hgate h => ⟨hgate, hpresent (hv1cons (hv2cons h).1).1⟩)
    (fun hgate h => ⟨hvarTail.get hgate (hv2cons h).1, by rw [(hv2cons h).2]; rfl⟩)
    fun init ending W₃ hW₃ hinit hending => ?_
  rw [← hW₃] at hsound hread hrest hvar hinit
  dsimp only
  refine yields_tagIs hrest.sees fun more hmore => ?_
  refine yields_tagIs hvar.sees fun isSymbol hsymbol => ?_
  refine yields_tagIs hending.sees fun isEnd hend => ?_
  refine yields_tagIs hrest.sees fun noMore hnoMore => ?_
  have hlist := hmore.oneOf hnoMore (tags_exclusive _ .cons .nil nofun)
  refine yields_both_cons hb2 hsymbol fun _ hwell => ?_
  refine yields_both_cons hwell hend fun _ hwell => ?_
  refine yields_both hwell hlist fun wellFormed hwell => ?_
  obtain ⟨well, hwellDef⟩ : ∃ well, well = (v2 && var.value.tag == .symbol &&
      ending.value.tag == .nil && (rest.value.tag == .cons || rest.value.tag == .nil)) := ⟨_, rfl⟩
  rw [← hwellDef] at hwell
  have hwellPair (h : well = true) : v2 = true := by
    simp only [hwellDef, Bool.and_eq_true] at h
    exact h.1.1.1
  replace hwell := hwell.mono (c.gate = true ∧ s.arguments.value.tag = .cons) fun h => by
    refine ⟨⟨⟨h, fun hv2 => ⟨h.1, (hv2cons hv2).1⟩⟩, fun hsym => ⟨h.1, ?_⟩⟩, fun hend =>
      ⟨⟨h.1, ?_⟩, h.1, ?_⟩⟩
    · exact (Bool.and_eq_true_iff.1 hsym).1
    all_goals exact (hv1cons (hv2cons (Bool.and_eq_true_iff.1 (Bool.and_eq_true_iff.1 hend).1).1).1).1
  have hexclusive : (s.a1.value.tag == .nil && well) = false := by
    cases hcase : well with
    | false => exact Bool.and_false _
    | true =>
      have := tags_exclusive s.a1.value .nil .cons nofun
      rwa [(hv1cons (hv2cons (hwellPair hcase)).1).1] at this
  rw [hread.twoArguments]
  refine yields_both (flag_bit _) (hempty.oneOf hwell hexclusive) fun ok hok => ?_
  obtain ⟨isOk, hisOk⟩ : ∃ isOk, isOk = (s.tail1.value.tag == .cons && s.tail2.value.tag == .nil &&
      (s.a1.value.tag == .nil || well)) := ⟨_, rfl⟩
  rw [← hisOk] at hok
  replace hok := hok.mono (c.gate = true) fun hgate => ⟨trivial, fun htwo =>
    have hpresent := (hread.reliable_two htwo).1
    ⟨hpresent, hgate, hpresent⟩⟩
  have hcases (h : isOk = true) : s.arguments.value.tag = .cons ∧ Reliable W₃.store s.a2 ∧
      ((s.a1.value.tag == .nil) = true ∨ v2 = true) := by
    obtain ⟨htwo, hcase⟩ := Bool.and_eq_true_iff.1 (hisOk ▸ h)
    obtain ⟨hpresent, _, ha2⟩ := hread.reliable_two htwo
    exact ⟨hpresent, ha2, (Bool.or_eq_true_iff.1 hcase).imp_right hwellPair⟩
  refine yields_both hok hempty.no fun binds hbinds => ?_
  replace hbinds := hbinds.mono (c.gate = true) fun hgate =>
    ⟨hgate, fun h => (hcases h).1⟩
  obtain ⟨isBound, hisBound⟩ : ∃ b, b = (isOk && !(s.a1.value.tag == .nil)) := ⟨_, rfl⟩
  rw [← hisBound] at hbinds
  -- Where a binding is taken, all that it was taken apart from was there.
  have hbound (h : isBound = true) : isOk = true ∧ v2 = true := by
    rw [hisBound, Bool.and_eq_true, Bool.not_eq_true'] at h
    exact ⟨h.1, ((hcases h.1).2.2).resolve_left (by rw [h.2]; nofun)⟩
  have hpairs (h : isBound = true) : (s.a1.value.tag == .cons) = true :=
    (hv1cons (hv2cons (hbound h).2).1).1
  refine yields_both hbinds hmore fun chained hchained => ?_
  refine yields_buildList_if hsound hchained
    (fun hgate h => ⟨hgate, fun h => ⟨hgate, hpairs h⟩⟩) (fun hgate h => ?_)
    fun inner W₄ hsound' hext hinner => ?_
  · have hb := (Bool.and_eq_true_iff.1 h).1
    have hhead := hread.head.reliable (beq_iff_eq.2 (hlive hgate))
    simp [hhead, hrest.get hgate (hpairs hb), (hcases (hbound hb).1).2.1]
  refine yields_selectPointer hmore fun body hbody => ?_
  refine yields_hashTag_if hsound' htag hbinds (fun hgate _ => hgate) (fun hgate h => ?_)
    fun cont W₅ _ hext' hcont => ?_
  · have hbody' : Reliable W₄.store body := by
      rw [hbody (.inr ⟨hgate, hpairs h⟩)]
      split
      · rename_i hmore
        exact hinner hgate (by rw [h, hmore]; rfl)
      · exact (hcases (hbound h).1).2.1.extends hext
    have hvar' := (hvar.get hgate (hv2cons (hbound h).2).1).extends hext
    simp [hvar', hbody', hread.env.extends hext, hread.cont.extends hext]
  refine yields_choose hempty fun step hstep => ?_
  refine yields_outcome hok (fun hgate => hgate) (fun hgate h => ?_) fun _ _ =>
    concluded_fail (hread.env.extends (hext.trans hext')) _
  obtain ⟨hpresent, ha2, hcase⟩ := hcases h
  have henv := hread.env.extends (hext.trans hext')
  rw [hstep (.inr hpresent)]
  split
  · exact ⟨ha2.extends (hext.trans hext'), henv, hread.cont.extends (hext.trans hext'), false, rfl⟩
  · rename_i hnil
    have hbound : isBound = true := by
      rw [hisBound, h, Bool.true_and, Bool.not_eq_true']
      exact Bool.eq_false_iff.2 hnil
    exact ⟨(hinit.get hgate (hcase.resolve_left hnil)).extends (hext.trans hext'), henv,
      hcont hgate hbound, false, rfl⟩

/-! ## Lookup -/

/-- As long as a search goes on, the node to inspect next is reliable; it goes on at most until there
is a hit. What was found is reliable. -/
structure Searching (c : Setting) (s : Store) (goesOn isHit : Bool)
    (state : Search (Marked Int) MarkedPointer) : Prop where
  searching : Flag c (c.gate = true) goesOn state.searching
  hit : Flag c (c.gate = true) isHit state.hit
  exclusive : (isHit && goesOn) = false
  node : c.gate = true → goesOn = true → Reliable s state.node
  found : c.gate = true → Reliable s state.found ∧ Reliable s state.foundNode
  honest : c.honest = true →
    state.node.sure = true ∧ state.found.sure = true ∧ state.foundNode.sure = true

theorem Searching.sees {s : Store} {goesOn isHit : Bool}
    {state : Search (Marked Int) MarkedPointer} (h : Searching c s goesOn isHit state) :
    Sees c (c.gate = true ∧ goesOn = true) state.node
  | .inl hhonest => (h.honest hhonest).1
  | .inr ⟨hgate, hgoesOn⟩ => (h.node hgate hgoesOn).sure

theorem arity_of_env {tag : Tag} (h : Tag.envs.contains tag = true) : tag.arity? = some 3 := by
  cases tag <;> first | rfl | cases h

theorem yields_search (hproper : c.Proper) {sought : MarkedPointer} (hsought : sought.sure = true)
    (depth : ℕ) {state : Search (Marked Int) MarkedPointer} (goesOn isHit : Bool)
    (hsound : W.store.Sound) (hstate : Searching c W.store goesOn isHit state) :
    (search sought depth state : MarkM c _).Yields W fun result W' =>
      W'.store = W.store ∧ ∃ goesOn isHit, Searching c W.store goesOn isHit result := by
  induction depth generalizing W state goesOn isHit with
  | zero => exact yields_pure.2 ⟨rfl, goesOn, isHit, hstate⟩
  | succ depth ih =>
    unfold search
    refine yields_tagIn (by decide) (by decide) (by decide) (by decide) hstate.sees fun isEnv henv => ?_
    refine yields_both hstate.searching henv fun active hactive => ?_
    obtain ⟨isActive, hisActive⟩ : ∃ b, b = (goesOn && Tag.envs.contains state.node.value.tag) :=
      ⟨_, rfl⟩
    rw [← hisActive] at hactive
    replace hactive := hactive.mono (c.gate = true) fun hgate => ⟨hgate, fun h => ⟨hgate, h⟩⟩
    have hinspects (h : isActive = true) :
        goesOn = true ∧ Tag.envs.contains state.node.value.tag = true :=
      Bool.and_eq_true_iff.1 (hisActive ▸ h)
    refine yields_unhash3_if hproper hsound hactive (fun hgate _ => hgate)
      (fun hgate h => ⟨hstate.node hgate (hinspects h).1, arity_of_env (hinspects h).2⟩)
      fun var val parent W₁ hW₁ hvar hval hparent => ?_
    rw [← hW₁] at hsound hstate hvar hval hparent ⊢
    dsimp only
    refine yields_pointerEq hvar.sees hsought fun same hsame => ?_
    refine yields_both hactive hsame fun matched hmatched => ?_
    obtain ⟨isMatched, hisMatched⟩ : ∃ b, b = (isActive && var.value == sought.value) := ⟨_, rfl⟩
    rw [← hisMatched] at hmatched
    replace hmatched := hmatched.mono (c.gate = true)
      fun hgate => ⟨hgate, fun h => ⟨hgate, h⟩⟩
    have hmatches (h : isMatched = true) : isActive = true :=
      (Bool.and_eq_true_iff.1 (hisMatched ▸ h)).1
    refine yields_selectPointer hmatched fun found hfound => ?_
    refine yields_selectPointer hmatched fun foundNode hfoundNode => ?_
    refine yields_both hactive hmatched.no fun searching hsearching => ?_
    have hexclusive : (isHit && isMatched) = false := by
      cases hcase : isMatched with
      | false => exact Bool.and_false _
      | true =>
        have := hstate.exclusive
        rwa [(hinspects (hmatches hcase)).1] at this
    refine ih (isActive && !isMatched) (isHit || isMatched) hsound
      ⟨hsearching.mono _ fun hgate => ⟨hgate, fun _ => hgate⟩,
        (hstate.hit.oneOf hmatched hexclusive).mono _ fun hgate => ⟨hgate, hgate⟩, ?_, ?_, ?_, ?_⟩
    · refine Bool.eq_false_iff.2 fun h => ?_
      simp only [Bool.and_eq_true, Bool.or_eq_true, Bool.not_eq_true'] at h
      obtain ⟨hhit | hmatch, hgoesOn, hunmatched⟩ := h
      · have := hstate.exclusive
        rw [hhit, (hinspects hgoesOn).1] at this
        cases this
      · rw [hmatch] at hunmatched
        cases hunmatched
    · exact fun hgate h => hparent.get hgate (Bool.and_eq_true_iff.1 h).1
    · intro hgate
      rw [hfound (.inr hgate), hfoundNode (.inr hgate)]
      split
      · rename_i h
        exact ⟨hval.get hgate (hmatches h), hstate.node hgate (hinspects (hmatches h)).1⟩
      · exact hstate.found hgate
    · intro hhonest
      rw [hfound (.inl hhonest), hfoundNode (.inl hhonest)]
      refine ⟨hparent.sees (.inl hhonest), ?_⟩
      split
      · exact ⟨hval.sees (.inl hhonest), (hstate.honest hhonest).1⟩
      · exact (hstate.honest hhonest).2

theorem yields_lookup (depth : ℕ) (hproper : c.Proper) (hsound : W.store.Sound)
    (hread : s.Read c.honest W.store) : (lookup depth s : MarkM c _).Yields W (Concludes c) := by
  unfold lookup
  have hstart : Searching c W.store true false
      (⟨s.env, lit 1, lit 0, ptr .nil, ptr .nil⟩ : Search (Marked Int) MarkedPointer) :=
    ⟨(flag_bit true).mono _ fun _ => trivial, (flag_bit false).mono _ fun _ => trivial, rfl,
      fun _ _ => hread.env, fun _ => ⟨reliable_nil _, reliable_nil _⟩,
      fun _ => ⟨hread.env.sure, rfl, rfl⟩⟩
  refine yields_bind.2 ((yields_search hproper hread.expr.sure depth _ _ hsound hstart).mono ?_)
  rintro result W₁ ⟨hW₁, goesOn, isHit, hresult⟩
  rw [← hW₁] at hsound hread hresult
  have hfoundNode : Sees c (c.gate = true) result.foundNode := fun h =>
    h.elim (fun hhonest => (hresult.honest hhonest).2.2) fun hgate => (hresult.found hgate).2.sure
  have hfound : Sees c (c.gate = true) result.found := fun h =>
    h.elim (fun hhonest => (hresult.honest hhonest).2.1) fun hgate => (hresult.found hgate).1.sure
  refine yields_tagIs hfoundNode fun isRec hrec => ?_
  refine yields_tagIs hfound fun isFunction hfunction => ?_
  refine yields_both_cons hresult.hit hrec fun _ hboth => ?_
  refine yields_both hboth hfunction fun reclose hreclose => ?_
  replace hreclose := hreclose.mono (c.gate = true)
    fun hgate => ⟨⟨hgate, fun _ => hgate⟩, fun _ => hgate⟩
  refine yields_unhash3_if hproper hsound hreclose (fun hgate _ => hgate) (fun hgate h =>
      ⟨(hresult.found hgate).1, by rw [beq_iff_eq.1 (Bool.and_eq_true_iff.1 h).2]; rfl⟩)
    fun parameter body _ W₂ hW₂ hparameter hbody _ => ?_
  rw [← hW₂] at hsound hread hresult hparameter hbody
  dsimp only
  refine yields_hashTag_if hsound rfl hreclose (fun hgate _ => hgate) (fun hgate h => ?_)
    fun closure W₃ _ hext hclosure => ?_
  · simp [hparameter.get hgate h, hbody.get hgate h, (hresult.found hgate).2]
  refine yields_selectPointer hreclose fun value hvalue => ?_
  refine yields_tagIn (by decide) (by decide) (by decide) (by decide) hresult.sees
    fun isEnv henv => ?_
  refine yields_both hresult.searching henv fun exceeded hexceeded => ?_
  replace hexceeded := hexceeded.mono (c.gate = true) fun hgate => ⟨hgate, fun h => ⟨hgate, h⟩⟩
  refine yields_choose hexceeded fun failed hfailed => ?_
  have henv := hread.env.extends hext
  refine yields_outcome hresult.hit (fun hgate => hgate) (fun hgate _ => ?_) fun hgate _ => ?_
  · refine ⟨?_, henv, hread.cont.extends hext, true, rfl⟩
    rw [hvalue (.inr hgate)]
    split
    · rename_i h
      exact hclosure hgate h
    · exact (hresult.found hgate).1.extends hext
  · rw [hfailed (.inr hgate)]
    split <;> exact concluded_fail henv _

/-! ## All rules -/

/-- The tag of the expressions that a rule is for, if it is one. -/
def subject : EvalRule → Option Tag
  | .thunk => some .thunk
  | .lambda | .bindLet | .bindRec | .unary | .binary | .apply => some .cons
  | _ => none

theorem tag_of_firing {expr head cont : Pointer} {rule : EvalRule} {tag : Tag}
    (hrule : rule = firing expr head cont) (h : subject rule = some tag) : expr.tag = tag := by
  subst hrule
  unfold firing at h
  split_ifs at h with _ hcons _ hthunk
  · cases h
  · generalize formOf? head = form at h
    unfold formRule at h
    split at h <;> cases h <;> exact hcons
  · cases h
  · cases h
    exact hthunk
  · cases h
  · cases h

/-- No rule is stuck, and the selected one has a reliable outcome. -/
theorem yields_run (depth : ℕ) (rule : EvalRule) (hproper : c.Proper) (hsound : W.store.Sound)
    (hread : s.Read c.honest W.store)
    (hfires : c.gate = true → rule = firing s.expr.value s.head.value s.cont.value)
    (hcloses : rule = .lambda → c.gate = true → Closes c W s) :
    (run depth rule s : MarkM c _).Yields W (Concludes c) := by
  cases rule with
  | terminal => exact yields_pure.2 fun _ => ⟨hread.expr, hread.env, hread.cont, false, rfl⟩
  | selfEvaluating => exact yields_pure.2 fun _ => ⟨hread.expr, hread.env, hread.cont, true, rfl⟩
  | thunk => exact yields_thunk hproper hsound hread fun hgate => tag_of_firing (hfires hgate) rfl
  | lookup => exact yields_lookup depth hproper hsound hread
  | quote => exact yields_quote hread
  | lambda => exact yields_lambda hproper hsound hread (hcloses rfl)
  | cond => exact yields_cond hsound hread
  | bindLet => exact yields_binding rfl hproper hsound hread fun hgate => tag_of_firing (hfires hgate) rfl
  | bindRec => exact yields_binding rfl hproper hsound hread fun hgate => tag_of_firing (hfires hgate) rfl
  | unary => exact yields_unary hsound hread fun hgate => tag_of_firing (hfires hgate) rfl
  | binary => exact yields_binary hsound hread fun hgate => tag_of_firing (hfires hgate) rfl
  | apply => exact yields_apply hsound hread fun hgate => tag_of_firing (hfires hgate) rfl
  | invalidExpr => exact yields_pure.2 fun _ => concluded_fail hread.env _

end EvalPhase

end FieldLisp
