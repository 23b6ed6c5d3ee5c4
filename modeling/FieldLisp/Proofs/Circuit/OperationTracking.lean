import FieldLisp.Proofs.Circuit.Tracking

/-!
# Operations track the marked model

Each operation that rules are written in, except for those that use a hash slot, leads from values
that are tracked to values that are tracked.
-/

namespace FieldLisp

open FieldLisp.Field (Element)

section
variable {c : Setting} {ω₀ ω : Valuation} {known : List Int → Prop}

/-- What the circuit promises of an operation is what the operation tells. -/
theorem tells_ofCircuit {x : CircuitM α} (grows : Circuit.Grows x) {honest : Prop}
    {post : α → Prop} (h : Circuit.Meets ω₀ ω honest x post) (hhonest : c.honest = true → honest) :
    Tells c ω₀ ω known (.ofCircuit x grows) post := by
  intro s W a t hlawful hmatches hx hfits
  obtain ⟨circuit, hcircuit, rfl⟩ := Synthesis.onCircuit_eq_ok.1 hx
  obtain ⟨hkeep, hpost⟩ := h s.circuit a circuit hlawful.limit hcircuit hfits
  refine ⟨fun hc => hkeep (hhonest hc), fun hsat => ⟨hpost hsat, ?_, ?_⟩⟩
  · exact ⟨grows.limit_of_ok hlawful.limit hcircuit, hlawful.zeroTests, hlawful.slots⟩
  · exact ⟨hmatches.cursor, hmatches.sound, hmatches.ungated, hmatches.gated, hmatches.nodes,
      hmatches.free⟩

/-! ## Elements -/

theorem ElementTracks.value_eq {x : Combination} {a : Marked Int} (h : ElementTracks ω₀ ω x a)
    (hsure : a.sure = true) (hown : ω = ω₀) : x.value = a.value := by
  subst hown
  exact h.faithful.value_eq h.canonical (h.under_eq hsure)

theorem elementTracks_lit (n : Int) :
    ElementTracks ω₀ ω (StepModel.lit n) (StepModel.lit n) where
  faithful := .constant n
  canonical := Field.reduce_canonical n
  under_eq _ := (Combination.under_constant ω n).trans (Field.cast_reduce n).symm

theorem ElementTracks.add {x y : Combination} {a b : Marked Int} (hx : ElementTracks ω₀ ω x a)
    (hy : ElementTracks ω₀ ω y b) :
    ElementTracks ω₀ ω (ElementModel.add x y) (ElementModel.add a b) where
  faithful := hx.faithful.add hy.faithful
  canonical := Field.reduce_canonical _
  under_eq h := by
    obtain ⟨ha, hb⟩ := Bool.and_eq_true_iff.1 h
    change (x + y).under ω = (Field.reduce (a.value + b.value) : Int)
    simp [hx.under_eq ha, hy.under_eq hb]

theorem ElementTracks.sub {x y : Combination} {a b : Marked Int} (hx : ElementTracks ω₀ ω x a)
    (hy : ElementTracks ω₀ ω y b) :
    ElementTracks ω₀ ω (ElementModel.sub x y) (ElementModel.sub a b) where
  faithful := hx.faithful.sub hy.faithful
  canonical := Field.reduce_canonical _
  under_eq h := by
    obtain ⟨ha, hb⟩ := Bool.and_eq_true_iff.1 h
    change (x - y).under ω = (Field.reduce (a.value - b.value) : Int)
    simp [hx.under_eq ha, hy.under_eq hb]

/-- A flag is worth zero or one. -/
theorem elementTracks_bit {x : Combination} {sure value : Bool} (hx : x.Faithful ω₀)
    (h : sure = true → x.under ω = if value then 1 else 0) :
    ElementTracks ω₀ ω x (.bit sure value) where
  faithful := hx
  canonical := by
    cases value
    · exact Field.canonical_zero
    · exact Field.canonical_one
  under_eq hsure := by
    rw [h hsure]
    cases value <;> simp [Marked.bit, Workspace.bit]

theorem tells_mul (hjudges : c.Judges ω₀ ω known) {x y : Combination} (hx : x.Faithful ω₀)
    (hy : y.Faithful ω₀) : Tells c ω₀ ω known (.mul x y) fun z => z.Faithful ω₀ ∧
      z.value = Field.reduce (x.value * y.value) ∧ z.under ω = x.under ω * y.under ω :=
  tells_ofCircuit _ (Circuit.meets_mul hx hy) hjudges.honest

theorem tracks_mul (hjudges : c.Judges ω₀ ω known) {x y : Combination} {a b : Marked Int}
    (hx : ElementTracks ω₀ ω x a) (hy : ElementTracks ω₀ ω y b) :
    Tracks c ω₀ ω known (ElementTracks ω₀ ω) (.mul x y) (pure (MarkM.times a b)) := by
  refine (tells_mul hjudges hx.faithful hy.faithful).tracks fun z ⟨hz, _, hproduct⟩ =>
    ⟨hz, Field.reduce_canonical _, fun hsure => ?_⟩
  simp only [MarkM.times, Bool.or_eq_true, Bool.and_eq_true, beq_iff_eq] at hsure ⊢
  rw [hproduct, Field.cast_reduce, Int.cast_mul]
  rcases hsure with (⟨ha, hb⟩ | ⟨ha, hzero⟩) | ⟨hb, hzero⟩
  · rw [hx.under_eq ha, hy.under_eq hb]
  · rw [hx.under_eq ha, hzero, Int.cast_zero, zero_mul, zero_mul]
  · rw [hy.under_eq hb, hzero, Int.cast_zero, mul_zero, mul_zero]

/-! ## Zero tests -/

theorem zeroTest_congr {x y : Combination} {zero inverse : Combination} (hx : x.Faithful ω₀)
    (hy : y.Faithful ω₀) (hterms : x.terms = y.terms)
    (h : Gadget.ZeroTest ω₀ ω x zero inverse) : Gadget.ZeroTest ω₀ ω y zero inverse := by
  have hunder (ω : Valuation) : x.under ω = y.under ω := by
    rw [Combination.under, Combination.under, hterms]
  have hvalue : x.value = y.value := by
    refine hx.value_eq hy.canonical ?_
    rw [hunder, hy.under_eq]
  exact ⟨h.faithful_zero, h.faithful_inverse, hvalue ▸ h.value_inverse, hunder ω ▸ h.under_zero,
    hunder ω ▸ h.under_inverse⟩

/-- A test that is made once serves all combinations with the same terms. -/
theorem tells_zeroTest (hjudges : c.Judges ω₀ ω known) {x : Combination} (hx : x.Faithful ω₀) :
    Tells c ω₀ ω known (.zeroTest x) fun test => Gadget.ZeroTest ω₀ ω x test.1 test.2 := by
  intro s W test t hlawful hmatches h hfits
  rcases Synthesis.zeroTest_eq_ok.1 h with ⟨hknown, rfl⟩ | ⟨_, circuit, hcircuit, rfl⟩
  · exact ⟨fun _ => id, fun _ => ⟨hlawful.zeroTests hknown hx, hlawful, hmatches⟩⟩
  · obtain ⟨hkeep, hlaw⟩ :=
      Gadget.meets_isZero (ω := ω) hx s.circuit test circuit hlawful.limit hcircuit hfits
    refine ⟨fun hhonest => hkeep (hjudges.honest hhonest), fun hsat => ⟨hlaw hsat, ?_, ?_⟩⟩
    · refine ⟨(Gadget.grows_isZero x).limit_of_ok hlawful.limit hcircuit, fun {y known} hy hfy => ?_,
        hlawful.slots⟩
      rw [List.lookup_cons] at hy
      split at hy
      · rename_i hterms
        obtain rfl := Option.some.inj hy
        exact zeroTest_congr hx hfy (beq_iff_eq.1 hterms).symm (hlaw hsat)
      · exact hlawful.zeroTests hy hfy
    · exact ⟨hmatches.cursor, hmatches.sound, hmatches.ungated, hmatches.gated, hmatches.nodes,
        hmatches.free⟩

theorem tells_isZero (hjudges : c.Judges ω₀ ω known) {x : Combination} (hx : x.Faithful ω₀) :
    Tells c ω₀ ω known (.isZero x) fun zero => zero.Faithful ω₀ ∧
      zero.under ω = if x.under ω = 0 then 1 else 0 :=
  (tells_zeroTest hjudges hx).bind fun _ h => .pure ⟨h.faithful_zero, h.under_zero⟩

theorem tracks_isZero (hjudges : c.Judges ω₀ ω known) {x : Combination} {a : Marked Int}
    (hx : ElementTracks ω₀ ω x a) : Tracks c ω₀ ω known (ElementTracks ω₀ ω) (.isZero x)
      (pure (.bit a.sure (a.value == 0))) := by
  refine (tells_isZero hjudges hx.faithful).tracks fun zero ⟨hzero, hunder⟩ =>
    elementTracks_bit hzero fun hsure => ?_
  simp only [hunder, hx.under_eq hsure, Field.cast_eq_zero hx.canonical, beq_iff_eq]

theorem tracks_div (hjudges : c.Judges ω₀ ω known) {x y : Combination} {a b : Marked Int}
    (hx : ElementTracks ω₀ ω x a) (hy : ElementTracks ω₀ ω y b) :
    Tracks c ω₀ ω known (fun r s => ElementTracks ω₀ ω r.1 s.1 ∧ ElementTracks ω₀ ω r.2 s.2)
      (.div x y) (pure (MarkM.quotient c a b)) := by
  have tells : Tells c ω₀ ω known (.div x y) fun r => (r.1.Faithful ω₀ ∧ ∃ inverse,
      r.1.value = Field.reduce (x.value * inverse.value) ∧
      r.1.under ω = x.under ω * inverse.under ω ∧ Gadget.ZeroTest ω₀ ω y r.2 inverse) :=
    (tells_zeroTest hjudges hy.faithful).bind fun test htest =>
      (tells_mul hjudges hx.faithful htest.faithful_inverse).bind fun _ ⟨hz, hvalue, hproduct⟩ =>
        .pure ⟨hz, test.2, hvalue, hproduct, htest⟩
  refine tells.tracks fun ⟨quotient, zero⟩ ⟨hquotient, inverse, hvalue, hproduct, htest⟩ => ?_
  dsimp only at hquotient hvalue hproduct htest
  unfold MarkM.quotient
  split
  · rename_i hzero
    refine ⟨⟨hquotient, Field.canonical_zero, fun hsure => ?_⟩,
      elementTracks_bit htest.faithful_zero fun hsure => ?_⟩
    · -- Only the own witness is sure of the quotient, whose inverse is then zero.
      obtain ⟨hhonest, hsure⟩ := Bool.and_eq_true_iff.1 hsure
      have hown := hjudges.honest hhonest
      have hy0 : y.value = 0 := (hy.value_eq hsure hown).trans hzero
      rw [hown, hquotient.under_eq, hvalue, htest.value_inverse hy0, mul_zero, Field.reduce_zero]
    · rw [htest.under_zero, hy.under_eq hsure, hzero, Int.cast_zero, if_pos rfl, if_pos rfl]
  · rename_i hne
    have hunder (hsure : b.sure = true) : y.under ω ≠ 0 := by
      rw [hy.under_eq hsure, ne_eq, Field.cast_eq_zero hy.canonical]
      exact hne
    refine ⟨⟨hquotient, Field.reduce_canonical _, fun hsure => ?_⟩,
      elementTracks_bit htest.faithful_zero fun hsure => ?_⟩
    · obtain ⟨ha, hb⟩ := Bool.and_eq_true_iff.1 hsure
      rw [hproduct, htest.under_inverse (hunder hb), hx.under_eq ha, hy.under_eq hb,
        Field.cast_reduce, Int.cast_mul, Field.cast_invert]
    · rw [htest.under_zero, if_neg (hunder hsure)]
      rfl

/-! ## Signs and integer division -/

theorem tracks_isNegative (hjudges : c.Judges ω₀ ω known) {x : Combination} {a : Marked Int}
    (hx : ElementTracks ω₀ ω x a) : Tracks c ω₀ ω known (ElementTracks ω₀ ω)
      (.ofCircuit (Gadget.isNegative x) (Gadget.grows_isNegative x))
      (pure (.bit (a.sure && c.signs) (Field.isNegative a.value))) := by
  refine (tells_ofCircuit _ (Gadget.meets_isNegative hx.faithful) hjudges.honest).tracks
    fun flag hflag => elementTracks_bit hflag.faithful fun hsure => ?_
  obtain ⟨hsure, hsigns⟩ := Bool.and_eq_true_iff.1 hsure
  have hown := hjudges.signs hsigns
  rw [← hx.value_eq hsure hown, hown, hflag.faithful.under_eq, hflag.value_eq]
  split <;> simp

theorem tracks_less (hjudges : c.Judges ω₀ ω known) {x y : Combination} {a b : Marked Int}
    (hx : ElementTracks ω₀ ω x a) (hy : ElementTracks ω₀ ω y b) :
    Tracks c ω₀ ω known (ElementTracks ω₀ ω) (.ofCircuit (Gadget.less x y) (Gadget.grows_less x y))
      (pure (.bit (a.sure && b.sure && c.signs)
        (Field.toSigned a.value < Field.toSigned b.value))) := by
  refine (tells_ofCircuit _ (Gadget.meets_less hx.faithful hy.faithful) hjudges.honest).tracks
    fun flag hflag => elementTracks_bit hflag.1 fun hsure => ?_
  simp only [Bool.and_eq_true] at hsure
  obtain ⟨⟨ha, hb⟩, hsigns⟩ := hsure
  have hown := hjudges.signs hsigns
  have hvalue := hflag.2 hown
  rw [hown, hflag.1.under_eq, hvalue, hx.value_eq ha hown, hy.value_eq hb hown]
  by_cases hlt : Field.toSigned a.value < Field.toSigned b.value <;> simp [hlt]

/-! ## Choice -/

theorem tells_select (hjudges : c.Judges ω₀ ω known) {flag x y : Combination} {a : Marked Int}
    (hflag : ElementTracks ω₀ ω flag a) (hmay : MarkM.MayChoose c a) (hx : x.Faithful ω₀)
    (hy : y.Faithful ω₀) : Tells c ω₀ ω known (.select flag x y) fun chosen =>
      chosen.Faithful ω₀ ∧
        (a.sure = true → chosen.under ω = if a.value = 0 then y.under ω else x.under ω) := by
  have binary (hsure : a.sure = true) : flag.under ω = if a.value = 0 then 0 else 1 := by
    rw [hflag.under_eq hsure]
    rcases hmay.1 with h | h <;> simp [h]
  refine (tells_ofCircuit _ (Gadget.meets_select hflag.faithful hx hy) fun hhonest =>
    ⟨hjudges.honest hhonest, ?_⟩).mono fun chosen ⟨hchosen, hunder⟩ => ⟨hchosen, fun hsure => ?_⟩
  · rw [binary (hmay.2 hhonest)]
    split <;> simp [Gadget.Binary]
  · rw [hunder, binary hsure]
    split <;> ring

theorem tracks_select (hjudges : c.Judges ω₀ ω known) {flag x y : Combination} {a b d : Marked Int}
    (hflag : ElementTracks ω₀ ω flag a) (hx : ElementTracks ω₀ ω x b)
    (hy : ElementTracks ω₀ ω y d) : Tracks c ω₀ ω known (ElementTracks ω₀ ω) (.select flag x y)
      (MarkM.require (MarkM.MayChoose c a) (MarkM.chosen a b d)) := by
  refine .require fun hmay => (tells_select hjudges hflag hmay hx.faithful hy.faithful).tracks
    fun chosen ⟨hchosen, hunder⟩ => ?_
  unfold MarkM.chosen
  split
  · rename_i hzero
    refine ⟨hchosen, hy.canonical, fun hsure => ?_⟩
    obtain ⟨hsure, hd⟩ := Bool.and_eq_true_iff.1 hsure
    rw [hunder hsure, if_pos hzero, hy.under_eq hd]
  · rename_i hne
    refine ⟨hchosen, hx.canonical, fun hsure => ?_⟩
    obtain ⟨hsure, hb⟩ := Bool.and_eq_true_iff.1 hsure
    rw [hunder hsure, if_neg hne, hx.under_eq hb]

theorem tracks_selectPointer (hjudges : c.Judges ω₀ ω known) {flag : Combination} {v w : Wire}
    {a : Marked Int} {p q : MarkedPointer} (hflag : ElementTracks ω₀ ω flag a)
    (hv : WireTracks ω₀ ω v p) (hw : WireTracks ω₀ ω w q) :
    Tracks c ω₀ ω known (WireTracks ω₀ ω) (.selectPointer flag v w)
      (MarkM.require (MarkM.MayChoose c a) (MarkM.chosenPointer a p q)) := by
  refine .require fun hmay => ?_
  have faithful {w : Wire} {p : MarkedPointer} (h : WireTracks ω₀ ω w p) :
      w.tag.Faithful ω₀ ∧ w.digest.d0.Faithful ω₀ ∧ w.digest.d1.Faithful ω₀ ∧
        w.digest.d2.Faithful ω₀ ∧ w.digest.d3.Faithful ω₀ := by
    simpa [Wire.elements, Digest.toList] using h.faithful
  obtain ⟨vt, v0, v1, v2, v3⟩ := faithful hv
  obtain ⟨wt, w0, w1, w2, w3⟩ := faithful hw
  have tells : Tells c ω₀ ω known (.selectPointer flag v w) fun u =>
      (∀ x ∈ u.elements, x.Faithful ω₀) ∧ (a.sure = true → worth ω u.elements =
        if a.value = 0 then worth ω w.elements else worth ω v.elements) := by
    refine (tells_select hjudges hflag hmay vt wt).bind fun tag htag => ?_
    refine (tells_select hjudges hflag hmay v0 w0).bind fun d0 h0 => ?_
    refine (tells_select hjudges hflag hmay v1 w1).bind fun d1 h1 => ?_
    refine (tells_select hjudges hflag hmay v2 w2).bind fun d2 h2 => ?_
    refine (tells_select hjudges hflag hmay v3 w3).bind fun d3 h3 => .pure ⟨?_, fun hsure => ?_⟩
    · simp [Wire.elements, Digest.toList, htag.1, h0.1, h1.1, h2.1, h3.1]
    · simp only [worth, Wire.elements, Digest.toList, List.map_cons, List.map_nil, htag.2 hsure,
        h0.2 hsure, h1.2 hsure, h2.2 hsure, h3.2 hsure]
      split <;> rfl
  refine tells.tracks fun u htells => ?_
  obtain ⟨hu, hworth⟩ := htells
  have tag_eq {w : Wire} (h : worth ω u.elements = worth ω w.elements) :
      u.tag.under ω = w.tag.under ω := by
    simp only [worth, Wire.elements, List.map_cons, List.cons.injEq] at h
    exact h.1
  unfold MarkM.chosenPointer
  split
  · rename_i hzero
    refine ⟨hu, hw.canonical, fun hsure => ?_, fun hnot => ?_⟩
    · obtain ⟨hsure, hq⟩ := Bool.and_eq_true_iff.1 hsure
      rw [hworth hsure, if_pos hzero, hw.worth_eq hq]
    · obtain ⟨hsure, hq⟩ := Bool.and_eq_true_iff.1 hnot
      rw [tag_eq ((hworth hsure).trans (if_pos hzero))]
      exact hw.notPair hq
  · rename_i hne
    refine ⟨hu, hv.canonical, fun hsure => ?_, fun hnot => ?_⟩
    · obtain ⟨hsure, hp⟩ := Bool.and_eq_true_iff.1 hsure
      rw [hworth hsure, if_neg hne, hv.worth_eq hp]
    · obtain ⟨hsure, hp⟩ := Bool.and_eq_true_iff.1 hnot
      rw [tag_eq ((hworth hsure).trans (if_neg hne))]
      exact hv.notPair hp

/-! ## Pointers -/

theorem wireTracks_ptr {p : Pointer} (hp : p.Canonical) :
    WireTracks ω₀ ω (StepModel.ptr p) (StepModel.ptr p) := by
  obtain ⟨d0, d1, d2, d3, hdigest⟩ := hp.exists_digest
  obtain ⟨tag, digest⟩ := p
  obtain rfl : digest = [d0, d1, d2, d3] := hdigest
  have elements : (StepModel.ptr ⟨tag, [d0, d1, d2, d3]⟩ : Wire).elements =
      [tag.value, d0, d1, d2, d3].map Combination.constant := rfl
  refine ⟨?_, hp, fun _ => ?_, fun h => absurd h Bool.false_ne_true⟩
  · simp [elements, Combination.Faithful.constant]
  · rw [elements, worth, List.map_map]
    exact List.map_congr_left fun n _ => Combination.under_constant ω n

theorem wireTracks_makePointer {x : Combination} {a : Marked Int} (tag : Tag)
    (hx : ElementTracks ω₀ ω x a) : WireTracks ω₀ ω
      (.ofDigest (StepModel.lit tag.value)
        [x, StepModel.lit 0, StepModel.lit 0, StepModel.lit 0])
      ⟨⟨tag, [a.value, 0, 0, 0]⟩, a.sure, false⟩ := by
  have hzero : (StepModel.lit 0 : Combination).Faithful ω₀ := .constant 0
  have hunder : (StepModel.lit 0 : Combination).under ω = 0 := rfl
  refine ⟨?_, ⟨rfl, ?_⟩, fun hsure => ?_, fun h => absurd h Bool.false_ne_true⟩
  · have htag : (StepModel.lit tag.value : Combination).Faithful ω₀ := .constant _
    simp [Wire.ofDigest, Wire.elements, Digest.toList, hx.faithful, hzero, htag]
  · simpa [Field.canonical_zero] using hx.canonical
  · have htag : (StepModel.lit tag.value : Combination).under ω = tag.value :=
      Combination.under_constant ω _
    simp [worth, classes, Wire.ofDigest, Wire.elements, Digest.toList, Pointer.elements, hunder,
      htag, hx.under_eq hsure]

theorem WireTracks.payload {w : Wire} {p : MarkedPointer} (h : WireTracks ω₀ ω w p) :
    ElementTracks ω₀ ω w.digest.d0 ⟨p.value.digest.headD 0, p.sure⟩ := by
  refine ⟨h.faithful _ (by simp [Wire.elements, Digest.toList]), ?_, fun hsure => ?_⟩
  · exact h.canonical.payload
  · obtain ⟨d0, d1, d2, d3, hdigest, -, h0, -⟩ := h.parts hsure
    rw [h0, hdigest]
    rfl

theorem WireTracks.faithful_tag {w : Wire} {p : MarkedPointer} (h : WireTracks ω₀ ω w p) :
    w.tag.Faithful ω₀ := h.faithful _ List.mem_cons_self

theorem tracks_tagIs (hjudges : c.Judges ω₀ ω known) {w : Wire} {p : MarkedPointer} (tag : Tag)
    (hw : WireTracks ω₀ ω w p) : Tracks c ω₀ ω known (ElementTracks ω₀ ω)
      (.isZero (w.tag - .constant tag.value))
      (pure (.bit (p.sure || p.notPair && tag == .cons) (p.value.tag == tag))) := by
  refine (tells_isZero hjudges (hw.faithful_tag.sub (.constant _))).tracks
    fun zero ⟨hzero, hunder⟩ => elementTracks_bit hzero fun hsure => ?_
  simp only [Combination.under_sub, Combination.under_constant, sub_eq_zero] at hunder
  rw [hunder]
  simp only [Bool.or_eq_true, Bool.and_eq_true, beq_iff_eq] at hsure ⊢
  rcases hsure with hsure | ⟨hnot, rfl⟩
  · obtain ⟨-, -, -, -, -, htag, -⟩ := hw.parts hsure
    simp only [htag, cast_tag_inj]
  · obtain ⟨hunder, htag⟩ := hw.notPair hnot
    have hcons : w.tag.under ω ≠ ((Tag.cons.value : Int) : Element) := by simpa [Tag.value] using hunder
    rw [if_neg hcons, if_neg htag]

theorem tracks_pointerEq (hjudges : c.Judges ω₀ ω known) {v w : Wire} {p q : MarkedPointer}
    (hv : WireTracks ω₀ ω v p) (hw : WireTracks ω₀ ω w q) :
    Tracks c ω₀ ω known (ElementTracks ω₀ ω) (.pointerEq v w)
      (pure (.bit (p.sure && q.sure) (p.value == q.value))) := by
  have part {x y : Combination} (hx : x ∈ v.elements) (hy : y ∈ w.elements) :
      Tells c ω₀ ω known (.isZero (x - y)) fun zero => zero.Faithful ω₀ ∧
        zero.under ω = if x.under ω = y.under ω then 1 else 0 := by
    refine (tells_isZero hjudges ((hv.faithful x hx).sub (hw.faithful y hy))).mono
      fun zero hzero => ⟨hzero.1, ?_⟩
    rw [hzero.2, Combination.under_sub]
    simp only [sub_eq_zero]
  have tells : Tells c ω₀ ω known (.pointerEq v w) fun same => same.Faithful ω₀ ∧
      same.under ω = if worth ω v.elements = worth ω w.elements then 1 else 0 := by
    refine (part (x := v.tag) (y := w.tag) (by simp [Wire.elements])
      (by simp [Wire.elements])).bind fun t ht => ?_
    refine (part (x := v.digest.d0) (y := w.digest.d0) (by simp [Wire.elements, Digest.toList])
      (by simp [Wire.elements, Digest.toList])).bind fun z0 h0 => ?_
    refine (part (x := v.digest.d1) (y := w.digest.d1) (by simp [Wire.elements, Digest.toList])
      (by simp [Wire.elements, Digest.toList])).bind fun z1 h1 => ?_
    refine (part (x := v.digest.d2) (y := w.digest.d2) (by simp [Wire.elements, Digest.toList])
      (by simp [Wire.elements, Digest.toList])).bind fun z2 h2 => ?_
    refine (part (x := v.digest.d3) (y := w.digest.d3) (by simp [Wire.elements, Digest.toList])
      (by simp [Wire.elements, Digest.toList])).bind fun z3 h3 => ?_
    refine (tells_mul hjudges ht.1 h0.1).bind fun s0 hs0 => ?_
    refine (tells_mul hjudges hs0.1 h1.1).bind fun s1 hs1 => ?_
    refine (tells_mul hjudges hs1.1 h2.1).bind fun s2 hs2 => ?_
    refine (tells_mul hjudges hs2.1 h3.1).mono fun same hsame => ⟨hsame.1, ?_⟩
    rw [hsame.2.2, hs2.2.2, hs1.2.2, hs0.2.2, ht.2, h0.2, h1.2, h2.2, h3.2]
    simp only [worth, Wire.elements, Digest.toList, List.map_cons, List.map_nil, List.cons.injEq,
      and_true, mul_ite, mul_one, mul_zero, ← ite_and]
    congr 1
    exact propext (by tauto)
  refine tells.tracks fun same hsame => elementTracks_bit hsame.1 fun hsure => ?_
  obtain ⟨hp, hq⟩ := Bool.and_eq_true_iff.1 hsure
  have elements_iff : worth ω v.elements = worth ω w.elements ↔ p.value = q.value := by
    have canonical {p : Pointer} (h : p.Canonical) : ∀ x ∈ p.elements, Field.Canonical x := by
      simpa [Pointer.elements, Tag.value_canonical] using h.2
    rw [hv.worth_eq hp, hw.worth_eq hq]
    exact ⟨fun h => Pointer.elements_injective
      (classes_inj (canonical hv.canonical) (canonical hw.canonical) h), fun h => h ▸ rfl⟩
  simp only [hsame.2, elements_iff, beq_iff_eq]

end

end FieldLisp
