import FieldLisp.Proofs.Circuit.Signs

/-!
# What pins a quotient

The division gadget demands digits of the quotient, of the remainder, and of what the remainder is
short of the divisor. The last of these would be negative for a remainder that is too large, and so
lie far above all numbers of 32 digits. That leaves a product which, with the remainder, stays below
the order of the field, so that the equation between field elements is one between numbers.

* `exact_of_ranges`: the equations of the field are equations of numbers;
* `DivisionConstraints`, `meets_constraints`: what the gadget demands, constraint by constraint;
* `DivisionConstraints.law`: so quotient and remainder are those of the numbers;
* `Gadget.divRem_exact`: for every assignment that satisfies what the gadget has added, and for the
  one that it computes.
-/

namespace FieldLisp

open FieldLisp.Field (Element)

namespace Gadget

open Circuit

variable {ω₀ ω : Valuation}

/-! ## From elements to numbers -/

/-- With 32 digits at most, neither the difference nor the sum of products reaches around the
field. -/
theorem exact_of_ranges {n : ℕ} (hn : n ≤ 32) {a b q r k : Int} (ha : Field.Canonical a)
    (hb : 0 ≤ b ∧ b < 2 ^ n) (hq : 0 ≤ q ∧ q < 2 ^ n) (hr : 0 ≤ r ∧ r < 2 ^ n) (hk : 0 ≤ k ∧ k < 2 ^ n)
    (hshort : ((b - r - 1 : Int) : Element) = k) (hsum : ((b * q + r : Int) : Element) = a) :
    r < b ∧ a = b * q + r := by
  have hpower : (2 : Int) ^ n ≤ 2 ^ 32 := pow_le_pow_right₀ (by norm_num) hn
  have hless : r < b := by
    have hclass := Field.cast_eq_iff.1 hshort
    simp only [Field.reduce, Field.order] at hclass
    omega
  refine ⟨hless, ?_⟩
  have hproduct : 0 ≤ b * q := mul_nonneg hb.1 hq.1
  have hbound : b * q + r < Field.order :=
    calc b * q + r < b * q + b := by omega
      _ = b * (q + 1) := by ring
      _ ≤ (2 ^ 32 - 1) * 2 ^ 32 := mul_le_mul (by omega) (by omega) (by omega) (by norm_num)
      _ < Field.order := by norm_num [Field.order]
  have hclass := Field.cast_eq_iff.1 hsum
  rw [Field.reduce_eq_self ha, Field.reduce_eq_self ⟨by omega, hbound⟩] at hclass
  exact hclass.symm

/-! ## The gadget -/

/-- Under a condition that is one, quotient and remainder of an element by one of `n` digits are those
of the numbers that stand for them. -/
def DivisionLaw (n : ℕ) (c a b q r : Element) : Prop :=
  c = 1 → Field.representative b < 2 ^ n → Field.representative q < 2 ^ n ∧
    Field.representative r < Field.representative b ∧
    Field.representative a =
      Field.representative b * Field.representative q + Field.representative r

/-- What the constraints of the gadget demand. -/
structure DivisionConstraints (n : ℕ) (c a b q r : Element) : Prop where
  quotient : ∃ k : ℕ, k < 2 ^ n ∧ q = k
  remainder : ∃ k : ℕ, k < 2 ^ n ∧ r = k
  short : ∃ k : ℕ, k < 2 ^ n ∧ c * (b - r - 1) = k
  sum : c = 0 ∨ b * q + r = a

/-- Nothing is said about honesty here, for operands need not be in range. -/
theorem meets_constraints {c a b : Combination} (n : ℕ) (hc : c.Faithful ω₀) (hb : b.Faithful ω₀) :
    Meets ω₀ ω False (divRem c a b n) fun result => DivisionConstraints n (c.under ω) (a.under ω)
      (b.under ω) (result.1.under ω) (result.2.under ω) := by
  unfold divRem
  dsimp only
  refine (meets_alloc _).bind (grows_alloc _) (fun _ => (grows_alloc _).bind fun _ =>
    (grows_bits _ _).bind fun _ => (grows_bits _ _).bind fun _ => (grows_mul _ _).bind fun _ =>
    (grows_bits _ _).bind fun _ => (grows_mul _ _).bind fun _ =>
    (grows_impliesEqual _ _ _).bind fun _ => .pure _) fun q hq => ?_
  refine (meets_alloc _).bind (grows_alloc _) (fun _ => (grows_bits _ _).bind fun _ =>
    (grows_bits _ _).bind fun _ => (grows_mul _ _).bind fun _ => (grows_bits _ _).bind fun _ =>
    (grows_mul _ _).bind fun _ => (grows_impliesEqual _ _ _).bind fun _ => .pure _) fun r hr => ?_
  refine ((meets_range hq.1 n).mono False.elim fun _ => id).bind (grows_bits _ _)
    (fun _ => (grows_bits _ _).bind fun _ => (grows_mul _ _).bind fun _ =>
    (grows_bits _ _).bind fun _ => (grows_mul _ _).bind fun _ =>
    (grows_impliesEqual _ _ _).bind fun _ => .pure _) fun _ ⟨kq, hkq, hquotient⟩ => ?_
  refine ((meets_range hr.1 n).mono False.elim fun _ => id).bind (grows_bits _ _)
    (fun _ => (grows_mul _ _).bind fun _ => (grows_bits _ _).bind fun _ =>
    (grows_mul _ _).bind fun _ => (grows_impliesEqual _ _ _).bind fun _ => .pure _)
    fun _ ⟨kr, hkr, hremainder⟩ => ?_
  have faithful_short : (b - r - 1).Faithful ω₀ := (hb.sub hr.1).sub .one
  refine ((meets_mul hc faithful_short).mono False.elim fun _ => id).bind (grows_mul _ _)
    (fun _ => (grows_bits _ _).bind fun _ => (grows_mul _ _).bind fun _ =>
    (grows_impliesEqual _ _ _).bind fun _ => .pure _) fun short ⟨hshort, _, hdifference⟩ => ?_
  refine ((meets_range hshort n).mono False.elim fun _ => id).bind (grows_bits _ _)
    (fun _ => (grows_mul _ _).bind fun _ => (grows_impliesEqual _ _ _).bind fun _ => .pure _)
    fun _ ⟨ks, hks, hrange⟩ => ?_
  refine ((meets_mul hb hq.1).mono False.elim fun _ => id).bind (grows_mul _ _)
    (fun _ => (grows_impliesEqual _ _ _).bind fun _ => .pure _) fun product ⟨_, _, hproduct⟩ => ?_
  refine ((meets_impliesEqual c (product + r) a).mono False.elim fun _ => id).bind
    (grows_impliesEqual _ _ _) (fun _ => .pure _) fun _ hequal =>
      .pure ⟨⟨kq, hkq, hquotient⟩, ⟨kr, hkr, hremainder⟩, ⟨ks, hks, ?_⟩, ?_⟩
  · rw [← hrange, hdifference, Combination.under_sub, Combination.under_sub, Combination.under_one]
  · rwa [← hproduct, ← Combination.under_add]

theorem DivisionConstraints.law {n : ℕ} (hn : n ≤ 32) {c a b q r : Element}
    (h : DivisionConstraints n c a b q r) : DivisionLaw n c a b q r := by
  intro hone hlt
  obtain ⟨⟨kq, hkq, rfl⟩, ⟨kr, hkr, rfl⟩, ⟨ks, hks, hshort⟩, hsum⟩ := h
  have hnonneg := (Field.representative_canonical b).1
  have hdivisor : ((Field.representative b : Int) : Element) = b := Field.cast_representative _
  have hdividend : ((Field.representative a : Int) : Element) = a := Field.cast_representative _
  have hshort' : ((Field.representative b - kr - 1 : Int) : Element) = ((ks : ℕ) : Int) := by
    push_cast
    rw [hdivisor, ← hshort, hone, one_mul]
  have hsum' : ((Field.representative b * kq + kr : Int) : Element) =
      (Field.representative a : Int) := by
    push_cast
    rw [hdivisor, hdividend, ← hsum.resolve_left (hone ▸ one_ne_zero)]
  obtain ⟨hless, hexact⟩ := exact_of_ranges hn (Field.representative_canonical a) ⟨hnonneg, hlt⟩
    ⟨by omega, by exact_mod_cast hkq⟩ ⟨by omega, by exact_mod_cast hkr⟩
    ⟨by omega, by exact_mod_cast hks⟩ hshort' hsum'
  have hfew : n ≤ 63 := hn.trans (by decide)
  rw [representative_natCast hfew hkq, representative_natCast hfew hkr]
  exact ⟨by exact_mod_cast hkq, hless, hexact⟩

theorem meets_division {c a b : Combination} {n : ℕ} (hn : n ≤ 32) (hc : c.Faithful ω₀)
    (hb : b.Faithful ω₀) : Meets ω₀ ω False (divRem c a b n) fun result =>
      DivisionLaw n (c.under ω) (a.under ω) (b.under ω) (result.1.under ω) (result.2.under ω) :=
  (meets_constraints n hc hb).mono id fun _ h => h.law hn

/-- For at most 32 digits the division gadget needs room for its constraints only, and puts them behind
those that are there. Under every assignment that satisfies them, if the condition is worth one and the
divisor is worth a number of `n` digits, then it is not zero, and what quotient and remainder are worth
is the result of dividing the numbers. The assignment that the gadget computes satisfies them if the
condition is zero, and both results are zero then; and if the condition is one, the operands have `n`
digits and the divisor is not zero. -/
theorem divRem_exact {s : Circuit} {condition a b : Combination} {n : ℕ} (hn : n ≤ 32)
    (hs : s.assignment.getD Combination.one 0 = 1) (hc : Stands s condition) (hb : Stands s b) :
    (s.limit = none → ∃ q r t, divRem condition a b n s = .ok (q, r) t) ∧
    ∀ q r t, divRem condition a b n s = .ok (q, r) t →
      s.constraints.toList <+: t.constraints.toList ∧
      (∀ w : Array Int, w.getD Combination.one 0 = 1 →
        (∀ k ∈ t.constraints.toList.drop s.constraints.size, holds w k = true) →
        Combination.evalTerms w condition.terms = 1 → Combination.evalTerms w b.terms < 2 ^ n →
        Combination.evalTerms w b.terms ≠ 0 ∧
        Combination.evalTerms w q.terms < 2 ^ n ∧ Combination.evalTerms w r.terms < 2 ^ n ∧
        Combination.evalTerms w r.terms < Combination.evalTerms w b.terms ∧
        Combination.evalTerms w a.terms = Combination.evalTerms w b.terms *
          Combination.evalTerms w q.terms + Combination.evalTerms w r.terms) ∧
      (Stands s a → (condition.value = 0 ∨
          condition.value = 1 ∧ a.value < 2 ^ n ∧ 0 < b.value ∧ b.value < 2 ^ n) →
        (∀ k ∈ t.constraints.toList.drop s.constraints.size, holds t.assignment k = true) ∧
        (Combination.evalTerms t.assignment q.terms, Combination.evalTerms t.assignment r.terms) =
          if condition.value = 0 then (0, 0) else (a.value / b.value, a.value % b.value)) := by
  have hgrows := grows_divRem condition a b n
  have hemits := emits_divRem condition a b n
  refine ⟨fun hlimit => ?_, fun q r t hrun => ?_⟩
  · obtain ⟨⟨q, r⟩, t, hrun, -⟩ := hgrows s hlimit
    exact ⟨q, r, t, hrun⟩
  have hone := hemits.one hgrows hrun hs
  have hfits := fits_ofAssignment hone
  have hstart := hemits.fits hgrows hrun hfits
  obtain ⟨emitted, hconstraints, -⟩ := hemits s _ t hrun
  refine ⟨by rw [hconstraints, Array.toList_append]; exact List.prefix_append _ _,
    fun w hw hadded hcondition hlt => ?_, fun ha hrange => ?_⟩
  · have hlaw := ((meets_division hn (hc.faithful hstart) (hb.faithful hstart)).of_emitted hemits hrun
      hfits).2 fun k hk => (holds_iff hw k).1 (hadded k hk)
    have hunder : condition.under (.ofAssignment w) = 1 := by
      rw [← Field.cast_representative (condition.under (.ofAssignment w)),
        Combination.representative_under hw, hcondition, Int.cast_one]
    have hexact := hlaw hunder
    simp only [Combination.representative_under hw] at hexact
    obtain ⟨hq, hr, hsum⟩ := hexact hlt
    have hnonneg : 0 ≤ Combination.evalTerms w r.terms := (Field.reduce_canonical _).1
    exact ⟨by omega, hq, hr.trans hlt, hr, hsum⟩
  · have hmay : MayDivide n condition.value a.value b.value := by
      rcases hrange with hzero | ⟨honest, ha', hpos, hb'⟩
      · exact .inl hzero
      · rw [honest]
        exact mayDivide_one (hb.faithful hstart).canonical ha' hpos hb'
    have hmeets := (meets_divRem (ω := .ofAssignment t.assignment) (n := n) (hc.faithful hstart)
      (ha.faithful hstart) (hb.faithful hstart)).of_emitted hemits hrun hfits
    have hadded := hmeets.1 ⟨rfl, hmay⟩
    obtain ⟨⟨hq, hquotient⟩, hr, hremainder⟩ := hmeets.2 hadded
    refine ⟨fun k hk => (holds_iff hone k).2 (hadded k hk), ?_⟩
    rw [hq.evalTerms_eq hone, hr.evalTerms_eq hone, hquotient, hremainder]
    by_cases hzero : condition.value = 0
    · simp [hzero]
    · obtain ⟨-, -, hpos, -⟩ := hrange.resolve_left hzero
      have ha' := (ha.faithful hstart).canonical
      have hb' := (hb.faithful hstart).canonical
      have hle : a.value / b.value ≤ a.value := Int.ediv_le_self _ ha'.1
      have hless : a.value % b.value < b.value := Int.emod_lt_of_pos _ hpos
      rw [if_pos ⟨hzero, hpos.ne'⟩, if_pos ⟨hzero, hpos.ne'⟩, if_neg hzero,
        Int.fdiv_eq_ediv_of_nonneg _ hpos.le, Int.fmod_eq_emod_of_nonneg _ hpos.le,
        Field.reduce_eq_self ⟨Int.ediv_nonneg ha'.1 hpos.le, hle.trans_lt ha'.2⟩,
        Field.reduce_eq_self ⟨Int.emod_nonneg _ hpos.ne', hless.trans hb'.2⟩]

/-- Seventeen by five is three, and two are left. -/
theorem divRem_exact_seventeen : ∃ (s t : Circuit) (condition a b q r : Combination),
    s.assignment.getD Combination.one 0 = 1 ∧ Stands s condition ∧ Stands s a ∧ Stands s b ∧
    divRem condition a b 32 s = .ok (q, r) t ∧
    (∀ k ∈ t.constraints.toList.drop s.constraints.size, holds t.assignment k = true) ∧
    Combination.evalTerms t.assignment q.terms = 3 ∧ Combination.evalTerms t.assignment r.terms = 2 ∧
    Combination.evalTerms t.assignment condition.terms = 1 ∧
    Combination.evalTerms t.assignment a.terms = 5 * 3 + 2 ∧
    Combination.evalTerms t.assignment b.terms = 5 := by
  let condition : Combination := .ofVariable 1 1
  let a : Combination := .ofVariable 2 17
  let b : Combination := .ofVariable 3 5
  obtain ⟨s, hlimit, hobtains⟩ : ∃ s, s.limit = none ∧
      Obtains none [.alloc 1, .alloc 17, .alloc 5] s [condition, a, b] := by
    have first : Obtains none [.alloc 1] _ [condition] :=
      .next .fresh (fun _ h => by cases h) trivial rfl
    have second : Obtains none [.alloc 1, .alloc 17] _ [condition, a] :=
      first.next (fun _ h => by cases h) trivial rfl
    exact ⟨_, rfl, second.next (fun _ h => by cases h) trivial rfl⟩
  obtain ⟨hs, hstands, -⟩ := stands_of_obtains hobtains
  obtain ⟨hsucceeds, hexact⟩ := divRem_exact (a := a) (le_refl 32) hs (hstands condition (by simp))
    (hstands b (by simp))
  obtain ⟨q, r, t, hrun⟩ := hsucceeds hlimit
  obtain ⟨-, hpinned, hcomputed⟩ := hexact q r t hrun
  obtain ⟨hadded, hresult⟩ := hcomputed (hstands a (by simp)) (.inr (by decide))
  -- The division is one more honest operation, so the operands keep what they are worth.
  have hmay : MayDivide 32 condition.value a.value b.value := .inr (by decide)
  have hlater : Obtains none [.alloc 1, .alloc 17, .alloc 5,
      .divRem (.combination condition) (.combination a) (.combination b) 32] t
      [condition, a, b, q, r] :=
    hobtains.next (by simp [Operation.operands]) hmay (EStateM.bind_eq_ok.2 ⟨(q, r), t, hrun, rfl⟩)
  obtain ⟨ht, hstands', -⟩ := stands_of_obtains hlater
  have hcondition : Combination.evalTerms t.assignment condition.terms = 1 :=
    (hstands' condition (by simp)).value_eq.symm
  have hb : Combination.evalTerms t.assignment b.terms = 5 :=
    (hstands' b (by simp)).value_eq.symm
  obtain ⟨hq, hr⟩ := Prod.mk.inj (hresult.trans (show _ = ((3 : Int), (2 : Int)) by decide))
  obtain ⟨-, -, -, -, hsum⟩ := hpinned t.assignment ht hadded hcondition (by rw [hb]; decide)
  rw [hb, hq, hr] at hsum
  exact ⟨s, t, condition, a, b, q, r, hs, hstands _ (by simp), hstands _ (by simp),
    hstands _ (by simp), hrun, hadded, hq, hr, hcondition, hsum, hb⟩

end Gadget

end FieldLisp
