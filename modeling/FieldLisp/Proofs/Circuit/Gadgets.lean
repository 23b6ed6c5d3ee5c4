import FieldLisp.Proofs.Circuit.Satisfaction

/-!
# What the gadgets promise

Each gadget meets a law. The law of a flag or a choice holds under every valuation that satisfies
the circuit; the sign of an element and integer division are fixed by the values that are carried.

* `meets_isZero`, `meets_select`, `meets_bindAll`, `meets_oneHot`: laws under every valuation;
* `meets_isNegative`, `meets_less`, `meets_divRem`: laws of the own valuation.
-/

namespace FieldLisp

open FieldLisp.Field (Element)

namespace Gadget

open Circuit

variable {ω₀ ω : Valuation}

/-- A flag is worth zero or one. -/
def Binary (x : Element) : Prop := x = 0 ∨ x = 1

theorem binary_iff {x : Element} : Binary x ↔ x * (1 - x) = 0 := by
  rw [mul_eq_zero, sub_eq_zero, eq_comm (a := (1 : Element)), Binary]

theorem binary_cast (b : Bool) : Binary ((if b then 1 else 0 : Int) : Element) := by
  cases b <;> simp [Binary]

/-! ## Flags -/

theorem meets_boolean (b : Combination) :
    Meets ω₀ ω (Binary (b.under ω)) (boolean b) fun _ => Binary (b.under ω) := by
  refine (meets_enforce b (1 - b) 0).mono (fun h => ?_) fun _ h => ?_
  · simpa using binary_iff.1 h
  · simpa using binary_iff.2 (by simpa using h)

/-- A flag that was made for a value. -/
structure IsFlag (ω₀ ω : Valuation) (value : Bool) (flag : Combination) : Prop where
  faithful : flag.Faithful ω₀
  value_eq : flag.value = if value then 1 else 0
  binary : Binary (flag.under ω)

theorem meets_allocBit (value : Bool) :
    Meets ω₀ ω (ω = ω₀) (allocBit value) (IsFlag ω₀ ω value) := by
  refine (meets_alloc _).bind (grows_alloc _)
    (fun _ => (grows_enforce _ _ _).bind fun _ => .pure _) fun c hc => ?_
  have hvalue : c.value = if value then 1 else 0 := by
    rw [hc.2]
    cases value <;> rfl
  refine ((meets_boolean c).mono ?_ fun _ => id).bind (grows_enforce _ _ _)
    (fun _ => .pure _) fun _ hbit => .pure ⟨hc.1, hvalue, hbit⟩
  rintro rfl
  rw [hc.1.under_eq, hvalue]
  exact binary_cast value

/-! ## Zero tests -/

/-- The two products leave no choice, except for the inverse of zero. -/
theorem zero_test_of_products {x inverse zero : Element} (hproduct : x * inverse = 1 - zero)
    (hzeros : x * zero = 0) :
    zero = (if x = 0 then 1 else 0) ∧ (x ≠ 0 → inverse = x⁻¹) := by
  by_cases hx : x = 0
  · rw [hx, zero_mul, eq_comm, sub_eq_zero] at hproduct
    exact ⟨by rw [if_pos hx, hproduct], fun h => absurd hx h⟩
  · have hzero : zero = 0 := (mul_eq_zero.1 hzeros).resolve_left hx
    rw [hzero, sub_zero] at hproduct
    exact ⟨by rw [if_neg hx, hzero], fun _ => eq_inv_of_mul_eq_one_right hproduct⟩

/-- The law of a zero test: the flag is one exactly on zero, and the other result is an inverse
wherever there is one. -/
structure ZeroTest (ω₀ ω : Valuation) (x : Combination) (zero inverse : Combination) : Prop where
  faithful_zero : zero.Faithful ω₀
  faithful_inverse : inverse.Faithful ω₀
  value_inverse : x.value = 0 → inverse.value = 0
  under_zero : zero.under ω = if x.under ω = 0 then 1 else 0
  under_inverse : x.under ω ≠ 0 → inverse.under ω = (x.under ω)⁻¹

theorem meets_isZero {x : Combination} (hx : x.Faithful ω₀) :
    Meets ω₀ ω (ω = ω₀) (isZero x) fun test => ZeroTest ω₀ ω x test.1 test.2 := by
  have cast_zero : ((if x.value = 0 then 1 else 0 : Int) : Element) =
      if x.under ω₀ = 0 then 1 else 0 := by
    simp only [← hx.value_eq_zero]
    split <;> simp
  have cast_inverse : ((if x.value = 0 then 0 else Field.invert x.value : Int) : Element) =
      (x.under ω₀)⁻¹ := by
    split
    · rename_i h
      rw [hx.value_eq_zero.1 h]
      simp
    · rw [Field.cast_invert, hx.under_eq]
  have carried : x.value = 0 →
      Field.reduce (if x.value = 0 then 0 else Field.invert x.value) = 0 := by
    intro h
    rw [if_pos h, Field.reduce_zero]
  unfold isZero
  dsimp only
  split
  · rename_i hconst
    refine .pure ⟨.constant _, .constant _, carried, ?_, fun _ => ?_⟩
    · rw [Combination.under_constant, cast_zero, Combination.under_eq_of_isConstant hconst ω₀ ω]
    · rw [Combination.under_constant, cast_inverse, Combination.under_eq_of_isConstant hconst ω₀ ω]
  · refine (meets_alloc _).bind (grows_alloc _) (fun _ => (grows_alloc _).bind fun _ =>
      (grows_enforce _ _ _).bind fun _ => (grows_enforce _ _ _).bind fun _ => .pure _)
      fun inverse hinverse => ?_
    refine (meets_alloc _).bind (grows_alloc _) (fun _ => (grows_enforce _ _ _).bind fun _ =>
      (grows_enforce _ _ _).bind fun _ => .pure _) fun zero hzero => ?_
    have under_zero : zero.under ω₀ = if x.under ω₀ = 0 then 1 else 0 := by
      rw [hzero.1.under_eq, hzero.2, Field.cast_reduce, cast_zero]
    have under_inverse : inverse.under ω₀ = (x.under ω₀)⁻¹ := by
      rw [hinverse.1.under_eq, hinverse.2, Field.cast_reduce, cast_inverse]
    refine ((meets_enforce x inverse (1 - zero)).mono ?_ fun _ => id).bind (grows_enforce _ _ _)
      (fun _ => (grows_enforce _ _ _).bind fun _ => .pure _) fun _ hproduct => ?_
    · rintro rfl
      rw [Combination.under_sub, Combination.under_one, under_zero, under_inverse]
      by_cases h : x.under ω = 0 <;> simp [h]
    refine ((meets_enforce x zero 0).mono ?_ fun _ => id).bind (grows_enforce _ _ _)
      (fun _ => .pure _) fun _ hzeros => .pure ?_
    · rintro rfl
      rw [Combination.under_zero, under_zero]
      by_cases h : x.under ω = 0 <;> simp [h]
    rw [Combination.under_sub, Combination.under_one] at hproduct
    rw [Combination.under_zero] at hzeros
    obtain ⟨hflag, hfactor⟩ := zero_test_of_products hproduct hzeros
    exact ⟨hzero.1, hinverse.1, fun h => hinverse.2.trans (carried h), hflag, hfactor⟩

/-! ## Conditional equality and choice -/

theorem meets_impliesEqual (c x y : Combination) :
    Meets ω₀ ω (c.under ω = 0 ∨ x.under ω = y.under ω) (impliesEqual c x y)
      fun _ => c.under ω = 0 ∨ x.under ω = y.under ω := by
  have law : c.under ω * (x - y).under ω = (0 : Combination).under ω ↔
      c.under ω = 0 ∨ x.under ω = y.under ω := by
    rw [Combination.under_sub, Combination.under_zero, mul_eq_zero, sub_eq_zero]
  exact (meets_enforce c (x - y) 0).mono law.2 fun _ => law.1

/-- The entries of two lists are worth the same, as far as both go. -/
def Agree (ω : Valuation) (xs ys : List Combination) : Prop :=
  ∀ p ∈ xs.zip ys, p.1.under ω = p.2.under ω

theorem meets_bindAll (c : Combination) (xs ys : List Combination) :
    Meets ω₀ ω (c.under ω = 0 ∨ Agree ω xs ys) (bindAll c xs ys)
      fun _ => c.under ω = 0 ∨ Agree ω xs ys := by
  have pairwise : Meets ω₀ ω (c.under ω = 0 ∨ Agree ω xs ys) (bindAll c xs ys)
      fun _ => ∀ p ∈ xs.zip ys, c.under ω = 0 ∨ p.1.under ω = p.2.under ω :=
    .forM (fun p => grows_impliesEqual c p.1 p.2) fun p hp =>
      (meets_impliesEqual c p.1 p.2).mono (fun h => h.imp_right fun h => h p hp) fun _ => id
  refine pairwise.mono id fun _ h => ?_
  exact or_iff_not_imp_left.2 fun hc p hp => (h p hp).resolve_left hc

/-- A choice by a flag that is zero or one; the law says nothing about other flags' honesty. -/
theorem meets_select {flag x y : Combination} (hflag : flag.Faithful ω₀) (hx : x.Faithful ω₀)
    (hy : y.Faithful ω₀) :
    Meets ω₀ ω (ω = ω₀ ∧ Binary (flag.under ω)) (select flag x y) fun chosen =>
      chosen.Faithful ω₀ ∧
        chosen.under ω = y.under ω + flag.under ω * (x.under ω - y.under ω) := by
  unfold select
  dsimp only
  split
  · rename_i hconst
    refine .pure ⟨hy.add (hflag.scale _), ?_⟩
    rw [Combination.under_add, Combination.under_scale,
      ← (hx.sub hy).under_eq_of_isConstant hconst ω, Combination.under_sub]
  · refine (meets_alloc _).bind (grows_alloc _)
      (fun _ => (grows_enforce _ _ _).bind fun _ => .pure _) fun chosen hchosen => ?_
    refine ((meets_enforce flag (x - y) (chosen - y)).mono ?_ fun _ => id).bind
      (grows_enforce _ _ _) (fun _ => .pure _) fun _ hlaw => .pure ⟨hchosen.1, ?_⟩
    · rintro ⟨rfl, hbit⟩
      rw [Combination.under_sub, Combination.under_sub, hchosen.1.under_eq, hchosen.2,
        Field.cast_reduce]
      rcases hbit with h | h
      · rw [if_pos (hflag.value_eq_zero.2 h), ← hy.under_eq, h]
        ring
      · have hne : flag.value ≠ 0 := by
          rw [ne_eq, hflag.value_eq_zero, h]
          exact one_ne_zero
        rw [if_neg hne, ← hx.under_eq, h]
        ring
    · rw [Combination.under_sub, Combination.under_sub] at hlaw
      rw [hlaw]
      ring

/-! ## Binary digits -/

theorem under_foldl_add (ω : Valuation) (xs : List Combination) (z : Combination) :
    (xs.foldl (· + ·) z).under ω = z.under ω + (xs.map (·.under ω)).sum := by
  induction xs generalizing z with
  | nil => simp
  | cons x xs ih =>
    rw [List.foldl_cons, ih, Combination.under_add, List.map_cons, List.sum_cons, add_assoc]

/-- Digits that are worth the binary digits of a number make up the number. -/
theorem under_weighted_testBit {digits : List Combination} {m n : ℕ} (hm : m < 2 ^ n)
    (h : List.Forall₂ (fun i (d : Combination) =>
      d.under ω = ((if m.testBit i then 1 else 0 : Int) : Element)) (List.range n) digits) :
    (weighted digits).under ω = (m : Element) := by
  have hdigits : digits.zipIdx.map (fun (p : Combination × ℕ) =>
      (p.1 * Int.ofNat (1 <<< p.2) : Combination).under ω) =
      (List.range n).map fun i => (((m.testBit i).toNat * 2 ^ i : ℕ) : Element) := by
    have hlength := h.length_eq
    rw [List.length_range] at hlength
    refine List.ext_getElem (by simp [hlength]) fun i h₁ h₂ => ?_
    simp only [List.length_map, List.length_range] at h₂
    have hi := List.Forall₂.get h (i := i) (by simpa using h₂) (by omega)
    simp only [List.get_eq_getElem, List.getElem_range] at hi
    simp only [List.getElem_map, List.getElem_zipIdx, List.getElem_range, Combination.under_scale,
      zero_add, hi]
    cases m.testBit i <;> simp [Nat.one_shiftLeft]
  have hsum (k : ℕ) : ((List.range k).map fun i => (m.testBit i).toNat * 2 ^ i).sum = m % 2 ^ k := by
    induction k with
    | zero => simp [Nat.mod_one]
    | succ k ih =>
      rw [List.range_succ, List.map_append, List.sum_append, ih, Nat.mod_pow_succ,
        ← Nat.toNat_testBit]
      simp [mul_comm]
  rw [weighted, under_foldl_add, Combination.under_zero, zero_add, List.map_map]
  change (List.map (fun (p : Combination × ℕ) =>
    (p.1 * Int.ofNat (1 <<< p.2) : Combination).under ω) _).sum = _
  have hcast := congrArg (Nat.cast : ℕ → Element) (hsum n)
  rw [Nat.cast_list_sum, List.map_map, Nat.mod_eq_of_lt hm] at hcast
  rw [hdigits]
  exact hcast

theorem meets_bits {x : Combination} (hx : x.Faithful ω₀) (n : ℕ) :
    Meets ω₀ ω (ω = ω₀ ∧ x.value < 2 ^ n) (bits x n) fun digits => digits.length = n ∧
      (∀ d ∈ digits, d.Faithful ω₀ ∧ Binary (d.under ω)) ∧
      (weighted digits).under ω = x.under ω := by
  refine (Meets.mapM (fun i => IsFlag ω₀ ω (x.value.toNat.testBit i))
    (fun i => grows_allocBit _) fun i _ => (meets_allocBit _).mono And.left fun _ => id).bind
    (.mapM (fun _ => grows_allocBit _) _) (fun _ => (grows_enforce _ _ _).bind fun _ => .pure _)
    fun digits hdigits => ?_
  refine ((meets_enforce (weighted digits) 1 x).mono ?_ fun _ => id).bind (grows_enforce _ _ _)
    (fun _ => .pure _) fun _ hlaw => .pure ⟨?_, fun d hd => ?_, ?_⟩
  · rintro ⟨rfl, hlt⟩
    have hnonneg := hx.canonical.1
    have hm : x.value.toNat < 2 ^ n := by
      zify
      rwa [Int.toNat_of_nonneg hnonneg]
    have h := under_weighted_testBit hm
      (hdigits.imp fun i d hd => by rw [hd.faithful.under_eq, hd.value_eq])
    rw [h, Combination.under_one, mul_one, hx.under_eq, ← Int.cast_natCast,
      Int.toNat_of_nonneg hnonneg]
  · simpa using hdigits.length_eq.symm
  · obtain ⟨i, hi, rfl⟩ := List.getElem_of_mem hd
    have hflag := hdigits.get (hdigits.length_eq ▸ hi) hi
    exact ⟨hflag.faithful, hflag.binary⟩
  · simpa using hlaw

/-! ## Signs -/

/-- The flag carries whether the element lies in the upper half; it is honest for every element. -/
theorem meets_isNegative {x : Combination} (hx : x.Faithful ω₀) :
    Meets ω₀ ω (ω = ω₀) (isNegative x) (IsFlag ω₀ ω (Field.isNegative x.value)) := by
  refine (meets_allocBit _).bind (grows_allocBit _) (fun _ => (grows_mul _ _).bind fun _ =>
    (grows_bits _ _).bind fun _ => (grows_bits _ _).bind fun _ => .pure _) fun n hn => ?_
  refine (meets_mul hn.faithful hx).bind (grows_mul _ _) (fun _ => (grows_bits _ _).bind fun _ =>
    (grows_bits _ _).bind fun _ => .pure _) fun nx ⟨hnx, hproduct, _⟩ => ?_
  dsimp only
  set half : Combination := .constant Field.half with hhalf
  set r : Combination := half - x + nx * (2 : Int) - n * (2 * Field.half + 1) with hr
  have faithful_half : half.Faithful ω₀ := .constant _
  have faithful_r : r.Faithful ω₀ :=
    ((faithful_half.sub hx).add (hnx.scale _)).sub (hn.faithful.scale _)
  -- Which half `x` lies in decides which of the two distances `r` is.
  have value_r : r.value =
      if Field.isNegative x.value then x.value - Field.half - 1 else Field.half - x.value := by
    have hcanonical := hx.canonical
    simp only [Field.Canonical, Field.order] at hcanonical
    refine faithful_r.value_eq ?_ ?_
    · simp only [Field.isNegative_iff, Field.Canonical, Field.order, Field.half]
      split <;> omega
    · rw [hr, Combination.under_sub, Combination.under_add, Combination.under_sub,
        Combination.under_scale, Combination.under_scale, hhalf, Combination.under_constant,
        hnx.under_eq, hproduct, hn.faithful.under_eq, hn.value_eq, hx.under_eq, Field.cast_reduce]
      split <;> push_cast <;> ring
  have value_rest : (half - r).value = Field.half - r.value := by
    have hcanonical := hx.canonical
    simp only [Field.Canonical, Field.order] at hcanonical
    rw [faithful_half.value_sub faithful_r]
    refine Field.reduce_eq_self (x := Field.half - r.value) ?_
    simp only [value_r, Field.isNegative_iff, Field.Canonical, Field.order, Field.half]
    split <;> omega
  have bounds : r.value < 2 ^ Field.signedBits ∧ (half - r).value < 2 ^ Field.signedBits := by
    have hcanonical := hx.canonical
    simp only [Field.Canonical, Field.order] at hcanonical
    rw [value_rest, value_r]
    simp only [Field.isNegative_iff, Field.half, Field.signedBits]
    split <;> omega
  refine ((meets_bits faithful_r _).mono (fun h => ⟨h, bounds.1⟩) fun _ => id).bind
    (grows_bits _ _) (fun _ => (grows_bits _ _).bind fun _ => .pure _) fun _ _ => ?_
  exact ((meets_bits (faithful_half.sub faithful_r) _).mono (fun h => ⟨h, bounds.2⟩)
    fun _ => id).bind (grows_bits _ _) (fun _ => .pure _) fun _ _ => .pure hn

/-- Signed order goes by sign if the signs differ, and by the sign of the difference if not. -/
theorem toSigned_lt_iff {x y : Int} (hx : Field.Canonical x) (hy : Field.Canonical y) :
    Field.toSigned x < Field.toSigned y ↔
      (if Field.isNegative x = Field.isNegative y then Field.isNegative (Field.reduce (x - y))
        else Field.isNegative x) = true := by
  have hdifference : Field.reduce (x - y) = if x < y then x - y + Field.order else x - y := by
    simp only [Field.Canonical, Field.order] at *
    unfold Field.reduce Field.order
    split <;> omega
  simp only [Field.Canonical, Field.order] at *
  have hnegative := @Field.isNegative_iff
  unfold Field.toSigned
  cases hxs : Field.isNegative x <;> cases hys : Field.isNegative y <;>
    rw [Bool.eq_iff_iff, hnegative] at hxs hys <;>
    simp only [Bool.false_eq_true, Bool.true_eq_false, iff_false, iff_true, if_false, if_true,
      hdifference, hnegative, Field.order] at * <;>
    (try split) <;> omega

theorem meets_less {a b : Combination} (ha : a.Faithful ω₀) (hb : b.Faithful ω₀) :
    Meets ω₀ ω (ω = ω₀) (less a b) fun flag => flag.Faithful ω₀ ∧ (ω = ω₀ →
      flag.value = if Field.toSigned a.value < Field.toSigned b.value then 1 else 0) := by
  refine (meets_isNegative ha).bind (grows_isNegative _) (fun _ => (grows_isNegative _).bind
    fun _ => (grows_isNegative _).bind fun _ => (grows_mul _ _).bind fun _ => grows_select _ _ _)
    fun na hna => ?_
  refine (meets_isNegative hb).bind (grows_isNegative _) (fun _ => (grows_isNegative _).bind
    fun _ => (grows_mul _ _).bind fun _ => grows_select _ _ _) fun nb hnb => ?_
  refine (meets_isNegative (ha.sub hb)).bind (grows_isNegative _) (fun _ =>
    (grows_mul _ _).bind fun _ => grows_select _ _ _) fun nd hnd => ?_
  refine (meets_mul hna.faithful hnb.faithful).bind (grows_mul _ _) (fun _ => grows_select _ _ _)
    fun both ⟨hboth, _, hproduct⟩ => ?_
  dsimp only
  set same : Combination := 1 - na - nb + both * (2 : Int) with hsame
  have faithful_same : same.Faithful ω₀ :=
    ((Combination.Faithful.one.sub hna.faithful).sub hnb.faithful).add (hboth.scale _)
  have under_same (h : ω = ω₀) : same.under ω =
      if Field.isNegative a.value = Field.isNegative b.value then 1 else 0 := by
    subst h
    rw [hsame, Combination.under_add, Combination.under_sub, Combination.under_sub,
      Combination.under_scale, hproduct, hna.faithful.under_eq, hnb.faithful.under_eq,
      hna.value_eq, hnb.value_eq, Combination.under_one]
    cases Field.isNegative a.value <;> cases Field.isNegative b.value <;> norm_num
  refine (meets_select faithful_same hnd.faithful hna.faithful).mono (fun h => ⟨h, ?_⟩)
    fun flag hflag => ⟨hflag.1, ?_⟩
  · rw [under_same h]
    split <;> simp [Binary]
  · rintro rfl
    refine hflag.1.value_eq (by split <;> decide) ?_
    rw [hflag.2, under_same rfl, hnd.faithful.under_eq, hna.faithful.under_eq, hnd.value_eq,
      hna.value_eq, ha.value_sub hb]
    simp only [toSigned_lt_iff ha.canonical hb.canonical]
    by_cases hsame : Field.isNegative a.value = Field.isNegative b.value <;> simp [hsame]

/-! ## Integer division -/

/-- Dividing by `n` digits is honest under a condition that is zero; and also for operands of `n`
digits if, times the condition, what the remainder is short of the divisor has `n` digits. -/
def MayDivide (n : ℕ) (c a b : Int) : Prop :=
  c = 0 ∨ a < 2 ^ n ∧ 0 < b ∧ b < 2 ^ n ∧ Field.reduce (c * (b - a % b - 1)) < 2 ^ n

/-- Under a condition that is one, operands of `n` digits are enough. -/
theorem mayDivide_one {n : ℕ} {a b : Int} (hcanonical : Field.Canonical b) (ha : a < 2 ^ n)
    (hpos : 0 < b) (hb : b < 2 ^ n) : MayDivide n 1 a b := by
  have hnonneg : 0 ≤ a % b := Int.emod_nonneg _ hpos.ne'
  have hlt : a % b < b := Int.emod_lt_of_pos _ hpos
  simp only [Field.Canonical, Field.order] at hcanonical
  refine .inr ⟨ha, hpos, hb, ?_⟩
  rw [one_mul, Field.reduce_eq_self ⟨by omega, by unfold Field.order; omega⟩]
  omega

/-- Quotient and remainder carry what integer division gives, or zero if there is nothing to divide.
-/
theorem meets_divRem {c a b : Combination} {n : ℕ} (hc : c.Faithful ω₀) (ha : a.Faithful ω₀)
    (hb : b.Faithful ω₀) :
    Meets ω₀ ω (ω = ω₀ ∧ MayDivide n c.value a.value b.value) (divRem c a b n)
      fun result => (result.1.Faithful ω₀ ∧ result.1.value = Field.reduce
          (if c.value ≠ 0 ∧ b.value ≠ 0 then a.value.fdiv b.value else 0)) ∧
        result.2.Faithful ω₀ ∧ result.2.value = Field.reduce
          (if c.value ≠ 0 ∧ b.value ≠ 0 then a.value.fmod b.value else 0) := by
  have divides : (c.value != 0 && b.value != 0) = decide (c.value ≠ 0 ∧ b.value ≠ 0) := by
    rw [Bool.eq_iff_iff]
    simp
  unfold divRem
  dsimp only
  simp only [divides, decide_eq_true_eq]
  refine (meets_alloc _).bind (grows_alloc _) (fun _ => (grows_alloc _).bind fun _ =>
    (grows_bits _ _).bind fun _ => (grows_bits _ _).bind fun _ => (grows_mul _ _).bind fun _ =>
    (grows_bits _ _).bind fun _ => (grows_mul _ _).bind fun _ =>
    (grows_impliesEqual _ _ _).bind fun _ => .pure _) fun q hq => ?_
  refine (meets_alloc _).bind (grows_alloc _) (fun _ => (grows_bits _ _).bind fun _ =>
    (grows_bits _ _).bind fun _ => (grows_mul _ _).bind fun _ => (grows_bits _ _).bind fun _ =>
    (grows_mul _ _).bind fun _ => (grows_impliesEqual _ _ _).bind fun _ => .pure _) fun r hr => ?_
  -- What is carried if dividing is honest, as integers.
  have carried (h : MayDivide n c.value a.value b.value) :
      (c.value = 0 ∧ q.value = 0 ∧ r.value = 0) ∨
      (q.value < 2 ^ n ∧ r.value < 2 ^ n ∧ b.value * q.value + r.value = a.value ∧
        Field.reduce (c.value * (b.value - r.value - 1)) < 2 ^ n) := by
    by_cases hzero : c.value = 0
    · exact .inl ⟨hzero, by rw [hq.2]; simp [hzero], by rw [hr.2]; simp [hzero]⟩
    · obtain ⟨halt, hbpos, hblt, hshort⟩ := h.resolve_left hzero
      have hnonneg := ha.canonical.1
      have hboth : c.value ≠ 0 ∧ b.value ≠ 0 := ⟨hzero, hbpos.ne'⟩
      have hqle : a.value / b.value ≤ a.value := Int.ediv_le_self _ hnonneg
      have hrlt : a.value % b.value < b.value := Int.emod_lt_of_pos _ hbpos
      have hqvalue : q.value = a.value / b.value := by
        rw [hq.2, if_pos hboth, Int.fdiv_eq_ediv_of_nonneg _ hbpos.le, Field.reduce_eq_self
          ⟨Int.ediv_nonneg hnonneg hbpos.le, hqle.trans_lt ha.canonical.2⟩]
      have hrvalue : r.value = a.value % b.value := by
        rw [hr.2, if_pos hboth, Int.fmod_eq_emod_of_nonneg _ hbpos.le, Field.reduce_eq_self
          ⟨Int.emod_nonneg _ hbpos.ne', hrlt.trans hb.canonical.2⟩]
      refine .inr ⟨hqvalue ▸ hqle.trans_lt halt, hrvalue ▸ hrlt.trans hblt, ?_, hrvalue ▸ hshort⟩
      rw [hqvalue, hrvalue, Int.mul_ediv_add_emod]
  have positive : (0 : Int) < 2 ^ n := by positivity
  refine ((meets_bits hq.1 n).mono (fun h => ⟨h.1, ?_⟩) fun _ => id).bind (grows_bits _ _)
    (fun _ => (grows_bits _ _).bind fun _ => (grows_mul _ _).bind fun _ =>
    (grows_bits _ _).bind fun _ => (grows_mul _ _).bind fun _ =>
    (grows_impliesEqual _ _ _).bind fun _ => .pure _) fun _ _ => ?_
  · rcases carried h.2 with h | h <;> omega
  refine ((meets_bits hr.1 n).mono (fun h => ⟨h.1, ?_⟩) fun _ => id).bind (grows_bits _ _)
    (fun _ => (grows_mul _ _).bind fun _ => (grows_bits _ _).bind fun _ =>
    (grows_mul _ _).bind fun _ => (grows_impliesEqual _ _ _).bind fun _ => .pure _) fun _ _ => ?_
  · rcases carried h.2 with h | h <;> omega
  have faithful_short : (b - r - 1).Faithful ω₀ := (hb.sub hr.1).sub .one
  refine ((meets_mul hc faithful_short).mono And.left fun _ => id).bind (grows_mul _ _)
    (fun _ => (grows_bits _ _).bind fun _ => (grows_mul _ _).bind fun _ =>
    (grows_impliesEqual _ _ _).bind fun _ => .pure _) fun short hshort => ?_
  refine ((meets_bits hshort.1 n).mono (fun h => ⟨h.1, ?_⟩) fun _ => id).bind (grows_bits _ _)
    (fun _ => (grows_mul _ _).bind fun _ => (grows_impliesEqual _ _ _).bind fun _ => .pure _)
    fun _ _ => ?_
  · have hvalue : short.value = Field.reduce (c.value * (b.value - r.value - 1)) := by
      rw [hshort.2.1, (hb.sub hr.1).value_sub .one, hb.value_sub hr.1, ← Field.cast_eq_iff]
      push_cast [Field.cast_reduce]
      rfl
    rw [hvalue]
    rcases carried h.2 with ⟨h, -, -⟩ | ⟨-, -, -, h⟩
    · rw [h, zero_mul, Field.reduce_zero]
      exact positive
    · exact h
  refine ((meets_mul hb hq.1).mono And.left fun _ => id).bind (grows_mul _ _)
    (fun _ => (grows_impliesEqual _ _ _).bind fun _ => .pure _) fun product hproduct => ?_
  refine ((meets_impliesEqual c (product + r) a).mono (fun h => ?_) fun _ => id).bind
    (grows_impliesEqual _ _ _) (fun _ => .pure _) fun _ _ => .pure ⟨hq, hr⟩
  obtain ⟨rfl, h⟩ := h
  rcases carried h with ⟨h, -, -⟩ | ⟨-, -, h, -⟩
  · exact .inl (by rw [hc.under_eq, h, Int.cast_zero])
  · right
    rw [Combination.under_add, hproduct.2.2, hb.under_eq, hq.1.under_eq, hr.1.under_eq,
      ha.under_eq, ← h]
    push_cast
    rfl

/-! ## One of several flags -/

/-- The flags that are made for the places of a list, of which one is set. -/
structure OneHot (ω₀ ω : Valuation) (index : Int) (flags : List Combination) : Prop where
  isFlag : ∀ (i : ℕ) (h : i < flags.length), IsFlag ω₀ ω (Int.ofNat i == index) flags[i]
  sum : (flags.map (·.under ω)).sum = 1

theorem meets_oneHot {index : Int} {count : ℕ} :
    Meets ω₀ ω (ω = ω₀ ∧ 0 ≤ index ∧ index < count) (oneHot index count)
      fun flags => flags.length = count ∧ OneHot ω₀ ω index flags := by
  refine (Meets.mapM (fun i => IsFlag ω₀ ω (Int.ofNat i == index))
    (fun i => grows_allocBit _) fun i _ => (meets_allocBit _).mono And.left fun _ => id).bind
    (.mapM (fun _ => grows_allocBit _) _) (fun _ => (grows_enforce _ _ _).bind fun _ => .pure _)
    fun flags hflags => ?_
  have hlength : flags.length = count := by simpa using hflags.length_eq.symm
  have hflag (i : ℕ) (h : i < flags.length) : IsFlag ω₀ ω (Int.ofNat i == index) flags[i] := by
    have hi := hflags.get (i := i) (by simpa using hlength ▸ h) h
    simpa using hi
  refine ((meets_enforce _ 1 1).mono ?_ fun _ => id).bind (grows_enforce _ _ _)
    (fun _ => .pure _) fun _ hlaw => .pure ⟨hlength, hflag, ?_⟩
  · rintro ⟨rfl, hnonneg, hlt⟩
    obtain ⟨k, rfl⟩ := Int.eq_ofNat_of_zero_le hnonneg
    have hk : k < flags.length := by omega
    have hvalues : flags.map (·.under ω) =
        (List.range flags.length).map fun i => if i = k then (1 : Element) else 0 := by
      refine List.ext_getElem (by simp) fun i h₁ h₂ => ?_
      simp only [List.length_map] at h₁
      have hi := hflag i h₁
      simp only [List.getElem_map, List.getElem_range, hi.faithful.under_eq, hi.value_eq,
        Int.ofNat_eq_natCast, beq_iff_eq, Nat.cast_inj]
      split <;> simp
    have hcount : (List.range flags.length).count k = 1 :=
      List.count_eq_one_of_mem List.nodup_range (List.mem_range.2 hk)
    rw [under_foldl_add, Combination.under_zero, Combination.under_one, hvalues, zero_add, mul_one,
      List.sum_map_ite_eq, hcount]
    simp
  · rwa [under_foldl_add, Combination.under_zero, Combination.under_one, zero_add, mul_one] at hlaw

end Gadget

end FieldLisp
