import FieldLisp.Circuit
import FieldLisp.Proofs.PrimeField

/-!
# Combinations under a valuation

A valuation gives every variable of a circuit a field element, and the variable that stands for one
the value one. What a combination is worth under it is a sum over its terms, so it goes with
addition and scaling whatever the order of the terms:

* `under_add`, `under_sub`, `under_scale`: the operations on combinations are those of the field;
* `under_eq_of_isConstant`: a constant is worth the same under all valuations;
* `Faithful`: a combination carries the value that it has under a valuation. This is what makes
  decisions on constants independent of witnesses: a faithful constant carries one value only.
-/

namespace FieldLisp

open FieldLisp.Field (Element)

/-- A field element for every variable. -/
structure Valuation where
  value : ℕ → Element
  value_one : value Combination.one = 1

/-- The valuation that an assignment gives. -/
def Valuation.ofAssignment (assignment : Array Int) : Valuation where
  value i := if i = Combination.one then 1 else (assignment.getD i 0 : Int)
  value_one := by simp

namespace Combination

/-- What terms are worth when each variable has a value. -/
def weigh (value : ℕ → Element) (terms : List Term) : Element :=
  (terms.map fun t => (t.2 : Element) * value t.1).sum

/-- What a combination is worth under a valuation. -/
def under (ω : Valuation) (x : Combination) : Element := weigh ω.value x.terms

section
variable (value : ℕ → Element)

@[simp] theorem weigh_nil : weigh value [] = 0 := rfl

@[simp] theorem weigh_cons (t : Term) (ts : List Term) :
    weigh value (t :: ts) = (t.2 : Element) * value t.1 + weigh value ts := by
  simp [weigh]

theorem weigh_put (i : ℕ) (c : Int) (rest : List Term) :
    weigh value (put i c rest) = (c : Element) * value i + weigh value rest := by
  unfold put
  split
  · simp [*]
  · simp

theorem weigh_mergeTerm (i : ℕ) (c : Int) (xs : List Term) {rest : List Term → List Term}
    (hrest : ∀ ys, weigh value (rest ys) = weigh value xs + weigh value ys) (ys : List Term) :
    weigh value (mergeTerm i c rest ys) =
      (c : Element) * value i + weigh value xs + weigh value ys := by
  induction ys with
  | nil => simp [mergeTerm, hrest]
  | cons y ys ih =>
    obtain ⟨j, d⟩ := y
    rw [mergeTerm]
    split
    · simp only [weigh_cons, ih]
      ring
    · split
      · simp only [weigh_cons, hrest]
        ring
      · have : i = j := by omega
        subst this
        simp only [weigh_put, hrest, weigh_cons, Field.cast_reduce, Int.cast_add]
        ring

theorem weigh_mergeTerms (xs ys : List Term) :
    weigh value (mergeTerms xs ys) = weigh value xs + weigh value ys := by
  induction xs generalizing ys with
  | nil => simp [mergeTerms]
  | cons x xs ih =>
    obtain ⟨i, a⟩ := x
    rw [mergeTerms, weigh_mergeTerm value i a xs ih, weigh_cons]

end

/-- The value that a circuit computes for terms is what they are worth. -/
theorem cast_evalTerms (assignment : Array Int) (terms : List Term) :
    (evalTerms assignment terms : Element) =
      weigh (fun i => (assignment.getD i 0 : Int)) terms := by
  have h (n : Int) : (terms.foldl (fun sum (t : Term) => sum + t.2 * assignment.getD t.1 0) n : Int)
      = (n : Element) + weigh (fun i => (assignment.getD i 0 : Int)) terms := by
    induction terms generalizing n with
    | nil => simp
    | cons t ts ih =>
      rw [List.foldl_cons, ih, weigh_cons]
      push_cast
      ring
  rw [evalTerms, Field.cast_reduce]
  simpa using h 0

theorem cast_evalTerms_ofAssignment {assignment : Array Int} (h : assignment.getD one 0 = 1)
    (terms : List Term) :
    (evalTerms assignment terms : Element) =
      weigh (Valuation.ofAssignment assignment).value terms := by
  rw [cast_evalTerms]
  congr 1
  funext i
  by_cases hi : i = one
  · subst hi
    simp [Valuation.ofAssignment, h]
  · simp [Valuation.ofAssignment, hi]

/-- The value that a circuit computes is the canonical number for what a combination is worth. -/
theorem representative_under {assignment : Array Int} (h : assignment.getD one 0 = 1)
    (x : Combination) :
    Field.representative (x.under (.ofAssignment assignment)) = evalTerms assignment x.terms := by
  rw [under, ← cast_evalTerms_ofAssignment h, Field.representative_cast, evalTerms,
    Field.reduce_reduce]

/-! ## Operations -/

section
variable (ω : Valuation)

@[simp] theorem under_add (x y : Combination) : (x + y).under ω = x.under ω + y.under ω :=
  weigh_mergeTerms ω.value x.terms y.terms

@[simp] theorem under_scale (x : Combination) (n : Int) :
    (x * n).under ω = x.under ω * (n : Element) := by
  change (x.scale n).under ω = _
  have hn : (n : Element) = (Field.reduce n : Int) := (Field.cast_reduce n).symm
  unfold scale
  dsimp only
  split
  · rename_i h
    rw [hn, h]
    simp [under]
  · rw [hn]
    simp only [under]
    generalize x.terms = terms
    induction terms with
    | nil => simp
    | cons t ts ih =>
      simp only [List.map_cons, weigh_cons, ih, Field.cast_reduce, Int.cast_mul]
      ring

@[simp] theorem under_neg (x : Combination) : (-x).under ω = -x.under ω := by
  change (x * (-1 : Int)).under ω = _
  simp

@[simp] theorem under_sub (x y : Combination) : (x - y).under ω = x.under ω - y.under ω := by
  change (x + -y).under ω = _
  rw [under_add, under_neg, sub_eq_add_neg]

@[simp] theorem under_zero : (0 : Combination).under ω = 0 := rfl

@[simp] theorem under_constant (n : Int) : (constant n).under ω = (n : Element) := by
  unfold constant under
  dsimp only
  split
  · rename_i h
    rw [weigh_nil, ← Field.cast_reduce n, h, Int.cast_zero]
  · simp [ω.value_one]

@[simp] theorem under_one : (1 : Combination).under ω = 1 := by
  change (constant 1).under ω = 1
  simp

@[simp] theorem under_ofVariable (i : ℕ) (v : Int) : (ofVariable i v).under ω = ω.value i := by
  simp [ofVariable, under]

end

/-- A constant is worth the same under all valuations. -/
theorem under_eq_of_isConstant {x : Combination} (h : x.isConstant) (ω ω' : Valuation) :
    x.under ω = x.under ω' := by
  rw [isConstant, List.all_eq_true] at h
  unfold under weigh
  congr 1
  refine List.map_congr_left fun t ht => ?_
  rw [beq_iff_eq.1 (h t ht), ω.value_one, ω'.value_one]

/-! ## Faithful combinations -/

/-- A combination carries the value that it has under a valuation. -/
structure Faithful (ω : Valuation) (x : Combination) : Prop where
  canonical : Field.Canonical x.value
  under_eq : x.under ω = x.value

namespace Faithful
variable {ω : Valuation} {x y : Combination}

theorem value_eq (hx : Faithful ω x) {n : Int} (hn : Field.Canonical n) (h : x.under ω = n) :
    x.value = n :=
  (Field.cast_inj hx.canonical hn).1 (hx.under_eq.symm.trans h)

/-- What is computed from the terms is what is carried. -/
theorem evalTerms_eq {assignment : Array Int} (h : assignment.getD Combination.one 0 = 1)
    (hx : Faithful (.ofAssignment assignment) x) : evalTerms assignment x.terms = x.value := by
  rw [← representative_under h, hx.under_eq, Field.representative_cast,
    Field.reduce_eq_self hx.canonical]

theorem value_eq_zero (hx : Faithful ω x) : x.value = 0 ↔ x.under ω = 0 := by
  rw [hx.under_eq, Field.cast_eq_zero hx.canonical]

theorem add (hx : Faithful ω x) (hy : Faithful ω y) : Faithful ω (x + y) where
  canonical := Field.reduce_canonical _
  under_eq := by
    change _ = (Field.reduce (x.value + y.value) : Element)
    simp [hx.under_eq, hy.under_eq]

theorem scale (hx : Faithful ω x) (n : Int) : Faithful ω (x * n) := by
  have hvalue : (x * n).value = Field.reduce (x.value * n) := by
    change (x.scale n).value = _
    unfold Combination.scale
    dsimp only
    split
    · rename_i h
      refine (Field.reduce_eq_of_cast Field.canonical_zero ?_).symm
      rw [Int.cast_mul, ← Field.cast_reduce n, h]
      simp
    · rw [← Field.cast_eq_iff]
      simp
  refine ⟨hvalue ▸ Field.reduce_canonical _, ?_⟩
  rw [hvalue]
  simp [hx.under_eq]

theorem neg (hx : Faithful ω x) : Faithful ω (-x) := hx.scale (-1)

theorem sub (hx : Faithful ω x) (hy : Faithful ω y) : Faithful ω (x - y) := hx.add hy.neg

theorem zero : Faithful ω 0 := ⟨Field.canonical_zero, by simp [show (0 : Combination).value = 0 from rfl]⟩

theorem constant (n : Int) : Faithful ω (.constant n) where
  canonical := Field.reduce_canonical n
  under_eq := by rw [under_constant, Combination.constant, Field.cast_reduce]

theorem one : Faithful ω 1 := constant 1

theorem ofVariable {i : ℕ} {v : Int} (hv : Field.Canonical v) (h : ω.value i = v) :
    Faithful ω (.ofVariable i v) :=
  ⟨hv, (under_ofVariable ω i v).trans h⟩

/-- A faithful constant is worth the value that it carries, under every valuation. -/
theorem under_eq_of_isConstant (hx : Faithful ω x) (h : x.isConstant) (ω' : Valuation) :
    x.under ω' = x.value := by
  rw [Combination.under_eq_of_isConstant h ω' ω, hx.under_eq]

theorem value_sub (hx : Faithful ω x) (hy : Faithful ω y) :
    (x - y).value = Field.reduce (x.value - y.value) := by
  rw [← Field.reduce_eq_self (hx.sub hy).canonical, ← Field.cast_eq_iff, ← (hx.sub hy).under_eq]
  simp [hx.under_eq, hy.under_eq]

theorem value_scale (hx : Faithful ω x) (n : Int) :
    (x * n).value = Field.reduce (x.value * n) := by
  rw [← Field.reduce_eq_self (hx.scale n).canonical, ← Field.cast_eq_iff, ← (hx.scale n).under_eq]
  simp [hx.under_eq]

end Faithful

end Combination

/-! ## Constraints -/

/-- The product of the first two sides is worth the third. -/
def Constraint.Holds (ω : Valuation) (k : Constraint) : Prop :=
  Combination.weigh ω.value k.a * Combination.weigh ω.value k.b = Combination.weigh ω.value k.c

theorem Circuit.holds_iff {assignment : Array Int} (h : assignment.getD Combination.one 0 = 1)
    (k : Constraint) : holds assignment k ↔ k.Holds (.ofAssignment assignment) := by
  have hcanonical (terms : List Term) : Field.Canonical (Combination.evalTerms assignment terms) :=
    Field.reduce_canonical _
  rw [holds, beq_iff_eq, Constraint.Holds, ← Combination.cast_evalTerms_ofAssignment h,
    ← Combination.cast_evalTerms_ofAssignment h, ← Combination.cast_evalTerms_ofAssignment h,
    ← Int.cast_mul, Field.cast_eq_iff, Field.reduce_eq_self (hcanonical k.c)]

end FieldLisp
