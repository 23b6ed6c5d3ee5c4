import FieldLisp.Proofs.Circuit.Signs

/-!
# What the constraints of a gadget force

A zero test, a choice, digits and one of several flags leave no choice to whoever picks the
assignment. Nothing is asked of the circuit that they are added to, nor of the values that variables
have in it: those are suggestions. There is one exception. A gadget whose input has no variables
takes the value that the input carries, and adds no constraint; so this value has to be the one that
the input is worth.

* `Combination.Candid`: what is asked of an input; `Obtains.candid`: whatever honest operations
  obtain satisfies it;
* `Circuit.Forces`: added constraints force a property of the result; `Forces.bind` and
  `Forces.mapM` compose such operations;
* `forces_isZero`, `forces_select`, `forces_bits`, `forces_oneHot`: the gadgets, over field elements;
* `Circuit.Pins`, `Forces.pins`: the same over numbers that assignments give;
* `Gadget.results_pinned`: each of the four gadgets pins its result.
-/

namespace FieldLisp

open FieldLisp.Field (Element)
open EStateM (bind_eq_ok pure_eq_ok)

variable {α β : Type}

/-! ## Inputs -/

namespace Combination

/-- What a combination evaluates to under an assignment. -/
def eval (x : Combination) (w : Array Int) : Int := evalTerms w x.terms

/-- Without variables, a combination carries what it is worth. Only combinations that were computed
from variables of different circuits may fail to. -/
def Candid (x : Combination) : Prop := x.isConstant = true → x.value = x.eval #[1]

theorem eval_canonical (x : Combination) (w : Array Int) : Field.Canonical (x.eval w) :=
  Field.reduce_canonical _

theorem under_eq_eval {w : Array Int} (hw : w.getD one 0 = 1) (x : Combination) :
    x.under (.ofAssignment w) = (x.eval w : Element) :=
  (cast_evalTerms_ofAssignment hw x.terms).symm

theorem eval_eq_iff {w : Array Int} (hw : w.getD one 0 = 1) {x : Combination} {v : Int}
    (hv : Field.Canonical v) : x.eval w = v ↔ x.under (.ofAssignment w) = v := by
  rw [under_eq_eval hw, Field.cast_inj (x.eval_canonical w) hv]

/-- A candid constant carries what it is worth under every valuation. -/
theorem Candid.faithful {x : Combination} (hx : x.Candid) (hconst : x.isConstant = true)
    (ω : Valuation) : x.Faithful ω := by
  have hcanonical : Field.Canonical x.value := hx hconst ▸ x.eval_canonical #[1]
  refine ⟨hcanonical, ?_⟩
  rw [under_eq_of_isConstant hconst ω (.ofAssignment #[1])]
  exact (eval_eq_iff rfl hcanonical).1 (hx hconst).symm

theorem Faithful.candid {ω : Valuation} {x : Combination} (hx : x.Faithful ω) : x.Candid :=
  fun hconst => ((eval_eq_iff rfl hx.canonical).2 (hx.under_eq_of_isConstant hconst _)).symm

end Combination

namespace Circuit

/-- What honest operations have obtained is candid, and so are differences, also with numbers. -/
theorem Obtains.candid {limit : Option Int} {operations : List Operation} {s : Circuit}
    {known : List Combination} (h : Obtains limit operations s known) {x y : Operand}
    (hknown : ∀ z, .combination z ∈ [x, y] → z ∈ known) :
    x.toCombination.Candid ∧ (x.toCombination - y.toCombination).Candid := by
  have hs := h.consistent
  have hfits : s.Fits (.ofAssignment s.assignment) := by
    apply fits_ofAssignment
    rw [Array.getD_eq_getD_getElem?, ← Array.getElem?_toList, hs.one]
    rfl
  have faithful (z : Operand) (hz : z ∈ [x, y]) :
      z.toCombination.Faithful (.ofAssignment s.assignment) := by
    cases z with
    | number n => exact .constant n
    | combination c => exact hs.faithful _ hfits c (hknown c hz)
  have hx := faithful x (by simp)
  have hy := faithful y (by simp)
  exact ⟨hx.candid, (hx.sub hy).candid⟩

/-! ## Forcing, operation by operation -/

/-- Whatever circuit the operation is run on, it puts constraints behind those that are there, and
under every valuation that satisfies the new ones the result has the property. Unlike `Meets`, this
does not look at the assignment of the circuit, which may have been overwritten. -/
def Forces (ω : Valuation) (x : CircuitM α) (post : α → Prop) : Prop :=
  ∀ s a t, x s = .ok a t → ∃ added, t.constraints.toList = s.constraints.toList ++ added ∧
    ((∀ k ∈ added, k.Holds ω) → post a)

namespace Forces
variable {ω : Valuation}

theorem pure {a : α} {post : α → Prop} (h : post a) :
    Forces ω (Pure.pure a : CircuitM α) post := by
  intro s b t hrun
  obtain ⟨rfl, rfl⟩ := pure_eq_ok.1 hrun
  exact ⟨[], (List.append_nil _).symm, fun _ => h⟩

/-- What the first operation forces may be used for the second, whose own constraints it does not
depend on. -/
theorem bind {x : CircuitM α} {f : α → CircuitM β} {mid : α → Prop} {post : β → Prop}
    (hx : Forces ω x mid) (hf : ∀ a, Forces ω (f a) fun b => mid a → post b) :
    Forces ω (x >>= f) post := by
  intro s b u hrun
  obtain ⟨a, t, hxs, hft⟩ := bind_eq_ok.1 hrun
  obtain ⟨first, hfirst, hmid⟩ := hx s a t hxs
  obtain ⟨second, hsecond, hpost⟩ := hf a t b u hft
  refine ⟨first ++ second, by rw [hsecond, hfirst, List.append_assoc], fun hadded => ?_⟩
  rw [List.forall_mem_append] at hadded
  exact hpost hadded.2 (hmid hadded.1)

theorem mono {x : CircuitM α} {post post' : α → Prop} (hx : Forces ω x post)
    (h : ∀ a, post a → post' a) : Forces ω x post' := by
  intro s a t hrun
  obtain ⟨added, hadded, hpost⟩ := hx s a t hrun
  exact ⟨added, hadded, h a ∘ hpost⟩

theorem mapM {f : α → CircuitM β} {post : β → Prop} (hf : ∀ a, Forces ω (f a) post)
    (xs : List α) :
    Forces ω (xs.mapM f) fun ys => ys.length = xs.length ∧ ∀ y ∈ ys, post y := by
  induction xs with
  | nil => exact .pure (by simp)
  | cons x xs ih =>
    rw [List.mapM_cons]
    refine (hf x).bind fun y => ih.bind fun ys => .pure fun ⟨hlength, hys⟩ hy => ⟨?_, ?_⟩
    · rw [List.length_cons, List.length_cons, hlength]
    · exact List.forall_mem_cons.2 ⟨hy, hys⟩

end Forces

/-- What a variable stands for is free. -/
theorem forces_alloc (ω : Valuation) (v : Int) : Forces ω (alloc v) fun _ => True := by
  intro s c t hrun
  cases hrun
  exact ⟨[], (List.append_nil _).symm, fun _ => trivial⟩

theorem forces_enforce (ω : Valuation) (a b c : Combination) :
    Forces ω (enforce a b c) fun _ => a.under ω * b.under ω = c.under ω := by
  intro s u t hrun
  obtain rfl := enforce_eq_ok hrun
  exact ⟨[⟨a.terms, b.terms, c.terms⟩], Array.toList_push, fun h => h _ List.mem_cons_self⟩

end Circuit

namespace Gadget

open Circuit

variable (ω : Valuation)

theorem forces_allocBit (value : Bool) :
    Forces ω (allocBit value) fun bit => Binary (bit.under ω) := by
  refine (forces_alloc ω _).bind fun bit => (forces_enforce ω bit (1 - bit) 0).bind fun _ =>
    .pure fun hbit _ => binary_iff.2 ?_
  simpa using hbit

theorem forces_isZero {x : Combination} (hx : x.Candid) : Forces ω (isZero x) fun test =>
    test.1.under ω = (if x.under ω = 0 then 1 else 0) ∧
      (x.under ω ≠ 0 → test.2.under ω = (x.under ω)⁻¹) := by
  unfold isZero
  dsimp only
  split
  · rename_i hconst
    have hfaithful := hx.faithful hconst ω
    refine .pure ⟨?_, fun hne => ?_⟩
    · simp only [Combination.under_constant, hfaithful.value_eq_zero]
      split <;> simp
    · rw [Combination.under_constant, if_neg (mt hfaithful.value_eq_zero.1 hne), Field.cast_invert,
        hfaithful.under_eq]
  · refine (forces_alloc ω _).bind fun inverse => (forces_alloc ω _).bind fun zero =>
      (forces_enforce ω x inverse (1 - zero)).bind fun _ => (forces_enforce ω x zero 0).bind fun _ =>
        .pure fun hzeros hproduct _ _ => ?_
    rw [Combination.under_sub, Combination.under_one] at hproduct
    rw [Combination.under_zero] at hzeros
    exact zero_test_of_products hproduct hzeros

theorem forces_select (flag : Combination) {x y : Combination} (hxy : (x - y).Candid) :
    Forces ω (select flag x y) fun chosen =>
      chosen.under ω = y.under ω + flag.under ω * (x.under ω - y.under ω) := by
  unfold select
  dsimp only
  split
  · rename_i hconst
    refine .pure ?_
    rw [Combination.under_add, Combination.under_scale, ← (hxy.faithful hconst ω).under_eq,
      Combination.under_sub]
  · refine (forces_alloc ω _).bind fun chosen =>
      (forces_enforce ω flag (x - y) (chosen - y)).bind fun _ => .pure fun hproduct _ => ?_
    rw [Combination.under_sub, Combination.under_sub] at hproduct
    rw [hproduct]
    ring

theorem forces_bits (x : Combination) (n : ℕ) : Forces ω (bits x n) fun digits =>
    digits.length = n ∧ (∀ d ∈ digits, Binary (d.under ω)) ∧
      (weighted digits).under ω = x.under ω := by
  refine (Forces.mapM (fun _ => forces_allocBit ω _) (List.range n)).bind fun digits =>
    (forces_enforce ω (weighted digits) 1 x).bind fun _ =>
      .pure fun hproduct ⟨hlength, hdigits⟩ => ⟨?_, hdigits, ?_⟩
  · rw [hlength, List.length_range]
  · simpa using hproduct

theorem forces_oneHot (index : Int) (count : ℕ) : Forces ω (oneHot index count) fun flags =>
    flags.length = count ∧ (∀ flag ∈ flags, Binary (flag.under ω)) ∧
      (flags.map (·.under ω)).sum = 1 := by
  refine (Forces.mapM (fun _ => forces_allocBit ω _) (List.range count)).bind fun flags =>
    (forces_enforce ω (flags.foldl (· + ·) 0) 1 1).bind fun _ =>
      .pure fun hproduct ⟨hlength, hflags⟩ => ⟨?_, hflags, ?_⟩
  · rw [hlength, List.length_range]
  · simpa [under_foldl_add] using hproduct

end Gadget

/-! ## From elements to numbers -/

namespace Circuit

/-- Without a limit the operation succeeds. Wherever it does, it leaves the constraints that are
there, and under every assignment that satisfies those that it has added the result has the
property. -/
def Pins (x : CircuitM α) (post : Array Int → α → Prop) : Prop :=
  ∀ s, (s.limit = none → ∃ a t, x s = .ok a t) ∧
    ∀ a t, x s = .ok a t → s.constraints.toList <+: t.constraints.toList ∧
      ∀ w : Array Int, w.getD Combination.one 0 = 1 → (∀ k ∈ since s t, holds w k = true) → post w a

theorem Forces.pins {x : CircuitM α} {post : Array Int → α → Prop} (hgrows : Grows x)
    (hx : ∀ w : Array Int, w.getD Combination.one 0 = 1 →
      Forces (.ofAssignment w) x (post w)) : Pins x post := by
  refine fun s => ⟨fun hlimit => ?_, fun a t hrun => ⟨?_, fun w hw hadded => ?_⟩⟩
  · obtain ⟨a, t, hrun, -⟩ := hgrows s hlimit
    exact ⟨a, t, hrun⟩
  · obtain ⟨added, happend, -⟩ := hx #[1] rfl s a t hrun
    exact ⟨added, happend.symm⟩
  · obtain ⟨added, happend, hpost⟩ := hx w hw s a t hrun
    rw [since, happend, ← Array.length_toList, List.drop_left] at hadded
    exact hpost fun k hk => (holds_iff hw k).1 (hadded k hk)

end Circuit

namespace Gadget

open Circuit

/-- Among elements that are zero or one, the sum counts the ones. -/
theorem sum_eq_count {xs : List Element} (h : ∀ x ∈ xs, Binary x) :
    xs.sum = ((xs.count 1 : ℕ) : Element) := by
  induction xs with
  | nil => simp
  | cons x xs ih =>
    rw [List.forall_mem_cons] at h
    rw [List.sum_cons, ih h.2, List.count_cons]
    rcases h.1 with rfl | rfl
    · simp
    · simp [add_comm]

/-- Fewer flags than the field has elements cannot make up one in any other way. -/
theorem count_one_of_sum {xs : List Element} (h : ∀ x ∈ xs, Binary x) (hsum : xs.sum = 1)
    (hfew : (xs.length : Int) < Field.order) : xs.count 1 = 1 := by
  have hle : xs.count 1 ≤ xs.length := List.count_le_length
  have hcast : ((xs.count 1 : Int) : Element) = (1 : Int) := by
    rw [Int.cast_natCast, ← sum_eq_count h, hsum, Int.cast_one]
  have hcanonical : Field.Canonical (xs.count 1 : Int) := ⟨by omega, by omega⟩
  exact_mod_cast (Field.cast_inj hcanonical Field.canonical_one).1 hcast

section
variable {w : Array Int} (hw : w.getD Combination.one 0 = 1)
include hw

theorem eval_eq_zero_iff {x : Combination} : x.eval w = 0 ↔ x.under (.ofAssignment w) = 0 := by
  rw [Combination.eval_eq_iff hw Field.canonical_zero, Int.cast_zero]

theorem eval_eq_one_iff {x : Combination} : x.eval w = 1 ↔ x.under (.ofAssignment w) = 1 := by
  rw [Combination.eval_eq_iff hw Field.canonical_one, Int.cast_one]

theorem eval_zero_test {x zero inverse : Combination}
    (hzero : zero.under (.ofAssignment w) = if x.under (.ofAssignment w) = 0 then 1 else 0)
    (hinverse : x.under (.ofAssignment w) ≠ 0 →
      inverse.under (.ofAssignment w) = (x.under (.ofAssignment w))⁻¹) :
    zero.eval w = (if x.eval w = 0 then 1 else 0) ∧
      (x.eval w ≠ 0 → Field.reduce (x.eval w * inverse.eval w) = 1) := by
  refine ⟨?_, fun hne => ?_⟩
  · rw [Combination.eval_eq_iff hw (by split <;> decide), hzero]
    simp only [eval_eq_zero_iff hw]
    split <;> simp
  · rw [ne_eq, eval_eq_zero_iff hw] at hne
    refine Field.reduce_eq_of_cast Field.canonical_one ?_
    rw [Int.cast_mul, ← Combination.under_eq_eval hw, ← Combination.under_eq_eval hw, hinverse hne,
      mul_inv_cancel₀ hne, Int.cast_one]

theorem eval_choice {flag x y chosen : Combination}
    (hchosen : chosen.under (.ofAssignment w) = y.under (.ofAssignment w) +
      flag.under (.ofAssignment w) * (x.under (.ofAssignment w) - y.under (.ofAssignment w))) :
    (flag.eval w = 0 → chosen.eval w = y.eval w) ∧
      (flag.eval w = 1 → chosen.eval w = x.eval w) := by
  rw [eval_eq_zero_iff hw, eval_eq_one_iff hw, Combination.eval_eq_iff hw (y.eval_canonical w),
    Combination.eval_eq_iff hw (x.eval_canonical w), hchosen, ← Combination.under_eq_eval hw,
    ← Combination.under_eq_eval hw]
  constructor <;> intro hflag <;> rw [hflag] <;> ring

/-- With 63 digits at most the sum of their powers does not reach around the field. -/
theorem eval_digits {n : ℕ} (hn : n ≤ 63) {x : Combination} {digits : List Combination}
    (hlength : digits.length = n) (hdigits : ∀ d ∈ digits, Binary (d.under (.ofAssignment w)))
    (hweighted : (weighted digits).under (.ofAssignment w) = x.under (.ofAssignment w)) :
    x.eval w < 2 ^ n ∧
      digits.map (·.eval w) = (List.range n).map fun i => x.eval w / 2 ^ i % 2 := by
  obtain ⟨m, hm, htest⟩ := exists_testBit_eq hdigits
  rw [hlength] at hm htest
  have hx : x.eval w = m := by
    rw [Combination.eval, ← Combination.representative_under hw, ← hweighted,
      under_weighted_testBit hm htest, representative_natCast hn hm]
  have hdigit (i : ℕ) (d : Combination)
      (hd : d.under (.ofAssignment w) = ((if m.testBit i then 1 else 0 : Int) : Element)) :
      (m : Int) / 2 ^ i % 2 = d.eval w := by
    rw [(Combination.eval_eq_iff hw (by split <;> decide)).2 hd]
    have htoNat := Nat.toNat_testBit m i
    zify at htoNat
    rw [← htoNat]
    cases m.testBit i <;> rfl
  have hmaps : List.Forall₂ (· = ·) ((List.range n).map fun i => (m : Int) / 2 ^ i % 2)
      (digits.map (·.eval w)) := by
    rw [List.forall₂_map_left_iff, List.forall₂_map_right_iff]
    exact htest.imp hdigit
  rw [List.forall₂_eq_eq_eq] at hmaps
  rw [hx]
  exact ⟨by exact_mod_cast hm, hmaps.symm⟩

theorem eval_oneHot {flags : List Combination} (hfew : (flags.length : Int) < Field.order)
    (hflags : ∀ flag ∈ flags, Binary (flag.under (.ofAssignment w)))
    (hsum : (flags.map (·.under (.ofAssignment w))).sum = 1) :
    (∀ flag ∈ flags, flag.eval w = 0 ∨ flag.eval w = 1) ∧ (flags.map (·.eval w)).count 1 = 1 := by
  constructor
  · intro flag hflag
    rw [eval_eq_zero_iff hw, eval_eq_one_iff hw]
    exact hflags flag hflag
  · rw [← count_one_of_sum (List.forall_mem_map.2 hflags) hsum (by rwa [List.length_map]),
      List.count, List.count, List.countP_map, List.countP_map]
    refine List.countP_congr fun flag _ => ?_
    simp [eval_eq_one_iff hw]

end

/-- Four gadgets pin their results, under every assignment that satisfies the constraints that they
have added. The flag of a zero test is one exactly if the element is zero; if it is not, the other
result is its inverse. A choice by a flag that is zero or one is what the flag says. Up to 63 digits
are the binary digits of the canonical number of an element, and it has no others. Of flags, fewer
than the field has elements, exactly one is set. -/
theorem results_pinned :
    (∀ x : Combination, x.Candid → Pins (isZero x) fun w test =>
      test.1.eval w = (if x.eval w = 0 then 1 else 0) ∧
      (x.eval w ≠ 0 → Field.reduce (x.eval w * test.2.eval w) = 1)) ∧
    (∀ flag x y : Combination, (x - y).Candid → Pins (select flag x y) fun w chosen =>
      (flag.eval w = 0 → chosen.eval w = y.eval w) ∧
      (flag.eval w = 1 → chosen.eval w = x.eval w)) ∧
    (∀ (x : Combination) (n : ℕ), n ≤ 63 → Pins (bits x n) fun w digits =>
      x.eval w < 2 ^ n ∧
      digits.map (·.eval w) = (List.range n).map fun i => x.eval w / 2 ^ i % 2) ∧
    (∀ (index : Int) (count : ℕ), (count : Int) < Field.order →
      Pins (oneHot index count) fun w flags => flags.length = count ∧
        (∀ flag ∈ flags, flag.eval w = 0 ∨ flag.eval w = 1) ∧
        (flags.map (·.eval w)).count 1 = 1) := by
  refine ⟨fun x hx => ?_, fun flag x y hxy => ?_, fun x n hn => ?_, fun index count hfew => ?_⟩
  · exact Forces.pins (grows_isZero x) fun w hw => (forces_isZero _ hx).mono
      fun test ⟨hzero, hinverse⟩ => eval_zero_test hw hzero hinverse
  · exact Forces.pins (grows_select flag x y) fun w hw => (forces_select _ flag hxy).mono
      fun chosen hchosen => eval_choice hw hchosen
  · exact Forces.pins (grows_bits x n) fun w hw => (forces_bits _ x n).mono
      fun digits ⟨hlength, hdigits, hweighted⟩ => eval_digits hw hn hlength hdigits hweighted
  · exact Forces.pins (grows_oneHot index count) fun w hw => (forces_oneHot _ index count).mono
      fun flags ⟨hlength, hflags, hsum⟩ => ⟨hlength, eval_oneHot hw (hlength ▸ hfew) hflags hsum⟩

/-- Five is not zero, is chosen over seven, and has the digits one, zero and one; and of three flags
one is set. -/
theorem results_pinned_five : ∃ (s t u v r : Circuit)
    (flag x y zero inverse chosen : Combination) (digits flags : List Combination),
    x.Candid ∧ (x - y).Candid ∧ 3 ≤ 63 ∧ ((3 : ℕ) : Int) < Field.order ∧
    isZero x s = .ok (zero, inverse) t ∧ select flag x y s = .ok chosen u ∧
    bits x 3 s = .ok digits v ∧ oneHot 1 3 s = .ok flags r ∧
    (∀ k ∈ since s t, holds t.assignment k = true) ∧
    (∀ k ∈ since s u, holds u.assignment k = true) ∧
    (∀ k ∈ since s v, holds v.assignment k = true) ∧
    (∀ k ∈ since s r, holds r.assignment k = true) ∧
    zero.eval t.assignment = 0 ∧ Field.reduce (5 * inverse.eval t.assignment) = 1 ∧
    chosen.eval u.assignment = 5 ∧ digits.map (·.eval v.assignment) = [1, 0, 1] ∧
    (flags.map (·.eval r.assignment)).count 1 = 1 := by
  let flag : Combination := .ofVariable 1 1
  let x : Combination := .ofVariable 2 5
  let y : Combination := .ofVariable 3 7
  obtain ⟨s, hlimit, hobtains⟩ : ∃ s, s.limit = none ∧
      Obtains none [.alloc 1, .alloc 5, .alloc 7] s [flag, x, y] := by
    have first : Obtains none [.alloc 1] _ [flag] :=
      .next .fresh (fun _ h => by cases h) trivial rfl
    have second : Obtains none [.alloc 1, .alloc 5] _ [flag, x] :=
      first.next (fun _ h => by cases h) trivial rfl
    exact ⟨_, rfl, second.next (fun _ h => by cases h) trivial rfl⟩
  -- Whichever gadget is used next, honestly, it satisfies what it adds.
  have next (operation : Operation) {results : List Combination} {t : Circuit}
      (hoperands : ∀ z, .combination z ∈ operation.operands → z ∈ [flag, x, y])
      (honest : operation.Honest) (hrun : operation.run s = .ok results t) :
      t.assignment.getD Combination.one 0 = 1 ∧
        (∀ k ∈ since s t, holds t.assignment k = true) ∧
        ∀ z ∈ [flag, x, y], z.eval t.assignment = z.value := by
    obtain ⟨hone, hstands, hholds⟩ := stands_of_obtains (hobtains.next hoperands honest hrun)
    exact ⟨hone, fun k hk => hholds k (List.mem_of_mem_drop hk),
      fun z hz => (hstands z (List.mem_append_left _ hz)).value_eq.symm⟩
  obtain ⟨hx, hxy⟩ := hobtains.candid (x := .combination x) (y := .combination y) (by simp)
  obtain ⟨hzeros, hchoices, hdigits, hflags⟩ := results_pinned
  obtain ⟨htotal, hpins⟩ := hzeros x hx s
  obtain ⟨⟨zero, inverse⟩, t, htest⟩ := htotal hlimit
  obtain ⟨hone, htest_holds, hvalues⟩ := next (.isZero (.combination x))
    (by simp [Operation.operands]) trivial (EStateM.bind_eq_ok.2 ⟨_, t, htest, rfl⟩)
  obtain ⟨hzero, hinverse⟩ := (hpins _ t htest).2 t.assignment hone htest_holds
  rw [hvalues x (by simp)] at hzero hinverse
  obtain ⟨htotal, hpins⟩ := hchoices flag x y hxy s
  obtain ⟨chosen, u, hchoice⟩ := htotal hlimit
  obtain ⟨hone, hchoice_holds, hvalues⟩ := next
    (.select (.combination flag) (.combination x) (.combination y))
    (by simp [Operation.operands]) (.inr rfl) (EStateM.bind_eq_ok.2 ⟨_, u, hchoice, rfl⟩)
  have hchosen := ((hpins _ u hchoice).2 u.assignment hone hchoice_holds).2 (hvalues flag (by simp))
  rw [hvalues x (by simp)] at hchosen
  obtain ⟨htotal, hpins⟩ := hdigits x 3 (by decide) s
  obtain ⟨digits, v, hbits⟩ := htotal hlimit
  obtain ⟨hone, hbits_holds, hvalues⟩ := next (.bits (.combination x) 3)
    (by simp [Operation.operands]) (show x.value < 2 ^ 3 by decide) hbits
  obtain ⟨-, hworth⟩ := (hpins _ v hbits).2 v.assignment hone hbits_holds
  rw [hvalues x (by simp)] at hworth
  obtain ⟨htotal, hpins⟩ := hflags 1 3 (by decide) s
  obtain ⟨flags, r, hflags⟩ := htotal hlimit
  obtain ⟨hone, hflags_hold, -⟩ := next (.oneHot 1 3)
    (by simp [Operation.operands]) ⟨by decide, by decide⟩ hflags
  obtain ⟨-, -, hcount⟩ := (hpins _ r hflags).2 r.assignment hone hflags_hold
  exact ⟨s, t, u, v, r, flag, x, y, zero, inverse, chosen, digits, flags, hx, hxy, by decide,
    by decide, htest, hchoice, hbits, hflags, htest_holds, hchoice_holds, hbits_holds, hflags_hold,
    hzero, hinverse (by decide), hchosen, hworth, hcount⟩

end Gadget

end FieldLisp
