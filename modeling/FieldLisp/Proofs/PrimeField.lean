import FieldLisp.Field
import Mathlib

/-!
# The field behind the integers

Integers stand for elements of a prime field:

* `order_prime`: the order is prime, so the integers modulo it are a field;
* `cast_inj`: canonical integers stand for different elements;
* `cast_invert`: the inverse by Fermat's little theorem is the inverse.
-/

namespace FieldLisp.Field

/-- The field that integers stand for. -/
abbrev Element := ZMod 18446744069414584321

/-- The order is prime: seven generates the units. -/
theorem order_prime : Nat.Prime 18446744069414584321 := by
  refine lucas_primality _ 7 (by reduce_mod_char) fun q hq hd => ?_
  have factors : 18446744069414584321 - 1 = 2 ^ 32 * 3 * 5 * 17 * 257 * 65537 := by norm_num
  have same {r : ℕ} (hr : r.Prime) (h : q ∣ r) : q = r := (Nat.prime_dvd_prime_iff_eq hq hr).1 h
  rw [factors] at hd
  simp only [hq.dvd_mul] at hd
  rcases hd with ((((h | h) | h) | h) | h) | h
  · obtain rfl := same Nat.prime_two (hq.dvd_of_dvd_pow h)
    norm_num only
    reduce_mod_char
    decide
  all_goals
    obtain rfl := same (by norm_num) h
    norm_num only
    reduce_mod_char
    decide

instance fact_order_prime : Fact (Nat.Prime 18446744069414584321) := ⟨order_prime⟩

/-! ## Integers as elements -/

theorem cast_eq_iff {x y : Int} : (x : Element) = y ↔ reduce x = reduce y := by
  rw [ZMod.intCast_eq_intCast_iff]
  rfl

@[simp] theorem reduce_reduce (x : Int) : reduce (reduce x) = reduce x :=
  reduce_eq_self (reduce_canonical x)

@[simp] theorem cast_reduce (x : Int) : ((reduce x : Int) : Element) = x := by
  rw [cast_eq_iff, reduce_reduce]

/-- Canonical integers stand for different elements. -/
theorem cast_inj {x y : Int} (hx : Canonical x) (hy : Canonical y) :
    (x : Element) = y ↔ x = y := by
  rw [cast_eq_iff, reduce_eq_self hx, reduce_eq_self hy]

theorem cast_eq_zero {x : Int} (hx : Canonical x) : (x : Element) = 0 ↔ x = 0 := by
  rw [← cast_inj hx (by decide : Canonical 0), Int.cast_zero]

theorem reduce_eq_of_cast {x y : Int} (hy : Canonical y) (h : (x : Element) = y) :
    reduce x = y := by
  rw [cast_eq_iff.1 h, reduce_eq_self hy]

@[simp] theorem reduce_zero : reduce 0 = 0 := rfl

@[simp] theorem reduce_one : reduce 1 = 1 := rfl

theorem canonical_zero : Canonical 0 := by decide

theorem canonical_one : Canonical 1 := by decide

theorem isNegative_iff {x : Int} : isNegative x = true ↔ 9223372034707292160 < x :=
  decide_eq_true_iff

/-- The canonical integer that stands for an element. -/
def representative (x : Element) : Int := x.val

theorem representative_canonical (x : Element) : Canonical (representative x) := by
  refine ⟨Int.natCast_nonneg _, ?_⟩
  have := ZMod.val_lt x
  simp only [representative, order]
  omega

@[simp] theorem cast_representative (x : Element) : ((representative x : Int) : Element) = x := by
  simp [representative]

theorem representative_cast (x : Int) : representative (x : Element) = reduce x := by
  have h : ((representative (x : Element) : Int) : Element) = (x : Element) :=
    cast_representative _
  rw [← reduce_eq_self (representative_canonical (x : Element)), ← cast_eq_iff, h]

/-! ## Powers and inverses -/

theorem cast_power (x : Int) (n : ℕ) : ((power x n : Int) : Element) = (x : Element) ^ n := by
  have cast_mod (a : Int) : ((a % order : Int) : Element) = a := cast_reduce a
  induction n using Nat.strong_induction_on with
  | _ n ih =>
    rw [power]
    split
    · rename_i hn
      simp [hn]
    · rename_i hn
      have half := ih (n / 2) (by omega)
      have double : (x : Element) ^ n = (x : Element) ^ (n / 2) * (x : Element) ^ (n / 2) *
          (x : Element) ^ (n % 2) := by
        rw [← pow_add, ← pow_add]
        congr 1
        omega
      rw [double]
      split
      · rename_i heven
        rw [cast_mod, Int.cast_mul, half, heven, pow_zero, mul_one]
      · rename_i hodd
        have : n % 2 = 1 := by omega
        rw [cast_mod, Int.cast_mul, cast_mod, Int.cast_mul, half, this, pow_one]

theorem cast_invert (x : Int) : ((invert x : Int) : Element) = (x : Element)⁻¹ := by
  rw [invert, cast_power, cast_reduce]
  rcases eq_or_ne (x : Element) 0 with h | h
  · rw [h, inv_zero, zero_pow (by norm_num)]
  · refine eq_inv_of_mul_eq_one_left ?_
    rw [← pow_succ]
    exact ZMod.pow_card_sub_one_eq_one h

end FieldLisp.Field
