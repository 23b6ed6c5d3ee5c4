/-! # Positions in a list

A position counts from zero at the front; a negative one counts from the end, where minus one is the
last entry. -/

namespace FieldLisp

/-- A position counted from the front. It stays negative if it lies before the front. -/
def position (size : Nat) (index : Int) : Int := if index < 0 then index + size else index

/-- The entry at a position, if the position lies in the list. -/
def entryAt? (xs : List α) (index : Int) : Option α :=
  let index := position xs.length index
  if index < 0 then none else xs[index.toNat]?

/-- The list with another entry at a position, if the position lies in the list. -/
def setAt? (xs : List α) (index : Int) (entry : α) : Option (List α) :=
  let index := position xs.length index
  if 0 ≤ index ∧ index < xs.length then some (xs.set index.toNat entry) else none

@[simp] theorem position_natCast (size n : Nat) : position size n = n := by
  simp [position, Int.not_lt.mpr (Int.natCast_nonneg n)]

@[simp] theorem entryAt?_natCast (xs : List α) (n : Nat) : entryAt? xs n = xs[n]? := by
  simp [entryAt?, Int.not_lt.mpr (Int.natCast_nonneg n)]

end FieldLisp
