/-! # Cutting a list into blocks

A list is absorbed, or packed, a fixed number of entries at a time. The caller says how many blocks
there are, so the cut is a plain recursion on that count: past the end of the list it goes on with
empty blocks. -/

namespace FieldLisp

/-- The first `count` consecutive blocks of `size` entries; the last may be shorter. -/
def blocks (size : Nat) : Nat → List α → List (List α)
  | 0, _ => []
  | count + 1, xs => xs.take size :: blocks size count (xs.drop size)

@[simp] theorem length_blocks (size count : Nat) (xs : List α) :
    (blocks size count xs).length = count := by
  induction count generalizing xs with
  | zero => rfl
  | succ n ih => simp [blocks, ih]

/-- Enough blocks hold the whole list and nothing else. -/
theorem flatten_blocks {size count : Nat} {xs : List α} (h : xs.length ≤ size * count) :
    (blocks size count xs).flatten = xs := by
  induction count generalizing xs with
  | zero => simpa [blocks] using h
  | succ n ih =>
    rw [blocks, List.flatten_cons, ih, List.take_append_drop]
    simp only [List.length_drop]
    rw [Nat.mul_succ] at h
    omega

end FieldLisp
