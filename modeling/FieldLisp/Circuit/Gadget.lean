import FieldLisp.Circuit

/-! # Gadgets

Small circuits for flags, zero tests, selection, ranges and signed order. Each takes its witness
from the values that its inputs carry. Where a gadget takes a condition, its constraints bind only
if the condition is one. -/

namespace FieldLisp.Gadget
open Circuit

/-- Demands that `b` is zero or one. -/
def boolean (b : Combination) : CircuitM Unit := enforce b (1 - b) 0

/-- A new flag. -/
def allocBit (value : Bool) : CircuitM Combination := do
  let bit ← alloc (if value then 1 else 0)
  boolean bit
  pure bit

/-- Whether `x` is zero, and its inverse if it is not: the constraints are `x * inverse = 1 - zero`
and `x * zero = 0`. A constant needs none. -/
def isZero (x : Combination) : CircuitM (Combination × Combination) := do
  let zero : Int := if x.value = 0 then 1 else 0
  let inverse : Int := if x.value = 0 then 0 else Field.invert x.value
  if x.isConstant then pure (.constant zero, .constant inverse)
  else
    let inverse ← alloc inverse
    let zero ← alloc zero
    enforce x inverse (1 - zero)
    enforce x zero 0
    pure (zero, inverse)

/-- Demands that `x` is `y` if the condition is one. -/
def impliesEqual (condition x y : Combination) : CircuitM Unit := enforce condition (x - y) 0

/-- Binds entries pairwise, as far as both lists go. -/
def bindAll (condition : Combination) (xs ys : List Combination) : CircuitM Unit :=
  (xs.zip ys).forM fun (x, y) => impliesEqual condition x y

/-- `x` if the flag is one, `y` if it is zero. Nothing is added if they differ by a constant. -/
def select (flag x y : Combination) : CircuitM Combination := do
  let difference := x - y
  if difference.isConstant then pure (y + flag * difference.value)
  else
    let chosen ← alloc (if flag.value = 0 then y.value else x.value)
    enforce flag difference (chosen - y)
    pure chosen

/-- The sum of bits times powers of two, least significant first. -/
def weighted (bits : List Combination) : Combination :=
  (bits.zipIdx.map fun (bit, i) => bit * Int.ofNat (1 <<< i)).foldl (· + ·) 0

/-- The `n` lowest binary digits of `x`, least significant first; `x` must have no others. -/
def bits (x : Combination) (n : Nat) : CircuitM (List Combination) := do
  let digits ← (List.range n).mapM fun i => allocBit (x.value.toNat.testBit i)
  enforce (weighted digits) 1 x
  pure digits

/-- Whether `x` lies in the upper half of the field. With the flag `n`, the value
`(1 - n) * (half - x) + n * (x - half - 1)` and its difference from `half` must both have
`signedBits` digits: that puts it between zero and `half`, which fixes the flag. -/
def isNegative (x : Combination) : CircuitM Combination := do
  let n ← allocBit (Field.isNegative x.value)
  let nx ← mul n x
  let half : Combination := .constant Field.half
  let r := half - x + nx * (2 : Int) - n * (2 * Field.half + 1)
  let _ ← bits r Field.signedBits
  let _ ← bits (half - r) Field.signedBits
  pure n

/-- Integer quotient and remainder, if the condition is one; both are zero if it is zero. Quotient,
remainder and what the remainder is short of the divisor must have `n` digits. For operands of `n`
digits, and at most 32, the sum of products stays below the field order. -/
def divRem (condition a b : Combination) (n : Nat) : CircuitM (Combination × Combination) := do
  let divides := condition.value != 0 && b.value != 0
  let q ← alloc (if divides then a.value.fdiv b.value else 0)
  let r ← alloc (if divides then a.value.fmod b.value else 0)
  let _ ← bits q n
  let _ ← bits r n
  let _ ← bits (← mul condition (b - r - 1)) n
  impliesEqual condition ((← mul b q) + r) a
  pure (q, r)

/-- Signed order: by sign if the signs differ, by the sign of the difference if not. -/
def less (a b : Combination) : CircuitM Combination := do
  let aNegative ← isNegative a
  let bNegative ← isNegative b
  let difference ← isNegative (a - b)
  let bothNegative ← mul aNegative bNegative
  let sameSign := 1 - aNegative - bNegative + bothNegative * (2 : Int)
  select sameSign difference aNegative

/-- New flags of which exactly one is set: the one at `index`. -/
def oneHot (index : Int) (count : Nat) : CircuitM (List Combination) := do
  let flags ← (List.range count).mapM fun i => allocBit (Int.ofNat i == index)
  enforce (flags.foldl (· + ·) 0) 1 1
  pure flags

end FieldLisp.Gadget
