import FieldLisp.Blocks

/-! # The prime field of order 2^64 - 2^32 + 1

Elements are integers. Most functions here give the canonical one of a class, from zero up to the
order; none asks for it, so a value read from outside may stand in any representation. The upper
half of the field reads as the negative numbers. -/

namespace FieldLisp.Field

/-- Number of elements. -/
def order : Int := 18446744069414584321

/-- The largest element that reads as a number from zero up. -/
def half : Int := 9223372034707292160

/-- Bits that hold every value from zero to `half`. -/
def signedBits : Nat := 63

/-- Whole bytes that surely fit below the order. -/
def bytesPerElement : Nat := 7

/-- Canonical representative of an integer. -/
def reduce (n : Int) : Int := n % order

/-- Whether an element lies in the upper half. -/
def isNegative (x : Int) : Bool := half < x

/-- The signed integer that a canonical element stands for. -/
def toSigned (x : Int) : Int := if isNegative x then x - order else x

/-- An element is canonical when it is its own representative. -/
def Canonical (x : Int) : Prop := 0 ≤ x ∧ x < order

instance (x : Int) : Decidable (Canonical x) := by unfold Canonical; infer_instance

theorem reduce_canonical (n : Int) : Canonical (reduce n) :=
  ⟨Int.emod_nonneg _ (by decide), Int.emod_lt_of_pos _ (by decide)⟩

theorem reduce_eq_self {x : Int} (h : Canonical x) : reduce x = x :=
  Int.emod_eq_of_lt h.1 h.2

/-- Power by repeated squaring. -/
def power (x : Int) (n : Nat) : Int :=
  if _h : n = 0 then 1
  else
    let root := power x (n / 2)
    let square := root * root % order
    if n % 2 = 0 then square else square * x % order
termination_by n
decreasing_by omega

/-- The inverse of an element that is not zero, by Fermat's little theorem; zero gives zero. -/
def invert (x : Int) : Int := power (reduce x) 18446744069414584319

/-- Value of a byte string, least significant byte first. -/
def littleEndian (bytes : List UInt8) : Int :=
  bytes.foldr (fun byte value => (byte.toNat : Int) + 256 * value) 0

/-- A byte string as field elements, seven bytes to each. Every block stays below 2^56, so nothing
is lost once the length is known. -/
def packBytes (bytes : List UInt8) : List Int :=
  (blocks bytesPerElement ((bytes.length + bytesPerElement - 1) / bytesPerElement) bytes).map
    littleEndian

end FieldLisp.Field
