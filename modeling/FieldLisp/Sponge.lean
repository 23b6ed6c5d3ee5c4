import FieldLisp.Digest
import FieldLisp.Permutation

/-! # The sponge

A list of field elements of any length is absorbed twelve at a time. Each block replaces the twelve
rate lanes, the last one filled up with zeros, while the four capacity lanes carry what the previous
permutation left in the first four lanes. The first capacity holds the length of the list, so lists
that differ only by zeros at the end start apart. The digest is what the next capacity would be. -/

namespace FieldLisp.Sponge
open Permutation (Lanes)

/-- Lanes that take input in each block. -/
def rate : Nat := 12

/-- Permutations run for an input of this length; the empty input still takes one. -/
def blockCount (length : Nat) : Nat := max 1 ((length + rate - 1) / rate)

/-- Capacity before the first block. -/
def initialCapacity (length : Int) : Digest Int := .carrying (Field.reduce length)

/-- The state that a block and a capacity fill. -/
def lanes [OfNat α 0] (block : List α) (capacity : Digest α) : Lanes α :=
  Vector.ofFn fun lane : Fin 16 =>
    if lane.val < rate then block.getD lane.val 0 else capacity.toList.getD (lane.val - rate) 0

/-- One block after another. -/
def absorb (capacity : Digest Int) (block : List Int) : Digest Int :=
  Permutation.front (Permutation.permute (lanes (block.map Field.reduce) capacity))

/-- Digest of a list of elements. -/
def hash (elements : List Int) : Digest Int :=
  (blocks rate (blockCount elements.length) elements).foldl absorb
    (initialCapacity elements.length)

end FieldLisp.Sponge
