import FieldLisp.Circuit
import FieldLisp.Sponge

/-! # The sponge as a circuit

Layer for layer the permutation of numbers; only the S-box needs constraints. The input of an S-box
is first pinned to one variable. -/

namespace FieldLisp.Gadget
open Circuit
open Permutation (Lanes)

/-- The seventh power, in five constraints. -/
def sbox (x : Combination) : CircuitM Combination := do
  let x1 ← alloc x.value
  enforce x 1 x1
  let x2 ← mul x1 x1
  let x3 ← mul x2 x1
  let x4 ← mul x2 x2
  mul x3 x4

def fullRound (state : Lanes Combination) (round : Nat) : CircuitM (Lanes Combination) := do
  let inputs : Lanes Combination := Vector.ofFn fun lane : Fin 16 =>
    state.get lane + .constant (Permutation.fullConstant round lane)
  let outputs ← inputs.mapM sbox
  pure (Permutation.mixExternal outputs)

def partialRound (state : Lanes Combination) (round : Nat) : CircuitM (Lanes Combination) := do
  let first ← sbox (Permutation.first state + .constant (Permutation.partialConstant round))
  pure (Permutation.mixInternal (Permutation.setFirst state first))

def permute (input : Lanes Combination) : CircuitM (Lanes Combination) := do
  let rounds := Permutation.halfFullRounds
  let first ← (List.range rounds).foldlM fullRound (Permutation.mixExternal input)
  let middle ← (List.range Permutation.partialRounds).foldlM partialRound first
  (List.range' rounds rounds).foldlM fullRound middle

/-- The permutation of a list, which must have one entry for each lane. -/
def permuteList (input : List Combination) : CircuitM (List Combination) :=
  if h : input.toArray.size = 16 then do
    let output ← permute ⟨input.toArray, h⟩
    pure output.toList
  else throw (.circuitWidth input.length)

def absorb (capacity : Digest Combination) (block : List Combination) :
    CircuitM (Digest Combination) := do
  let output ← permute (Sponge.lanes block capacity)
  pure (Permutation.front output)

/-- Digest of a list of combinations. -/
def sponge (elements : List Combination) : CircuitM (Digest Combination) :=
  (blocks Sponge.rate (Sponge.blockCount elements.length) elements).foldlM absorb
    ((Sponge.initialCapacity elements.length).map .constant)

end FieldLisp.Gadget
