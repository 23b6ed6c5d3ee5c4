import FieldLisp.Digest
import FieldLisp.Fault
import FieldLisp.Permutation.Constants
import FieldLisp.Position

/-! # The permutation of sixteen lanes

Full rounds put every lane through the S-box, partial rounds only the first; after each round a
linear layer mixes the lanes. The linear layers are stated for anything that can be added and
multiplied by an integer, because a circuit runs the very same layers over linear combinations of
its variables. They leave their results unreduced; the permutation reduces after each of them. -/

namespace FieldLisp.Permutation

/-- One value for each lane of the state. -/
abbrev Lanes (α : Type) := Vector α 16

/-- Full rounds before the partial rounds, and again after them. -/
def halfFullRounds : Nat := 4

def partialRounds : Nat := 22

/-- Constant of a lane in a full round; the rounds of both halves are numbered through. -/
def fullConstant (round : Nat) (lane : Fin 16) : Int :=
  let start := if round < halfFullRounds then 16 * round else 16 * round + partialRounds
  roundTable.toArray.getD (start + lane) 0

/-- Constant of the first lane in a partial round. -/
def partialConstant (round : Nat) : Int :=
  roundTable.toArray.getD (16 * halfFullRounds + round) 0

/-- Lanes filled from the front of a list, if it is long enough. -/
def lanesOf? (n : Nat) (xs : List α) : Option (Vector α n) :=
  if h : (xs.take n).toArray.size = n then some ⟨(xs.take n).toArray, h⟩ else none

def first (state : Lanes α) : α := state.get 0

/-- The first four lanes. -/
def front (state : Lanes α) : Digest α :=
  ⟨state.get 0, state.get 1, state.get 2, state.get 3⟩

/-- The state with another first lane. -/
def setFirst (state : Lanes α) (first : α) : Lanes α :=
  Vector.ofFn fun lane : Fin 16 => if lane = 0 then first else state.get lane

section Layers
variable {α : Type} [Add α] [OfNat α 0] [HMul α Int α]

/-- Mixes four lanes by a small fixed matrix, with additions only. -/
def mixBlock (x : Vector α 4) : Vector α 4 :=
  let t0 := x.get 0 + x.get 1
  let t1 := x.get 2 + x.get 3
  let t2 := x.get 1 + x.get 1 + t1
  let t3 := x.get 3 + x.get 3 + t0
  let t1Twice := t1 + t1
  let t0Twice := t0 + t0
  let t4 := t1Twice + t1Twice + t3
  let t5 := t0Twice + t0Twice + t2
  let t6 := t3 + t5
  let t7 := t2 + t4
  #v[t6, t5, t7, t4]

/-- The layer of the full rounds: every block of four lanes is mixed, then each lane gains the sum
of the lanes at its place in the four blocks. -/
def mixExternal (state : Lanes α) : Lanes α :=
  let mixed : Vector (Vector α 4) 4 := #v[
    mixBlock #v[state.get 0, state.get 1, state.get 2, state.get 3],
    mixBlock #v[state.get 4, state.get 5, state.get 6, state.get 7],
    mixBlock #v[state.get 8, state.get 9, state.get 10, state.get 11],
    mixBlock #v[state.get 12, state.get 13, state.get 14, state.get 15]]
  let sums : Vector α 4 := Vector.ofFn fun place : Fin 4 =>
    mixed.foldl (fun total block => total + block.get place) 0
  Vector.ofFn fun lane : Fin 16 =>
    (mixed.get ⟨lane.val / 4, by omega⟩)[lane.val % 4] + sums[lane.val % 4]

/-- Each lane is scaled by its diagonal entry and gains a total. -/
def scaleLanes (state : Lanes α) (total : α) : Lanes α :=
  Vector.ofFn fun lane : Fin 16 => state.get lane * diagonal.get lane + total

/-- The layer of the partial rounds: each lane is scaled and gains the sum of all lanes. -/
def mixInternal (state : Lanes α) : Lanes α := scaleLanes state (state.foldl (· + ·) 0)

/-- The layer of the partial rounds on the lanes at the front of a list; the sum takes in the whole
list. -/
def mixInternalFront? (xs : List α) : Option (Lanes α) :=
  (lanesOf? 16 xs).map fun lanes => scaleLanes lanes (xs.foldl (· + ·) 0)

end Layers

/-- The seventh power, as the product of the third and the fourth. -/
def sbox (x : Int) : Int :=
  let x2 := Field.reduce (x * x)
  let x3 := Field.reduce (x * x2)
  let x4 := Field.reduce (x2 * x2)
  Field.reduce (x3 * x4)

def fullRound (state : Lanes Int) (round : Nat) : Lanes Int :=
  (mixExternal (Vector.ofFn fun lane : Fin 16 =>
    sbox (Field.reduce (state.get lane + fullConstant round lane)))).map Field.reduce

def partialRound (state : Lanes Int) (round : Nat) : Lanes Int :=
  (mixInternal (setFirst state (sbox (Field.reduce (first state + partialConstant round))))).map
    Field.reduce

/-- All rounds, after a first external layer. -/
def permute (input : Lanes Int) : Lanes Int :=
  let start := (mixExternal (input.map Field.reduce)).map Field.reduce
  let opening := (List.range halfFullRounds).foldl fullRound start
  let middle := (List.range partialRounds).foldl partialRound opening
  (List.range' halfFullRounds halfFullRounds).foldl fullRound middle

/-- The permutation of a list, which must have one entry for each lane. -/
def permuteList (input : List Int) : Except Fault (List Int) :=
  if h : input.toArray.size = 16 then .ok (permute ⟨input.toArray, h⟩).toList
  else .error (.permutationWidth input.length)

/-- Entries from `start` up to `stop`, where negative positions count from the end; what lies
outside the table is left out. -/
def stretch (start stop : Int) : List Int :=
  let first := (position 150 start).toNat
  (roundTable.toList.drop first).take ((position 150 stop).toNat - first)

/-- The sixteen constants of a full round. -/
def roundConstants (round : Int) : List Int :=
  let start := if round < halfFullRounds then 16 * round else 16 * round + partialRounds
  stretch start (start + 16)

/-- The constant of a partial round, counted from the first of them. -/
def partialRoundConstant (round : Int) : Except Fault Int :=
  match entryAt? roundTable.toList (16 * halfFullRounds + round) with
  | some constant => .ok constant
  | none => .error .noSuchEntry

end FieldLisp.Permutation
