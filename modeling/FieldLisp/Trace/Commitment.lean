import FieldLisp.Machine.State

/-! # Commitments

Hashes that stand for whole states and for the links of a receipt chain. Each kind starts with a
number of its own, none of which is the number of a tag. -/

namespace FieldLisp

abbrev Commitment := Digest Int

namespace Commitment

/-- First element of what is hashed for a state. -/
def stateDomain : Int := 0x60

/-- First element of what is hashed for the start of a receipt chain. -/
def initDomain : Int := 0x61

/-- First element of what is hashed for a link of a receipt chain. -/
def stepDomain : Int := 0x62

/-- Commitment to a state that is given by its elements, of which there must be fifteen. -/
def ofElements (elements : List Int) : Except Fault Commitment :=
  if elements.length = stateSize then .ok (Sponge.hash (stateDomain :: elements))
  else .error (.stateSize elements.length)

/-- Commitment to a state. -/
def ofState (s : State) : Except Fault Commitment := ofElements s.elements

theorem ofState_of_canonical {s : State} (h : s.Canonical) :
    ofState s = .ok (Sponge.hash (stateDomain :: s.elements)) :=
  if_pos (State.length_elements h)

end Commitment

end FieldLisp
