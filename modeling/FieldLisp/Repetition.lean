import FieldLisp.Fault

/-! # Repetition

A list some number of times over. The number must fit into a word, and the result must not be longer
than lists get; less than once is not at all. -/

namespace FieldLisp

/-- Lists that are built from a number stay shorter than this. -/
def listBound : Int := 4294967296

/-- Whether a list of so many entries can be repeated. -/
def checkRepetition (times : Int) (size : Nat) : Except Fault Unit :=
  if times < -9223372036854775808 ∨ 9223372036854775807 < times then .error .notAWord
  else if listBound ≤ times * size then .error .listTooLong
  else .ok ()

/-- The list so many times over. -/
def repetition (times : Int) (xs : List α) : Except Fault (List α) :=
  match checkRepetition times xs.length with
  | .error fault => .error fault
  | .ok () => .ok (if xs.isEmpty then [] else (List.replicate times.toNat xs).flatten)

end FieldLisp
