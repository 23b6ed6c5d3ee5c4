import FieldLisp.Fault

/-! # Field operations that refuse some elements -/

namespace FieldLisp.Field

/-- The inverse of an element that is not zero. -/
def inverse (x : Int) : Except Fault Int :=
  if reduce x = 0 then .error .zeroInverse else .ok (invert x)

/-- Numbers below this one fit into words of 64 bits. -/
def wordBound : Int := 18446744073709551616

/-- An array of field elements. All of them must fit into words, and then be canonical. -/
def array (xs : List Int) : Except Fault (List Int) :=
  if xs.any (fun x => x < 0 || wordBound ≤ x) then .error .notAWord
  else if xs.all (fun x => decide (Canonical x)) then .ok xs
  else .error .notCanonical

/-- An operation on two arrays, entry by entry. -/
def zipReduced (operation : Int → Int → Int) (xs ys : List Int) : List Int :=
  List.zipWith (fun x y => reduce (operation x y)) xs ys

end FieldLisp.Field
