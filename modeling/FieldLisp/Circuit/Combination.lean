import FieldLisp.Field

/-! # Linear combinations

A circuit computes with sums of coefficient times variable, held by ascending variable with no zero
coefficient, so that equal combinations have equal terms. Variable zero stands for one. A
combination also carries its value under the assignment that is being built. -/

namespace FieldLisp

/-- A variable and its coefficient. -/
abbrev Term := Nat × Int

structure Combination where
  terms : List Term
  value : Int
  deriving DecidableEq, Repr, Inhabited

namespace Combination

/-- The variable that stands for one. -/
def one : Nat := 0

def constant (value : Int) : Combination :=
  let value := Field.reduce value
  ⟨if value = 0 then [] else [(one, value)], value⟩

/-- The variable itself. -/
def ofVariable (index : Nat) (value : Int) : Combination := ⟨[(index, 1)], value⟩

/-- No variable but the constant one occurs. -/
def isConstant (x : Combination) : Bool := x.terms.all (·.1 == one)

/-- Puts a term in front of terms of higher variables; a zero coefficient is left out. -/
def put (index : Nat) (coefficient : Int) (rest : List Term) : List Term :=
  if coefficient = 0 then rest else (index, coefficient) :: rest

/-- Merges one term and what follows it into other terms; `rest` merges what follows alone. -/
def mergeTerm (index : Nat) (coefficient : Int) (rest : List Term → List Term) :
    List Term → List Term
  | [] => (index, coefficient) :: rest []
  | (j, c) :: ys =>
    if j < index then (j, c) :: mergeTerm index coefficient rest ys
    else if index < j then (index, coefficient) :: rest ((j, c) :: ys)
    else put index (Field.reduce (coefficient + c)) (rest ys)

/-- The terms of a sum. -/
def mergeTerms : List Term → List Term → List Term
  | [], ys => ys
  | (i, a) :: xs, ys => mergeTerm i a (mergeTerms xs) ys

def add (x y : Combination) : Combination :=
  ⟨mergeTerms x.terms y.terms, Field.reduce (x.value + y.value)⟩

def scale (x : Combination) (scalar : Int) : Combination :=
  let scalar := Field.reduce scalar
  if scalar = 0 then ⟨[], 0⟩
  else ⟨x.terms.map fun (i, c) => (i, Field.reduce (c * scalar)), Field.reduce (x.value * scalar)⟩

instance : Add Combination := ⟨add⟩
instance : Neg Combination := ⟨fun x => x.scale (-1)⟩
instance : Sub Combination := ⟨fun x y => x + -y⟩
instance : HMul Combination Int Combination := ⟨scale⟩
instance : OfNat Combination 0 := ⟨⟨[], 0⟩⟩
instance : OfNat Combination 1 := ⟨constant 1⟩

/-- Written form, for diagnosis. -/
def describe (x : Combination) : String := s!"LC({x.value}, {x.terms.length} terms)"

/-- Value of terms under an assignment; a variable outside it counts as zero. -/
def evalTerms (assignment : Array Int) (terms : List Term) : Int :=
  Field.reduce (terms.foldl (fun sum (i, c) => sum + c * assignment.getD i 0) 0)

end Combination

end FieldLisp
