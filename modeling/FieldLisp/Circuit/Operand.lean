import FieldLisp.Circuit.Combination
import FieldLisp.Fault

/-! # Operands

Arithmetic on circuit values takes numbers beside linear combinations. Numbers stay whole integers
among themselves, and enter the field only where they meet a combination. The product of two
combinations is no combination: it takes a constraint. -/

namespace FieldLisp

inductive Operand where
  | number (value : Int)
  | combination (x : Combination)
  deriving DecidableEq, Repr, Inhabited

namespace Operand

/-- A number stands for the constant that it is congruent to. -/
def toCombination : Operand → Combination
  | number n => .constant n
  | combination x => x

def add : Operand → Operand → Operand
  | number m, number n => number (m + n)
  | x, y => combination (x.toCombination + y.toCombination)

def sub : Operand → Operand → Operand
  | number m, number n => number (m - n)
  | x, y => combination (x.toCombination - y.toCombination)

def neg : Operand → Operand
  | number n => number (-n)
  | combination x => combination (-x)

/-- The product, of which one factor at least must be a number. -/
def mul : Operand → Operand → Except Fault Operand
  | number m, number n => .ok (number (m * n))
  | number n, combination x | combination x, number n => .ok (combination (x * n))
  | combination _, combination _ => .error .combinationProduct

/-- Written form, for diagnosis. -/
def describe : Operand → String
  | number n => toString n
  | combination x => x.describe

end Operand

end FieldLisp
