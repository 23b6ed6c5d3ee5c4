import FieldLisp.Circuit.Operand
import FieldLisp.Circuit.Sponge
import FieldLisp.Circuit.Gadget
import FieldLisp.Repetition

/-! # Entries

Circuits can be built by one operation after another, each on what earlier ones left: nothing, an
operand, a list of operands, or a group of them, such as quotient and remainder, that one operation
gives together. Sums join lists with lists and groups with groups, and products repeat them. Gadgets
take operands only, and fail where they first look at anything else. -/

namespace FieldLisp

inductive Entry where
  | none
  | one (x : Operand)
  | list (xs : List Operand)
  | group (xs : List Operand)
  deriving DecidableEq, Repr, Inhabited

namespace Entry

/-! ## What an entry is -/

def toOperand : Entry → Except Fault Operand
  | one x => .ok x
  | _ => .error .unfitOperand

def toCombination (e : Entry) : Except Fault Combination := e.toOperand.map Operand.toCombination

/-- A combination to be subtracted, whose terms are looked at. -/
def subtrahend : Entry → Except Fault Combination
  | one x => .ok x.toCombination
  | _ => .error .absentPart

/-- The operands of a list or a group, each by itself. -/
def entries : Entry → Except Fault (List Entry)
  | list xs | group xs => .ok (xs.map one)
  | _ => .error .unfitOperand

/-- A number, unlike a combination, is not asked whether it is constant. -/
def isConstant : Entry → Except Fault Bool
  | one (.combination x) => .ok x.isConstant
  | _ => .error .absentPart

/-- Written form, for diagnosis. A group of one has a comma. -/
def describe : Entry → String
  | none => "None"
  | one x => x.describe
  | list xs => "[" ++ ", ".intercalate (xs.map Operand.describe) ++ "]"
  | group [x] => "(" ++ x.describe ++ ",)"
  | group xs => "(" ++ ", ".intercalate (xs.map Operand.describe) ++ ")"

/-! ## Arithmetic -/

def add : Entry → Entry → Except Fault Entry
  | one x, one y => .ok (one (x.add y))
  | list xs, list ys => .ok (list (xs ++ ys))
  | group xs, group ys => .ok (group (xs ++ ys))
  | one (.combination _), _ | _, one (.combination _) => .error .absentPart
  | _, _ => .error .unfitOperand

def sub : Entry → Entry → Except Fault Entry
  | one x, one y => .ok (one (x.sub y))
  | one (.combination _), _ => .error .absentPart
  | _, _ => .error .unfitOperand

def neg (e : Entry) : Except Fault Entry := e.toOperand.map fun x => one x.neg

def mul : Entry → Entry → Except Fault Entry
  | one x, one y => (x.mul y).map one
  | one (.number n), list xs | list xs, one (.number n) => (repetition n xs).map list
  | one (.number n), group xs | group xs, one (.number n) => (repetition n xs).map group
  | _, _ => .error .unfitOperand

/-! ## Building -/

/-- A circuit that is full takes no constraint, whatever it is about. -/
def enforce (a b c : Entry) : CircuitM Unit := do
  Circuit.checkRoom
  let a ← ofExcept a.toCombination
  let b ← ofExcept b.toCombination
  let c ← ofExcept c.toCombination
  Circuit.enforce a b c

/-- The difference is formed before the constraint is. -/
def impliesEqual (condition x y : Entry) : CircuitM Unit := do
  let x ← ofExcept x.toCombination
  let y ← ofExcept y.subtrahend
  Circuit.checkRoom
  let condition ← ofExcept condition.toCombination
  Gadget.impliesEqual condition x y

/-- Binds entries pairwise, as far as both lists go. -/
def bindAll (condition : Entry) (xs ys : List Entry) : CircuitM Unit :=
  (xs.zip ys).forM fun (x, y) => impliesEqual condition x y

/-- The permutation of entries, which are counted first. -/
def permute (xs : List Entry) : CircuitM (List Combination) := do
  if xs.length = 16 then
    let xs ← xs.mapM fun x => ofExcept x.toCombination
    Gadget.permuteList xs
  else throw (.circuitWidth xs.length)

/-- Digest of entries. Each block is looked at when it is absorbed. -/
def sponge (xs : List Entry) : CircuitM (Digest Combination) :=
  (blocks Sponge.rate (Sponge.blockCount xs.length) xs).foldlM
    (fun capacity block => do
      let block ← block.mapM fun x => ofExcept x.toCombination
      Gadget.absorb capacity block)
    ((Sponge.initialCapacity xs.length).map .constant)

end Entry

end FieldLisp
