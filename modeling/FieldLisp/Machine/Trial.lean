import FieldLisp.Machine.Computation
import FieldLisp.Machine.Value
import FieldLisp.Repetition

/-! # Computing with values of any kind

The model that computes a step, on values. Selection and equality take anything, and anything can be
a condition: it holds unless it is nothing, zero or empty. A hash takes its slot before it looks at
what it hashes; if it is off, it never looks. -/

namespace FieldLisp

/-- A workspace, and the values that were to be reported, the last one first. -/
structure Trial where
  workspace : Workspace
  reported : List (Value Int Pointer)

abbrev TrialM := EStateM Fault Trial

instance : ValueModel Int Pointer where
  ofNumber n := n
  parts p := [.tag p.tag, .several (p.digest.map .element)]
  unfitSecond := .unfitOperand

namespace Value

/-- A condition holds unless it is nothing, zero or empty. -/
def holds (v : Value Int Pointer) : Bool :=
  match v.element?, v with
  | some x, _ => x != 0
  | none, hole => false
  | none, several vs => !vs.isEmpty
  | none, _ => true

mutual

/-- Equality of values: numbers by what they stand for, the others kind by kind. -/
def same : Value Int Pointer → Value Int Pointer → Bool
  | hole, hole => true
  | pointer p, pointer q => p == q
  | several vs, several ws => sameAll vs ws
  | outcome expr env cont ret, outcome expr' env' cont' ret' =>
    same expr expr' && same env env' && same cont cont' && same ret ret'
  | v, w => v.element?.isSome && v.element? == w.element?

def sameAll : List (Value Int Pointer) → List (Value Int Pointer) → Bool
  | [], [] => true
  | v :: vs, w :: ws => same v w && sameAll vs ws
  | _, _ => false

end

mutual

/-- Written form, for diagnosis. -/
def describe : Value Int Pointer → Except Fault String
  | hole => .ok "None"
  | number n | element n => .ok (toString n)
  | tag t => .ok ("<Tag." ++ t.name ++ ": " ++ toString t.value ++ ">")
  | pointer p => p.describe
  | several vs => do
    let texts ← describeAll vs
    .ok ("(" ++ ", ".intercalate texts ++ (if texts.length = 1 then ",)" else ")"))
  | outcome expr env cont ret => do
    let expr ← describe expr
    let env ← describe env
    let cont ← describe cont
    let ret ← describe ret
    .ok ("Step(expr=" ++ expr ++ ", env=" ++ env ++ ", cont=" ++ cont ++ ", ret=" ++ ret ++ ")")
  | fault f => .error f

def describeAll : List (Value Int Pointer) → Except Fault (List String)
  | [] => .ok []
  | v :: vs => do
    let text ← describe v
    let texts ← describeAll vs
    .ok (text :: texts)

end

end Value

namespace Trial

def ofStore (store : Store) : Trial := ⟨.ofStore store, []⟩

/-- Runs what asks for values of the right kind. -/
def strictly (operation : ComputeM α) : TrialM α := fun ⟨workspace, reported⟩ =>
  match operation workspace with
  | .ok a workspace => .ok a ⟨workspace, reported⟩
  | .error fault workspace => .error fault ⟨workspace, reported⟩

/-- An operation is off only if its condition does not hold. -/
def enabled (condition : Option (Value Int Pointer)) : Bool := condition.all Value.holds

/-- A condition as an element. -/
def bit (condition : Option (Value Int Pointer)) : Option Int :=
  some (Workspace.bit (enabled condition))

def element (v : Value Int Pointer) : TrialM Int := ofExcept v.toElement

def unary (operation : Int → ComputeM Int) (a : Value Int Pointer) :
    TrialM (Value Int Pointer) := do
  let x ← element a
  .element <$> strictly (operation x)

def makePointer (tag : Value Int Pointer) (digest : List (Value Int Pointer)) :
    TrialM (Value Int Pointer) := do
  let tag ← match tag.element? with
    | some n => strictly (Workspace.tagOf n)
    | none => do
      let shown ← ofExcept tag.describe
      throw (.notATag shown)
  let digest ← digest.mapM element
  pure (.pointer ⟨tag, digest⟩)

/-- A number times several values would repeat them, which takes room, and is no element. -/
def mul (a b : Value Int Pointer) : TrialM (Value Int Pointer) := do
  let a ← ofExcept a.settled
  let b ← ofExcept b.settled
  match a.element?, b.element? with
  | some x, some y => .element <$> strictly (StepModel.mul x y)
  | x, y => do
    if let some n := x.or y then
      if let some parts := a.parts?.or b.parts? then ofExcept (checkRepetition n parts.length)
    throw .unfitOperand

/-- A dividend is not looked at if the divisor is zero. -/
def div (a b : Value Int Pointer) : TrialM (Value Int Pointer × Value Int Pointer) := do
  let y ← element b
  if y = 0 then pure (.element 0, .element 1)
  else if Field.reduce y = 0 then throw .zeroInverse
  else do
    let quotient ← mul a (.element (Field.invert y))
    pure (quotient, .element 0)

/-- Whatever is no element is not zero. -/
def isZero (a : Value Int Pointer) : TrialM (Value Int Pointer) := do
  let a ← ofExcept a.settled
  match a.element? with
  | some x => .element <$> strictly (StepModel.isZero x)
  | none => pure (.element 0)

def less (a b : Value Int Pointer) : TrialM (Value Int Pointer) := do
  let x ← element a
  let y ← element b
  .element <$> strictly (StepModel.less x y)

def divRem (a b : Value Int Pointer) (condition : Option (Value Int Pointer)) :
    TrialM (Value Int Pointer × Value Int Pointer) := do
  if enabled condition then
    let x ← element a
    let y ← element b
    let (quotient, remainder) ← strictly (StepModel.divRem x y none)
    pure (.element quotient, .element remainder)
  else pure (.element 0, .element 0)

def choose (flag x y : Value Int Pointer) : TrialM (Value Int Pointer) :=
  pure (if flag.holds then x else y)

/-- Children are looked at in their order, after their number. -/
def checkChildren (tag : Tag) (children : List (Value Int Pointer)) : ComputeM Unit := do
  let fit := (children.map Value.toPointer).takeWhile Except.isOk |>.filterMap Except.toOption
  let rest := List.replicate (children.length - fit.length) Pointer.nil
  Workspace.ask (·.checkNode tag (fit ++ rest))
  if fit.length < children.length then throw .absentPart

def hash (tag : Value Int Pointer) (children : List (Value Int Pointer))
    (condition : Option (Value Int Pointer)) : TrialM (Value Int Pointer) := do
  let tag ← element tag
  match children.mapM Value.toPointer with
  | .ok children => .pointer <$> strictly (Workspace.hash tag children (bit condition))
  | .error _ => strictly do
    if (← Workspace.claim children.length (bit condition)).isSome then
      checkChildren (← Workspace.tagOf tag) children
    pure (.pointer .nil)

def unhash (p : Value Int Pointer) (arity : Int) (condition : Option (Value Int Pointer)) :
    TrialM (List (Value Int Pointer)) := do
  if enabled condition then
    match p.toPointer with
    | .ok p => do
      let children ← strictly (Workspace.unhash p arity none)
      pure (children.map .pointer)
    | .error fault => strictly do
      let _ ← Workspace.nextSlot arity
      throw fault
  else do
    let _ ← strictly (Workspace.nextSlot arity)
    ofExcept (repetition arity [.pointer .nil])

/-- A value counts as reported before it is written out. -/
def emit (p : Value Int Pointer) (condition : Option (Value Int Pointer)) : TrialM Unit := do
  if enabled condition then
    modify fun t => { t with reported := p :: t.reported }
    let p ← ofExcept p.toPointer
    let _ ← strictly (Workspace.ask (·.render p))

end Trial

open Trial in
instance : StepModel TrialM (Value Int Pointer) (Value Int Pointer) where
  makePointer := makePointer
  payload p := do
    let p ← ofExcept p.toPointer
    .element <$> strictly (StepModel.payload p)
  mul := mul
  div := div
  isZero := isZero
  isNegative := unary StepModel.isNegative
  less := less
  divRem := divRem
  select := choose
  selectPointer := choose
  tagIs p tag := do
    let p ← ofExcept p.toPointer
    .element <$> strictly (StepModel.tagIs p tag)
  pointerEq p q := pure (.element (Workspace.bit (p.same q)))
  hash := hash
  unhash := unhash
  emit := emit

open Trial in
instance : RunModel TrialM (Value Int Pointer) (Value Int Pointer) where
  input n := .element <$> strictly (RunModel.input n)
  inputPointer p := .pointer <$> strictly (RunModel.inputPointer p)
  onCursor change := strictly (RunModel.onCursor change)
  nextSlot arity := strictly (RunModel.nextSlot arity)
  setGate _ := pure ()

end FieldLisp
