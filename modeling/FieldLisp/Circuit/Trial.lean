import FieldLisp.Circuit.Frame
import FieldLisp.Machine.Value
import FieldLisp.Repetition

/-! # Building circuits from values of any kind

The model of circuits, on values. A value of the wrong kind ends an operation where the operation
first looks at it: a divisor before the dividend, the slot of a hash and its condition before what
is hashed. What was added before that stays. -/

namespace FieldLisp

/-- A circuit that is being built, and the selector of the running rule, which may be anything. -/
structure CircuitTrial where
  synthesis : Synthesis
  gate : Value Combination PointerWire

abbrev CircuitTrialM := EStateM Fault CircuitTrial

instance : ValueModel Combination PointerWire where
  ofNumber := .constant
  parts p := [.element p.tag, .several (p.digest.map .element)]
  unfitSecond := .absentPart

namespace CircuitTrial

def start (synthesis : Synthesis) : CircuitTrial := ⟨synthesis, .hole⟩

/-- Runs what asks for values of the right kind. -/
def strictly (operation : SynthesisM α) : CircuitTrialM α := fun ⟨synthesis, gate⟩ =>
  match operation synthesis with
  | .ok a synthesis => .ok a ⟨synthesis, gate⟩
  | .error fault synthesis => .error fault ⟨synthesis, gate⟩

def combination (v : Value Combination PointerWire) : CircuitTrialM Combination :=
  ofExcept v.toElement

def wire (v : Value Combination PointerWire) : CircuitTrialM PointerWire := ofExcept v.toPointer

def unary (operation : Combination → SynthesisM Combination)
    (a : Value Combination PointerWire) : CircuitTrialM (Value Combination PointerWire) := do
  let x ← combination a
  .element <$> strictly (operation x)

def binary (operation : Combination → Combination → SynthesisM Combination)
    (a b : Value Combination PointerWire) : CircuitTrialM (Value Combination PointerWire) := do
  let x ← combination a
  let y ← combination b
  .element <$> strictly (operation x y)

def paired (operation : SynthesisM (Combination × Combination)) :
    CircuitTrialM (Value Combination PointerWire × Value Combination PointerWire) := do
  let (x, y) ← strictly operation
  pure (.element x, .element y)

/-- The condition under which an operation of the running rule binds. A selector that is none is
found out when something is bound. -/
def condition (c : Option (Value Combination PointerWire)) :
    CircuitTrialM (Value Combination PointerWire) := do
  match c, (← get).gate with
  | none, .hole => pure (.element 1)
  | none, gate => pure gate
  | some c, .hole => .element <$> combination c
  | some c, gate => binary StepModel.mul gate c

/-- The condition of something that is bound now; a circuit that is full says so first. -/
def binding (c : Value Combination PointerWire) : CircuitTrialM Combination := do
  if c.element?.isNone then strictly (Synthesis.onCircuit Circuit.checkRoom)
  combination c

/-- The next slot for a number of children. A slot that could not be filled with zeros takes its
number all the same. -/
def nextSlot (arity : Int) : CircuitTrialM HashSlot :=
  match checkRepetition (preimageSize arity) 1 with
  | .ok () => strictly (Synthesis.nextSlot arity)
  | .error fault => strictly do
    let _ ← Synthesis.nextKey arity
    throw fault

/-- The divisor is tested before the dividend is looked at. -/
def div (a b : Value Combination PointerWire) :
    CircuitTrialM (Value Combination PointerWire × Value Combination PointerWire) := do
  let y ← combination b
  let (zero, inverse) ← strictly (Synthesis.zeroTest y)
  let quotient ← binary StepModel.mul a (.element inverse)
  pure (quotient, .element zero)

def divRem (a b : Value Combination PointerWire) (c : Option (Value Combination PointerWire)) :
    CircuitTrialM (Value Combination PointerWire × Value Combination PointerWire) := do
  let c ← condition c
  let x ← combination a
  let y ← combination b
  let c ← combination c
  paired (Synthesis.onCircuit (Gadget.divRem c x y divisionBits))

def select (flag x y : Value Combination PointerWire) :
    CircuitTrialM (Value Combination PointerWire) := do
  let flag ← combination flag
  binary (StepModel.select flag) x y

def selectPointer (flag p q : Value Combination PointerWire) :
    CircuitTrialM (Value Combination PointerWire) := do
  let p ← wire p
  let q ← wire q
  let flag ← combination flag
  .pointer <$> strictly (StepModel.selectPointer flag p q)

def hash (tag : Value Combination PointerWire) (children : List (Value Combination PointerWire))
    (c : Option (Value Combination PointerWire)) :
    CircuitTrialM (Value Combination PointerWire) := do
  let slot ← nextSlot children.length
  let c ← condition c
  let tag ← combination tag
  let children ← children.mapM wire
  let c ← binding c
  .pointer <$> strictly (Synthesis.bindNode slot c tag children)

def unhash (p : Value Combination PointerWire) (arity : Int)
    (c : Option (Value Combination PointerWire)) :
    CircuitTrialM (List (Value Combination PointerWire)) := do
  let slot ← nextSlot arity
  let c ← condition c
  let p ← wire p
  let c ← binding c
  let children ← strictly (Synthesis.bindChildren slot c p)
  pure (children.map .pointer)

end CircuitTrial

open CircuitTrial in
instance : StepModel CircuitTrialM (Value Combination PointerWire)
    (Value Combination PointerWire) where
  makePointer tag digest := do
    let tag ← combination tag
    let digest ← digest.mapM combination
    .pointer <$> strictly (StepModel.makePointer tag digest)
  payload p := do
    let p ← wire p
    .element <$> strictly (StepModel.payload p)
  mul := binary StepModel.mul
  div := div
  isZero := unary StepModel.isZero
  isNegative := unary StepModel.isNegative
  less := binary StepModel.less
  divRem := divRem
  select := select
  selectPointer := selectPointer
  tagIs p tag := do
    let p ← wire p
    .element <$> strictly (StepModel.tagIs p tag)
  pointerEq p q := do
    let p ← wire p
    let q ← wire q
    .element <$> strictly (StepModel.pointerEq p q)
  hash := hash
  unhash := unhash
  emit _ _ := pure ()

open CircuitTrial in
instance : RunModel CircuitTrialM (Value Combination PointerWire)
    (Value Combination PointerWire) where
  input value := .element <$> strictly (RunModel.input value)
  inputPointer p := .pointer <$> strictly (RunModel.inputPointer p)
  onCursor change := strictly (RunModel.onCursor change)
  nextSlot arity := strictly (RunModel.nextSlot arity)
  setGate gate := modify fun t => { t with gate := gate.getD .hole }

end FieldLisp
