import FieldLisp.Circuit.Gadget
import FieldLisp.Circuit.Sponge
import FieldLisp.Config
import FieldLisp.Machine.ContRules
import FieldLisp.Machine.EvalRules

/-! # Steps as constraints

The model in which elements are linear combinations and the operations of a rule add the constraints
that its results obey. Nothing here looks at a value to decide what to add, so every frame gets the
same constraints. While the rules of a phase are built, the selector of the running rule gates its
hash slots; slots are shared between rules, for only one of them is selected. -/

namespace FieldLisp

/-- A pointer inside a circuit. -/
structure PointerWire where
  tag : Combination
  digest : List Combination
  deriving DecidableEq, Repr, Inhabited

namespace PointerWire

def elements (p : PointerWire) : List Combination := p.tag :: p.digest

def constant (p : Pointer) : PointerWire :=
  ⟨.constant p.tag.value, p.digest.map .constant⟩

/-- The pointers whose elements follow each other in a list, five to each. -/
def ofElements : List Combination → List PointerWire
  | tag :: d0 :: d1 :: d2 :: d3 :: rest => ⟨tag, [d0, d1, d2, d3]⟩ :: ofElements rest
  | _ => []

end PointerWire

/-- Preimage and image of the sponge in a circuit. -/
structure HashSlot where
  preimage : List Combination
  image : Digest Combination
  deriving DecidableEq, Repr, Inhabited

/-- The circuit that is being built, and what has been built so far for later use. -/
structure Synthesis where
  circuit : Circuit
  cursor : SlotCursor
  /-- Witness for the hash slots. -/
  preimages : SlotTable
  /-- Selector of the running rule. -/
  gate : Option Combination
  /-- The slots that were asked for already. -/
  slots : List (SlotKey × HashSlot)
  /-- Zero tests by the terms tested: the flag and the inverse. -/
  zeroTests : List (List Term × Combination × Combination)

abbrev SynthesisM := EStateM Fault Synthesis

namespace Synthesis

def start (circuit : Circuit) (preimages : SlotTable) : Synthesis :=
  ⟨circuit, .start, preimages, none, [], []⟩

/-- Runs an operation on the circuit, which is handed over meanwhile. -/
def onCircuit (operation : CircuitM α) : SynthesisM α := fun s =>
  let circuit := s.circuit
  let s := { s with circuit := default }
  match operation circuit with
  | .ok a circuit => .ok a { s with circuit := circuit }
  | .error fault circuit => .error fault { s with circuit := circuit }

def onCursor (change : SlotCursor → SlotCursor) : SynthesisM Unit := fun s =>
  .ok () { s with cursor := change s.cursor }

def setGate (gate : Option Combination) : SynthesisM Unit := fun s =>
  .ok () { s with gate := gate }

/-- Labels what an operation adds. -/
def within (name : String) (operation : SynthesisM α) : SynthesisM α := fun s =>
  match operation { s with circuit := s.circuit.enter name } with
  | .ok a s => .ok a { s with circuit := s.circuit.leave }
  | .error fault s => .error fault { s with circuit := s.circuit.leave }

/-- The zero test of a combination; equal terms share one. -/
def zeroTest (x : Combination) : SynthesisM (Combination × Combination) := do
  let s ← get
  match s.zeroTests.lookup x.terms with
  | some known => pure known
  | none => do
    let fresh ← onCircuit (Gadget.isZero x)
    modify fun s => { s with zeroTests := (x.terms, fresh) :: s.zeroTests }
    pure fresh

/-- The condition under which an operation of the running rule binds. -/
def condition (c : Option Combination) : SynthesisM Combination := do
  let s ← get
  match c, s.gate with
  | none, none => pure 1
  | none, some gate => pure gate
  | some c, none => pure c
  | some c, some gate => onCircuit (Circuit.mul gate c)

/-- Label of a slot. -/
def slotLabel (key : SlotKey) : String :=
  "slot(" ++ ", ".intercalate (key.numbers.map toString) ++ ")"

/-- Builds a slot: its preimage as new variables, and the sponge over them. -/
def buildSlot (preimage : List Int) : CircuitM HashSlot := do
  let preimage ← preimage.mapM Circuit.alloc
  let image ← Gadget.sponge preimage
  pure ⟨preimage, image⟩

/-- The number of the next slot for a number of children. -/
def nextKey (arity : Int) : SynthesisM SlotKey := fun s =>
  let (key, cursor) := s.cursor.next arity
  .ok key { s with cursor := cursor }

/-- The next slot for a number of children, built when it is first asked for. The witness of a slot
that the step left empty is all zero. -/
def nextSlot (arity : Int) : SynthesisM HashSlot := do
  let key ← nextKey arity
  let s ← get
  match s.slots.lookup key with
  | some slot => pure slot
  | none => do
    let size := preimageSize arity
    let preimage := (s.preimages.get? key).getD (List.replicate size.toNat 0)
    if (preimage.length : Int) = size then
      let slot ← onCircuit (Circuit.within (slotLabel key) (buildSlot preimage))
      modify fun s => { s with slots := (key, slot) :: s.slots }
      pure slot
    else throw (.slotSize key.phase.value key.arity key.index preimage.length size)

/-- The next slot for a number of children, and the condition under which it binds. -/
def claim (arity : Int) (c : Option Combination) : SynthesisM (HashSlot × Combination) := do
  let slot ← nextSlot arity
  let c ← condition c
  pure (slot, c)

/-- The pointer of a node, whose elements are what a slot hashes if the condition is one. -/
def bindNode (slot : HashSlot) (c tag : Combination) (children : List PointerWire) :
    SynthesisM PointerWire := do
  let elements := tag :: children.flatMap PointerWire.elements
  onCircuit (Gadget.bindAll c slot.preimage elements)
  pure ⟨tag, slot.image.toList⟩

/-- The children that a slot hashes, if the condition is one, to a pointer. -/
def bindChildren (slot : HashSlot) (c : Combination) (p : PointerWire) :
    SynthesisM (List PointerWire) := do
  onCircuit (Gadget.bindAll c (slot.preimage.take 1) [p.tag])
  onCircuit (Gadget.bindAll c slot.image.toList p.digest)
  pure (PointerWire.ofElements slot.preimage.tail)

def hash (tag : Combination) (children : List PointerWire) (c : Option Combination) :
    SynthesisM PointerWire := do
  let (slot, c) ← claim children.length c
  bindNode slot c tag children

def unhash (p : PointerWire) (arity : Int) (c : Option Combination) :
    SynthesisM (List PointerWire) := do
  let (slot, c) ← claim arity c
  bindChildren slot c p

def div (a b : Combination) : SynthesisM (Combination × Combination) := do
  let (zero, inverse) ← zeroTest b
  let quotient ← onCircuit (Circuit.mul a inverse)
  pure (quotient, zero)

def divRem (a b : Combination) (c : Option Combination) :
    SynthesisM (Combination × Combination) := do
  let c ← condition c
  onCircuit (Gadget.divRem c a b divisionBits)

def select (flag x y : Combination) : SynthesisM Combination := onCircuit (Gadget.select flag x y)

def selectPointer (flag : Combination) (p q : PointerWire) : SynthesisM PointerWire := do
  let tag ← select flag p.tag q.tag
  let digest ← (p.digest.zip q.digest).mapM fun (x, y) => select flag x y
  pure ⟨tag, digest⟩

/-- What an immediate pointer carries: the first element of its digest. -/
def payload (p : PointerWire) : SynthesisM Combination :=
  match p.digest with
  | value :: _ => pure value
  | [] => throw .missingElement

/-- Pointers are equal when all their elements are. -/
def pointerEq (p q : PointerWire) : SynthesisM Combination := do
  let same ← (p.elements.zip q.elements).mapM fun (x, y) => do
    let (zero, _) ← zeroTest (x - y)
    pure zero
  match same with
  | [] => pure 1
  | flag :: flags => flags.foldlM (fun x y => onCircuit (Circuit.mul x y)) flag

end Synthesis

instance : ElementModel Combination where
  const := .constant
  add a b := a + b
  sub a b := a - b

instance : PointerModel PointerWire where
  const := .constant

open Synthesis in
instance : StepModel SynthesisM Combination PointerWire where
  makePointer tag digest := pure ⟨tag, digest⟩
  payload := payload
  mul a b := onCircuit (Circuit.mul a b)
  div := div
  isZero x := do
    let (zero, _) ← zeroTest x
    pure zero
  isNegative x := onCircuit (Gadget.isNegative x)
  less a b := onCircuit (Gadget.less a b)
  divRem := divRem
  select := select
  selectPointer := selectPointer
  tagIs p tag := do
    let (zero, _) ← zeroTest (p.tag - .constant tag.value)
    pure zero
  pointerEq := pointerEq
  hash := hash
  unhash := unhash
  emit _ _ := pure ()

end FieldLisp
