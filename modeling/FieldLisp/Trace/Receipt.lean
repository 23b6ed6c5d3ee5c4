import FieldLisp.Circuit.Layout
import FieldLisp.Text.Hexadecimal
import FieldLisp.Trace.Bundle

/-! # Receipt chains

A proof that a trace leads from one state to another in a number of steps. It carries every circuit,
so it is not short: checking it checks them all again. What it adds is a chain of hashes that starts
from the shape of the circuits and the initial state and takes in the two ends of each step. -/

namespace FieldLisp

/-- Commitments to the states that a step leads from and to. -/
abbrev Link := Commitment × Commitment

structure ReceiptProof where
  /-- Digest of the layout that all circuits share. -/
  shape : String
  links : List Link
  /-- Number of links that are steps; the others fill up the trace. -/
  stepCount : Int
  /-- Last hash of the chain. -/
  receipt : Commitment
  circuits : List Circuit
  deriving Inhabited

namespace Receipt

/-- Elements hashed at the start of a chain. -/
def initPreimage (shape : List UInt8) (initial : Commitment) : List Int :=
  Commitment.initDomain :: (Field.packBytes shape ++ initial.toList)

/-- Elements hashed for a link. -/
def stepPreimage (previous : Commitment) (link : Link) : List Int :=
  Commitment.stepDomain :: (previous.toList ++ link.1.toList ++ link.2.toList)

/-- The chain from a hash on. -/
def extend (current : Commitment) : List Link → List Commitment
  | [] => [current]
  | link :: links => current :: extend (Sponge.hash (stepPreimage current link)) links

/-- All hashes of a chain. The shape must be written in hexadecimal. -/
def chain (shape : String) (initial : Commitment) (links : List Link) :
    Except Fault (List Commitment) :=
  match Text.hexBytes? shape with
  | none => .error .notHexadecimal
  | some bytes => .ok (extend (Sponge.hash (initPreimage bytes initial)) links)

/-- The last hash of a chain. -/
def last (shape : String) (initial : Commitment) (links : List Link) : Except Fault Commitment := do
  let hashes ← chain shape initial links
  .ok (hashes.getLast?.getD default)

/-! ## Folding -/

/-- What folding has seen: the shape of the circuits, the links, last one first, and where the trace
has come to. -/
structure Folding where
  shape : Option String
  links : List Link
  reached : Commitment

/-- Takes in one instance: it must be satisfied, of the common shape, and start where the trace has
come to. -/
def foldInstance (state : Folding) (step : StepInstance) : Except Fault Folding := do
  match step.circuit.unsatisfied with
  | (constraint, label) :: rest =>
    .error (.unsatisfiedStep step.index constraint label (rest.length + 1))
  | [] =>
    let shape := step.circuit.shapeDigest
    if state.shape.all (· == shape) then
      let input ← Commitment.ofElements step.input
      let output ← Commitment.ofElements step.output
      if input = state.reached then
        .ok ⟨some (state.shape.getD shape), (input, output) :: state.links, output⟩
      else .error (.stepGap step.index)
    else .error (.shapeDiffers step.index)

/-- Folds a bundle into a proof. -/
def fold (bundle : Bundle) : Except Fault ReceiptProof := do
  let result ← bundle.instances.foldlM foldInstance ⟨none, [], bundle.initial⟩
  if result.reached = bundle.final then
    let shape := result.shape.getD ""
    let links := result.links.reverse
    let receipt ← last shape bundle.initial links
    .ok ⟨shape, links, bundle.stepCount, receipt, bundle.instances.map (·.circuit)⟩
  else .error .endDiffers

/-! ## Verification -/

/-- The link that a circuit's public values give. -/
def circuitLink (circuit : Circuit) : Except Fault Link := do
  let values := circuit.publicValues
  let input ← Commitment.ofElements (values.take stateSize)
  let output ← Commitment.ofElements (values.drop stateSize)
  .ok (input, output)

/-- Whether a circuit has the shape, belongs to the link and is satisfied. -/
def backs (shape : String) (circuit : Circuit) (link : Link) : Except Fault Bool :=
  if circuit.shapeDigest = shape then do
    let given ← circuitLink circuit
    .ok (given == link && circuit.isSatisfied)
  else .ok false

/-- Whether each circuit backs the link at its place. -/
def allBacked (shape : String) : List (Circuit × Link) → Except Fault Bool
  | [] => .ok true
  | (circuit, link) :: rest => do
    if ← backs shape circuit link then allBacked shape rest else .ok false

/-- Where a trace of links leads to, if each link starts where the one before it ended. -/
def follow (start : Commitment) : List Link → Option Commitment
  | [] => some start
  | (input, output) :: links => if input = start then follow output links else none

/-- The links after the first `count`; a negative count leaves out all but so many at the end. -/
def linksFrom (count : Int) (links : List Link) : List Link :=
  links.drop (position links.length count).toNat

/-- Checks that a proof leads from one state to another in a number of steps. -/
def verify (proof : ReceiptProof) (initial final : Commitment) (stepCount : Int) :
    Except Fault Bool :=
  if proof.stepCount ≠ stepCount ∨ stepCount > proof.links.length then .ok false
  else if proof.circuits.length ≠ proof.links.length then .ok false
  else do
    let backed ← allBacked proof.shape (proof.circuits.zip proof.links)
    if !backed || follow initial proof.links ≠ some final then .ok false
    else if (linksFrom stepCount proof.links).any (fun link => link.1 != link.2) then .ok false
    else
      let receipt ← last proof.shape initial proof.links
      .ok (receipt == proof.receipt)

end Receipt

end FieldLisp
