import FieldLisp.Circuit.Frame
import FieldLisp.Machine.Evaluation
import FieldLisp.Trace.Commitment

/-! # Bundles

All that is needed to prove a trace: the circuit of each frame with its public values split into
input and output, and commitments to the states at both ends. Frames that fill up a trace are
carried along but do not count as steps. -/

namespace FieldLisp

/-- The circuit of one step, and the elements of the states that it leads from and to. -/
structure StepInstance where
  index : Int
  circuit : Circuit
  input : List Int
  output : List Int
  deriving Inhabited

structure Bundle where
  /-- One for each frame, in order. -/
  instances : List StepInstance
  /-- Commitment to the state that the trace starts from. -/
  initial : Commitment
  /-- Commitment to the state that the trace ends in. -/
  final : Commitment
  /-- Number of frames that are not at rest. -/
  stepCount : Int
  deriving Inhabited

namespace Trace

/-- Checks frames from the one numbered `index` on against the state before it, if that is known. -/
def checkFrom (index : Nat) (previous : Option State) : List Frame → Except Fault Unit
  | [] => .ok ()
  | frame :: frames =>
    if previous.all (· == frame.input) then checkFrom (index + 1) (some frame.output) frames
    else .error (.frameGap index)

/-- Each frame must start where the one before it ended. -/
def checkContiguity (frames : List Frame) (initial : Option State) : Except Fault Unit :=
  checkFrom 0 initial frames

/-- An instance whose input is the first fifteen public values and whose output is the others. -/
def instanceOf (index : Int) (circuit : Circuit) : StepInstance :=
  ⟨index, circuit, circuit.publicValues.take stateSize, circuit.publicValues.drop stateSize⟩

/-- Packs frames that lead on from a state. -/
def bundleFrom (config : Config) (workers : Option Int) (initial : State) (frames : List Frame) :
    Except Fault Bundle := do
  checkContiguity frames (some initial)
  let circuits ← FrameCircuit.synthesizeAll config workers frames
  let start ← Commitment.ofState initial
  let final ← Commitment.ofState (finalState initial frames)
  .ok {
    instances := circuits.zipIdx.map fun (circuit, index) => instanceOf index circuit
    initial := start
    final := final
    stepCount := (frames.filter fun frame => !frame.isIdentity).length }

/-- Packs a run. -/
def bundle (config : Config) (workers : Option Int) (run : Evaluation) : Except Fault Bundle :=
  bundleFrom config workers run.initial run.frames

/-- Packs frames by themselves; there must be one. -/
def bundleFrames (config : Config) (workers : Option Int) (frames : List Frame) :
    Except Fault Bundle :=
  match frames with
  | [] => .error .noFrames
  | frame :: _ => bundleFrom config workers frame.input frames

end Trace

end FieldLisp
