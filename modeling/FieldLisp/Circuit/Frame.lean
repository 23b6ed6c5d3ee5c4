import FieldLisp.Circuit.Synthesis

/-! # The circuit of a frame

One circuit for each step, laid out in this order: the input and the output state as public
variables; the intermediate state and the flag that says whether it holds a value; then for each
phase its prelude, one selector for each rule, and all the rules. Exactly one selector is set, and a
selector that is set forces the guard of its rule and binds the outcome of its rule to the state
that the phase ends in. Every rule is built for every frame: which one applied changes the
selectors' values and nothing else. -/

namespace FieldLisp.FrameCircuit
open Synthesis

/-- A state inside a circuit. -/
structure StateWire where
  expr : PointerWire
  env : PointerWire
  cont : PointerWire

namespace StateWire

def elements (s : StateWire) : List Combination :=
  s.expr.elements ++ s.env.elements ++ s.cont.elements

end StateWire

/-- A new variable for each element of a pointer. -/
def allocPointer (alloc : Int → CircuitM Combination) (p : Pointer) : CircuitM PointerWire := do
  let tag ← alloc p.tag.value
  let digest ← p.digest.mapM alloc
  pure ⟨tag, digest⟩

/-- A new variable for each element of a state. -/
def allocState (alloc : Int → CircuitM Combination) (s : State) : CircuitM StateWire := do
  let expr ← allocPointer alloc s.expr
  let env ← allocPointer alloc s.env
  let cont ← allocPointer alloc s.cont
  pure ⟨expr, env, cont⟩

instance : RunModel SynthesisM Combination PointerWire where
  input value := onCircuit (Circuit.alloc value)
  inputPointer p := onCircuit (allocPointer Circuit.alloc p)
  onCursor := onCursor
  nextSlot := nextKey
  setGate := setGate

/-- One selector for each rule, of which only that of `fired` is set; each forces the guard of its
rule. -/
def selectRule [BEq κ] (guards : List (κ × Combination)) (fired : κ) :
    CircuitM (List (κ × Combination)) := do
  let rules := guards.map (·.1)
  let flags ← Gadget.oneHot (rules.idxOf fired) rules.length
  let selectors := rules.zip flags
  (selectors.zip guards).forM fun ((_, selector), (_, guard)) =>
    Gadget.impliesEqual selector guard 1
  pure selectors

/-- Builds one rule under its selector, and binds its outcome to `target`. Each rule numbers its
slots from where the rules of the phase begin. -/
def runRule (label : String) (selector : Combination)
    (body : SynthesisM (Step Combination PointerWire))
    (produced : Step Combination PointerWire → List Combination) (target : List Combination) :
    SynthesisM Unit :=
  Synthesis.within label do
    onCursor (·.rewind)
    setGate (some selector)
    let outcome ← body
    onCircuit (Gadget.bindAll selector (produced outcome) target)

/-- The state that a rule leads to. -/
def outcomeState (s : Step Combination PointerWire) : List Combination :=
  s.expr.elements ++ s.env.elements ++ s.cont.elements

/-- The constraints of the evaluation phase. -/
def evalPhase (config : Config) (input : StateWire) (fired : EvalRule)
    (target : List Combination) : SynthesisM Unit := do
  onCursor (·.beginPhase .eval)
  let (scope, selectors) ← Synthesis.within "eval/prelude" do
    let scope ← EvalPhase.prelude input.expr input.env input.cont
    let guards ← EvalPhase.guards scope
    let selectors ← onCircuit (selectRule guards fired)
    pure (scope, selectors)
  onCursor (·.beginRules)
  selectors.forM fun (rule, selector) =>
    runRule ("eval/" ++ rule.name.toLower) selector (EvalPhase.run config.lookupDepth rule scope)
      (fun s => outcomeState s ++ [s.ret]) target
  setGate none

/-- The constraints of the continuation phase. -/
def contPhase (mid : Step Combination PointerWire) (fired : ContRule)
    (target : List Combination) : SynthesisM Unit := do
  onCursor (·.beginPhase .cont)
  let (scope, selectors) ← Synthesis.within "cont/prelude" do
    let scope ← ContPhase.prelude mid
    let guards ← ContPhase.guards scope
    let selectors ← onCircuit (selectRule guards fired)
    pure (scope, selectors)
  onCursor (·.beginRules)
  selectors.forM fun (rule, selector) =>
    runRule ("cont/" ++ rule.name.toLower) selector (ContPhase.run rule scope) outcomeState target
  setGate none

/-- All constraints of a frame. -/
def build (config : Config) (frame : Frame) : SynthesisM Unit := do
  let (input, output) ← Synthesis.within "io" <| onCircuit do
    let input ← allocState Circuit.allocPublic frame.input
    let output ← allocState Circuit.allocPublic frame.output
    pure (input, output)
  let (mid, ret) ← Synthesis.within "intermediate" <| onCircuit do
    let mid ← allocState Circuit.alloc frame.intermediate
    let ret ← Gadget.allocBit frame.returned
    pure (mid, ret)
  evalPhase config input frame.rule (mid.elements ++ [ret])
  contPhase ⟨mid.expr, mid.env, mid.cont, ret⟩ frame.returnRule output.elements

/-- The circuit of a frame, with the frame as its witness. The configuration must be the one that
the frame was computed with. -/
def synthesize (config : Config) (frame : Frame) : Except Fault Circuit :=
  let circuit := Circuit.empty (config.maxConstraints.map Int.ofNat)
  match build config frame (.start circuit frame.slots) with
  | .ok _ s => .ok s.circuit
  | .error fault _ => .error fault

/-- The circuits of the frames of a trace, in order. -/
def synthesizeAll (config : Config) (workers : Option Int) (frames : List Frame) :
    Except Fault (List Circuit) :=
  if (workers.or (config.workers.map Int.ofNat)).any (· < 1) then .error .noWorkers
  else frames.mapM (synthesize config)

end FieldLisp.FrameCircuit
