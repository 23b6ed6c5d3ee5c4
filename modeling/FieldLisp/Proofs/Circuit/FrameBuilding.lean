import FieldLisp.Proofs.Circuit.Building
import FieldLisp.Proofs.Machine.Course

/-!
# Frames as operations that grow

Behind the public variables, the circuit of a frame is built by operations that grow:

* `Course.build`: the constraints of a phase, for any course;
* `BuildM.frame`: what is built of a frame behind its public variables;
* `FrameCircuit.realizes_frame`: frames are built as they are on syntheses.
-/

namespace FieldLisp

open EStateM (bind_eq_ok bind_of_ok)

/-! ## Selectors -/

namespace FrameCircuit

theorem grows_selectRule {κ : Type} [BEq κ] (guards : List (κ × Combination)) (fired : κ) :
    Circuit.Grows (selectRule guards fired) :=
  (Gadget.grows_oneHot _ _).bind fun _ =>
    (Circuit.Grows.forM (fun _ => Gadget.grows_impliesEqual _ _ _) _).bind fun _ => .pure _

end FrameCircuit

namespace BuildM

variable {κ σ : Type}

def selectRule [BEq κ] (guards : List (κ × Combination)) (fired : κ) :
    BuildM (List (κ × Combination)) :=
  ofCircuit (FrameCircuit.selectRule guards fired) (FrameCircuit.grows_selectRule guards fired)

def runRule (label : String) (selector : Combination) (body : BuildM (Step Combination Wire))
    (produced : Step Combination Wire → List Combination) (target : List Combination) :
    BuildM Unit :=
  within label do
    onCursor (·.rewind)
    setGate (some selector)
    let outcome ← body
    bindAll selector (produced outcome) target

def alloc (value : Int) : BuildM Combination := ofCircuit (Circuit.alloc value) (Circuit.grows_alloc value)

/-- A new variable for each element of a pointer with four elements in its digest. -/
def allocPointer (p : Pointer) : BuildM Wire := do
  let tag ← alloc p.tag.value
  let d0 ← alloc (p.digest.getD 0 0)
  let d1 ← alloc (p.digest.getD 1 0)
  let d2 ← alloc (p.digest.getD 2 0)
  let d3 ← alloc (p.digest.getD 3 0)
  pure ⟨tag, d0, d1, d2, d3⟩

/-- New variables for the state between the two phases, and for the flag that it holds a value. -/
def allocMiddle (state : State) (returned : Bool) : BuildM (Step Combination Wire) := do
  let expr ← allocPointer state.expr
  let env ← allocPointer state.env
  let cont ← allocPointer state.cont
  let ret ← ofCircuit (Gadget.allocBit returned) (Gadget.grows_allocBit returned)
  pure ⟨expr, env, cont, ret⟩

end BuildM

/-! ## Phases -/

/-- What a rule binds of its outcome. -/
def Step.wires (s : Step Combination Wire) : List Combination :=
  s.expr.elements ++ s.env.elements ++ s.cont.elements

namespace Course

open BuildM

variable {κ σ : Type}

/-- Reads the state, and sets the selector of one rule. -/
def select [BEq κ] (x : Course BuildM Combination Wire κ σ) (fired : κ) :
    BuildM (σ × List (κ × Combination)) := do
  let scope ← x.read
  let guards ← x.guards scope
  let selectors ← selectRule guards fired
  pure (scope, selectors)

/-- The constraints of a phase. Its labels say which part of it a constraint belongs to. -/
def build [BEq κ] (reading : String) (label : κ → String) (phase : Phase)
    (produced : Step Combination Wire → List Combination) (x : Course BuildM Combination Wire κ σ)
    (fired : κ) (target : List Combination) : BuildM Unit := do
  onCursor (·.beginPhase phase)
  let (scope, selectors) ← within reading (x.select fired)
  onCursor (·.beginRules)
  selectors.forM fun (rule, selector) =>
    runRule (label rule) selector (x.run rule scope) produced target
  setGate none

end Course

/-- What is built of a frame behind its public variables, which are those of the input state and of
the output state. -/
def BuildM.frame (config : Config) (frame : Frame) (expr env cont : Wire)
    (output : List Combination) : BuildM Unit := do
  let mid ← within "intermediate" (allocMiddle frame.intermediate frame.returned)
  (EvalPhase.course config.lookupDepth expr env cont).build "eval/prelude"
    (fun rule => "eval/" ++ rule.name.toLower) .eval (fun s => s.wires ++ [s.ret]) frame.rule
    (mid.wires ++ [mid.ret])
  (ContPhase.course mid).build "cont/prelude" (fun rule => "cont/" ++ rule.name.toLower) .cont
    Step.wires frame.returnRule output

/-! ## The same on syntheses -/

namespace BuildM.Realizes

theorem within {rel : α → β → Prop} {x : SynthesisM α} {y : BuildM β} (h : Realizes rel x y)
    (name : String) : Realizes rel (Synthesis.within name x) (BuildM.within name y) := by
  intro s
  rcases h { s with circuit := s.circuit.enter name } with ⟨a, b, t, hx, hy, hab⟩ | ⟨fault, t, hx, hy⟩
  · exact .inl ⟨a, b, { t with circuit := t.circuit.leave }, by simp only [Synthesis.within, hx],
      by simp only [BuildM.within, Synthesis.within, hy], hab⟩
  · exact .inr ⟨fault, { t with circuit := t.circuit.leave }, by simp only [Synthesis.within, hx],
      by simp only [BuildM.within, Synthesis.within, hy]⟩

theorem forM {f : α → SynthesisM Unit} {g : α → BuildM Unit}
    (h : ∀ a, Realizes Eq (f a) (g a)) (as : List α) : Realizes Eq (as.forM f) (as.forM g) := by
  induction as with
  | nil => exact .pure rfl
  | cons a as ih => exact (h a).bind fun _ _ _ => ih

end BuildM.Realizes

namespace FrameCircuit

open BuildM (Realizes realization)

theorem realizes_runRule {label : String} {selector : Combination}
    {body : SynthesisM (Step Combination PointerWire)} {body' : BuildM (Step Combination Wire)}
    (hbody : Realizes realization.step body body')
    {produced : Step Combination PointerWire → List Combination}
    {produced' : Step Combination Wire → List Combination}
    (hproduced : ∀ x y, realization.step x y → produced x = produced' y)
    (target : List Combination) :
    Realizes Eq (runRule label selector body produced target)
      (BuildM.runRule label selector body' produced' target) := by
  refine .within ?_ label
  refine .bind (.refl (BuildM.onCursor _)) fun _ _ _ => ?_
  refine .bind (.refl (BuildM.setGate _)) fun _ _ _ => ?_
  refine .bind hbody fun x y hxy => ?_
  rw [hproduced x y hxy]
  exact .refl (BuildM.bindAll _ _ _)

theorem outcomeState_eq {x : Step Combination PointerWire} {y : Step Combination Wire}
    (h : realization.step x y) : outcomeState x = y.wires := by
  obtain ⟨hexpr, henv, hcont, -⟩ := h
  obtain ⟨expr, env, cont, ret⟩ := x
  dsimp only at hexpr henv hcont
  rw [outcomeState, hexpr, henv, hcont]
  rfl

/-- Guards are equal in both, and so are the selectors that are made for them. -/
theorem realizes_select {κ σ σ' : Type} [BEq κ] {x : Course SynthesisM Combination PointerWire κ σ}
    {y : Course BuildM Combination Wire κ σ'} {rel : σ → σ' → Prop}
    (h : Course.Related realization rel x y) (fired : κ) :
    Realizes (fun p q => rel p.1 q.1 ∧ p.2 = q.2) (do
      let scope ← x.read
      let guards ← x.guards scope
      let selectors ← Synthesis.onCircuit (selectRule guards fired)
      pure (scope, selectors)) (y.select fired) := by
  refine .bind h.read fun s t hst => .bind (h.guards hst) fun gs hs hflags => ?_
  have hguards : gs = hs := by
    refine List.forall₂_eq_eq_eq ▸ hflags.imp fun a b hab => Prod.ext hab.1 hab.2
  subst hguards
  exact .bind (.refl (BuildM.selectRule gs fired)) fun _ _ heq => .pure ⟨hst, heq⟩

theorem realizes_evalPhase (config : Config) (expr env cont : Wire) (fired : EvalRule)
    (target : List Combination) :
    Realizes Eq
      (evalPhase config ⟨expr.toPointerWire, env.toPointerWire, cont.toPointerWire⟩ fired target)
      ((EvalPhase.course config.lookupDepth expr env cont).build "eval/prelude"
        (fun rule => "eval/" ++ rule.name.toLower) .eval (fun s => s.wires ++ [s.ret]) fired
        target) := by
  have hrelated : Course.Related realization realization.evalScope
      (EvalPhase.course config.lookupDepth expr.toPointerWire env.toPointerWire cont.toPointerWire)
      (EvalPhase.course config.lookupDepth expr env cont) := Course.related_eval realization _ rfl rfl rfl
  refine .bind (.refl (BuildM.onCursor (·.beginPhase .eval))) fun _ _ _ => ?_
  refine .bind ((realizes_select hrelated fired).within _) fun p q hpq => ?_
  obtain ⟨scope, selectors⟩ := p
  obtain ⟨scope', selectors'⟩ := q
  obtain ⟨hscope, rfl⟩ := hpq
  refine .bind (.refl (BuildM.onCursor (·.beginRules))) fun _ _ _ => ?_
  refine .bind (.forM (fun p => ?_) selectors) fun _ _ _ => .refl (BuildM.setGate none)
  refine realizes_runRule (hrelated.run p.1 hscope) (fun x y hxy => ?_) target
  rw [outcomeState_eq hxy, hxy.ret]

theorem realizes_contPhase {mid : Step Combination PointerWire} {mid' : Step Combination Wire}
    (hmid : realization.step mid mid') (fired : ContRule) (target : List Combination) :
    Realizes Eq (contPhase mid fired target)
      ((ContPhase.course mid').build "cont/prelude" (fun rule => "cont/" ++ rule.name.toLower) .cont
        Step.wires fired target) := by
  have hrelated := Course.related_cont realization hmid
  refine .bind (.refl (BuildM.onCursor (·.beginPhase .cont))) fun _ _ _ => ?_
  refine .bind ((realizes_select hrelated fired).within _) fun p q hpq => ?_
  obtain ⟨scope, selectors⟩ := p
  obtain ⟨scope', selectors'⟩ := q
  obtain ⟨hscope, rfl⟩ := hpq
  refine .bind (.refl (BuildM.onCursor (·.beginRules))) fun _ _ _ => ?_
  refine .bind (.forM (fun p => ?_) selectors) fun _ _ _ => .refl (BuildM.setGate none)
  exact realizes_runRule (hrelated.run p.1 hscope) (fun x y hxy => outcomeState_eq hxy) target

/-! ## Public variables -/

end FrameCircuit

/-- All pointers of the state have as many elements as those that are handed out. -/
def State.Sized (s : State) : Prop := ∀ p ∈ s.pointers, p.digest.length = 4

theorem State.Canonical.sized {s : State} (h : s.Canonical) : s.Sized := by
  simpa [State.Sized, State.pointers] using
    ⟨h.1.length_digest, h.2.1.length_digest, h.2.2.length_digest⟩

/-- The states that a frame's variables are for have the right sizes. -/
structure Frame.Sized (f : Frame) : Prop where
  input : f.input.Sized
  output : f.output.Sized
  intermediate : f.intermediate.Sized

/-- A pointer whose elements are variables in a row. -/
def Wire.public (first : ℕ) (p : Pointer) : Wire where
  tag := .ofVariable first (Field.reduce p.tag.value)
  digest := ⟨.ofVariable (first + 1) (Field.reduce (p.digest.getD 0 0)),
    .ofVariable (first + 2) (Field.reduce (p.digest.getD 1 0)),
    .ofVariable (first + 3) (Field.reduce (p.digest.getD 2 0)),
    .ofVariable (first + 4) (Field.reduce (p.digest.getD 3 0))⟩

namespace FrameCircuit

open BuildM (Realizes realization)

/-- A circuit with more public variables. -/
def withPublic (s : Circuit) (values : List Int) : Circuit :=
  { s with
    assignment := s.assignment ++ (values.map Field.reduce).toArray
    publicCount := s.publicCount + values.length }

theorem withPublic_withPublic (s : Circuit) (xs ys : List Int) :
    withPublic (withPublic s xs) ys = withPublic s (xs ++ ys) := by
  simp [withPublic, Nat.add_assoc]

theorem mapM_allocPublic (values : List Int) {s : Circuit}
    (hs : s.publicCount + 1 = s.assignment.size) :
    values.mapM Circuit.allocPublic s =
      .ok ((values.zipIdx s.assignment.size).map fun v => .ofVariable v.2 (Field.reduce v.1))
        (withPublic s values) := by
  induction values generalizing s with
  | nil => simp [withPublic, pure, EStateM.pure]
  | cons v values ih =>
    have hfirst : Circuit.allocPublic v s =
        .ok (.ofVariable s.assignment.size (Field.reduce v)) (withPublic s [v]) := by
      rw [Circuit.allocPublic, if_pos hs]
      simp [Circuit.alloc, withPublic]
    have hsize : (withPublic s [v]).assignment.size = s.assignment.size + 1 := by
      simp [withPublic]
    rw [List.mapM_cons, bind_of_ok hfirst, bind_of_ok (ih (by rw [hsize, ← hs]; rfl)), hsize,
      withPublic_withPublic]
    rfl

theorem allocPointer_eq (alloc : Int → CircuitM Combination) (p : Pointer) :
    allocPointer alloc p = (do
      let xs ← p.elements.mapM alloc
      pure ⟨xs.headD 0, xs.tail⟩) := by
  simp [allocPointer, Pointer.elements]

theorem allocPointer_public {p : Pointer} (hp : p.digest.length = 4) {s : Circuit}
    (hs : s.publicCount + 1 = s.assignment.size) :
    allocPointer Circuit.allocPublic p s =
      .ok (Wire.public s.assignment.size p).toPointerWire (withPublic s p.elements) := by
  rw [allocPointer_eq, bind_of_ok (mapM_allocPublic p.elements hs)]
  obtain ⟨tag, digest⟩ := p
  match digest, hp with
  | [_, _, _, _], _ => rfl

/-- A state with public variables in a row. -/
def publicState (first : ℕ) (state : State) : StateWire where
  expr := (Wire.public first state.expr).toPointerWire
  env := (Wire.public (first + 5) state.env).toPointerWire
  cont := (Wire.public (first + 10) state.cont).toPointerWire

theorem allocState_public {state : State} (hstate : state.Sized) {s : Circuit}
    (hs : s.publicCount + 1 = s.assignment.size) :
    allocState Circuit.allocPublic state s =
      .ok (publicState s.assignment.size state) (withPublic s state.elements) := by
  simp only [State.Sized, State.pointers, List.mem_cons, List.not_mem_nil, or_false,
    forall_eq_or_imp, forall_eq] at hstate
  obtain ⟨hexpr, henv, hcont⟩ := hstate
  have hmore {s : Circuit} (hs : s.publicCount + 1 = s.assignment.size) (values : List Int) :
      (withPublic s values).publicCount + 1 = (withPublic s values).assignment.size := by
    simp only [withPublic, Array.size_append, List.size_toArray, List.length_map, ← hs]
    omega
  have hsize (s : Circuit) {p : Pointer} (hp : p.digest.length = 4) :
      (withPublic s p.elements).assignment.size = s.assignment.size + 5 := by
    simp [withPublic, Pointer.elements, hp]
  unfold allocState
  rw [bind_of_ok (allocPointer_public hexpr hs), bind_of_ok (allocPointer_public henv (hmore hs _)),
    bind_of_ok (allocPointer_public hcont (hmore (hmore hs _) _)), hsize _ henv, hsize _ hexpr,
    withPublic_withPublic, withPublic_withPublic, ← List.append_assoc]
  rfl

/-- A circuit that has the public variables of a frame only. -/
def publicCircuit (frame : Frame) : Circuit :=
  withPublic (.empty none) (frame.input.elements ++ frame.output.elements)

/-- What a frame is built from: its public variables and its witnesses for slots. -/
def publicStart (frame : Frame) : Synthesis := .start (publicCircuit frame) frame.slots

theorem length_elements {state : State} (h : state.Sized) : state.elements.length = stateSize := by
  simp only [State.Sized, State.pointers, List.mem_cons, List.not_mem_nil, or_false,
    forall_eq_or_imp, forall_eq] at h
  simp [State.elements, Pointer.elements, h, stateSize, pointerSize]

theorem io_eq {frame : Frame} (hinput : frame.input.Sized) (houtput : frame.output.Sized) :
    (Synthesis.within "io" <| Synthesis.onCircuit do
      let input ← allocState Circuit.allocPublic frame.input
      let output ← allocState Circuit.allocPublic frame.output
      pure (input, output)) (.start (.empty none) frame.slots) =
        .ok (publicState 1 frame.input, publicState 16 frame.output) (publicStart frame) := by
  have hcircuit : (do
      let input ← allocState Circuit.allocPublic frame.input
      let output ← allocState Circuit.allocPublic frame.output
      pure (input, output) : CircuitM (StateWire × StateWire)) ((Circuit.empty none).enter "io") =
        .ok (publicState 1 frame.input, publicState 16 frame.output)
          (withPublic ((Circuit.empty none).enter "io")
            (frame.input.elements ++ frame.output.elements)) := by
    have hsize : (withPublic ((Circuit.empty none).enter "io") frame.input.elements).assignment.size
        = 16 := by
      simp [withPublic, Circuit.enter, Circuit.empty, length_elements hinput, stateSize, pointerSize]
    rw [bind_of_ok (allocState_public hinput rfl), bind_of_ok (allocState_public houtput (by
      rw [hsize]
      simp [withPublic, Circuit.enter, Circuit.empty, length_elements hinput, stateSize,
        pointerSize])), withPublic_withPublic, hsize]
    rfl
  unfold Synthesis.within Synthesis.onCircuit
  simp only [Synthesis.start, hcircuit]
  rfl

/-! ## The whole frame -/

theorem onCircuit_bind (x : CircuitM α) (f : α → CircuitM β) :
    Synthesis.onCircuit (x >>= f) = Synthesis.onCircuit x >>= fun a => Synthesis.onCircuit (f a) := by
  funext s
  change Synthesis.onCircuit (EStateM.bind x f) s = EStateM.bind _ _ s
  unfold Synthesis.onCircuit EStateM.bind
  dsimp only
  cases x s.circuit <;> rfl

theorem onCircuit_map (f : α → β) (x : CircuitM α) :
    Synthesis.onCircuit (f <$> x) = f <$> Synthesis.onCircuit x := by
  rw [← bind_pure_comp, onCircuit_bind, ← bind_pure_comp]
  rfl

theorem realizes_middle {state : State} (hstate : state.Sized) (returned : Bool) :
    Realizes (fun p s => realization.step ⟨p.1.expr, p.1.env, p.1.cont, p.2⟩ s)
      (Synthesis.onCircuit do
        let mid ← allocState Circuit.alloc state
        let ret ← Gadget.allocBit returned
        pure (mid, ret)) (BuildM.allocMiddle state returned) := by
  have hpointer {p : Pointer} (hp : p.digest.length = 4) :
      Synthesis.onCircuit (allocPointer Circuit.alloc p) =
        Wire.toPointerWire <$> (BuildM.allocPointer p).run := by
    obtain ⟨tag, digest⟩ := p
    match digest, hp with
    | [d0, d1, d2, d3], _ =>
      simp [allocPointer, BuildM.allocPointer, BuildM.alloc, BuildM.ofCircuit, BuildM.run_bind,
        BuildM.run_map, onCircuit_bind, onCircuit_map, Wire.toPointerWire, Digest.toList]
  simp only [State.Sized, State.pointers, List.mem_cons, List.not_mem_nil, or_false,
    forall_eq_or_imp, forall_eq] at hstate
  obtain ⟨hexpr, henv, hcont⟩ := hstate
  refine (Realizes.map (f := fun s : Step Combination Wire =>
    ((⟨s.expr.toPointerWire, s.env.toPointerWire, s.cont.toPointerWire⟩ : StateWire), s.ret)) ?_).mono
    fun _ s h => ?_
  · simp [allocState, BuildM.allocMiddle, BuildM.ofCircuit, onCircuit_bind, onCircuit_map,
      hpointer hexpr, hpointer henv, hpointer hcont, BuildM.run_bind, BuildM.run_map]
  · subst h
    exact ⟨rfl, rfl, rfl, rfl⟩

/-- What is built of a frame behind its public variables. -/
abbrev rest (config : Config) (frame : Frame) : BuildM Unit :=
  BuildM.frame config frame (.public 1 frame.input.expr) (.public 6 frame.input.env)
    (.public 11 frame.input.cont) (publicState 16 frame.output).elements

/-- Behind its public variables, a frame is built by operations that grow. -/
theorem build_eq {config : Config} {frame : Frame} (h : frame.Sized) :
    build config frame (.start (.empty none) frame.slots) =
      (rest config frame).run (publicStart frame) := by
  have hrest : Realizes Eq (do
      let mid ← Synthesis.within "intermediate" <| Synthesis.onCircuit do
        let mid ← allocState Circuit.alloc frame.intermediate
        let ret ← Gadget.allocBit frame.returned
        pure (mid, ret)
      evalPhase config (publicState 1 frame.input) frame.rule (mid.1.elements ++ [mid.2])
      contPhase ⟨mid.1.expr, mid.1.env, mid.1.cont, mid.2⟩ frame.returnRule
        (publicState 16 frame.output).elements) (rest config frame) := by
    refine .bind ((realizes_middle h.intermediate _).within _) fun p mid hmid => ?_
    obtain ⟨state, ret⟩ := p
    have htarget : state.elements ++ [ret] = mid.wires ++ [mid.ret] := by
      rw [← outcomeState_eq hmid, ← hmid.ret]
      rfl
    dsimp only
    rw [htarget]
    exact .bind (realizes_evalPhase config _ _ _ _ _) fun _ _ _ => realizes_contPhase hmid _ _
  unfold build
  rw [bind_of_ok (io_eq h.input h.output)]
  rcases hrest (publicStart frame) with ⟨_, _, t, hx, hy, rfl⟩ | ⟨fault, t, hx, hy⟩
  · exact hx.trans hy.symm
  · exact hx.trans hy.symm

end FrameCircuit

end FieldLisp
