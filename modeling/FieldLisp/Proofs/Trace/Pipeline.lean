import FieldLisp.Proofs.Circuit.Completeness
import FieldLisp.Proofs.Circuit.Layout
import FieldLisp.Proofs.Machine.Traces
import FieldLisp.Proofs.Trace.Folding

/-!
# From an evaluation to a proof

Whatever evaluates, with whatever budget and however far it is filled up, can be proved:

* `Shown`: a circuit is that of a frame of a step, shows its states and is satisfied;
* `Trace.Carries`: the bundle of frames that lead on from a state;
* `Trace.Carries.folded`, `Trace.Carries.consistent`: such a bundle is folded, and agrees with its
  circuits;
* `Trace.evaluation_certified`: so an evaluation has a proof that is accepted for its own ends and its
  number of steps, and for nothing else.
-/

namespace FieldLisp

open Machine (Taken)
open FrameCircuit (Built synthesize synthesizeAll)
open Except (bind_of_ok)

theorem Except.mapM_eq_ok_of_forall₂ {ε α β : Type} {f : α → Except ε β} {xs : List α} {ys : List β}
    (h : List.Forall₂ (fun x y => f x = .ok y) xs ys) : xs.mapM f = .ok ys := by
  induction h with
  | nil => rfl
  | cons hhead _ ih =>
    rw [List.mapM_cons, bind_of_ok hhead, bind_of_ok ih]
    rfl

variable {config : Config} {state : State} {F G : Frame} {frames : List Frame}

/-! ## Circuits of a trace -/

/-- The circuit is that of the frame. It shows the frame's states, and is satisfied. -/
structure Shown (config : Config) (F : Frame) (circuit : Circuit) : Prop where
  input : F.input.Canonical
  output : F.output.Canonical
  built : ∃ t, Built config F t ∧ t.circuit = circuit
  satisfied : circuit.isSatisfied = true

/-- The frame of a step has a circuit, which is satisfied. -/
theorem exists_shown (h : Taken config F) : ∃ circuit, Shown config F circuit := by
  obtain ⟨store, store', hsound, hheld, hstep⟩ := h
  obtain ⟨P⟩ := Machine.own_passage hstep hsound hheld
  have hinput := hheld.canonical
  have houtput := P.output_held.canonical
  have hintermediate := P.intermediate_held.canonical
  obtain ⟨t, hbuilt⟩ := FrameCircuit.exists_built config
    ⟨hinput.sized, houtput.sized, hintermediate.sized⟩
    (sized_of_records (FrameCircuit.records_of_step hsound hheld hstep))
  have hiff := hbuilt.isSatisfied_iff hsound hheld hstep rfl rfl houtput hintermediate
  exact ⟨t.circuit, hinput, houtput, ⟨t, hbuilt, rfl⟩, hiff.2 ⟨rfl, rfl, rfl, rfl, rfl⟩⟩

namespace Shown
variable {circuit circuit' : Circuit}

theorem synthesize_eq (h : Shown config F circuit) (hlimit : config.maxConstraints = none) :
    synthesize config F = .ok circuit := by
  obtain ⟨t, hbuilt, rfl⟩ := h.built
  exact hbuilt.synthesize_eq hlimit

theorem publicValues_eq (h : Shown config F circuit) :
    circuit.publicValues = F.input.elements ++ F.output.elements := by
  obtain ⟨t, hbuilt, rfl⟩ := h.built
  rw [hbuilt.publicValues_eq]
  apply map_reduce_eq
  intro x hx
  exact (List.mem_append.1 hx).elim (canonical_state_elements h.input x)
    (canonical_state_elements h.output x)

theorem take_publicValues (h : Shown config F circuit) :
    circuit.publicValues.take stateSize = F.input.elements := by
  rw [h.publicValues_eq, List.take_left' (State.length_elements h.input)]

theorem drop_publicValues (h : Shown config F circuit) :
    circuit.publicValues.drop stateSize = F.output.elements := by
  rw [h.publicValues_eq, List.drop_left' (State.length_elements h.input)]

/-- All circuits of a trace have one shape. -/
theorem shapeDigest_eq (h : Shown config F circuit) (h' : Shown config G circuit') :
    circuit.shapeDigest = circuit'.shapeDigest := by
  obtain ⟨s, hs, rfl⟩ := h.built
  obtain ⟨t, ht, rfl⟩ := h'.built
  have hlayout := hs.sameLayout ht rfl
  rw [Circuit.shapeDigest, Circuit.shapeDigest, Circuit.layoutText, Circuit.layoutText,
    hlayout.constraints, hlayout.size, hlayout.publicCount]

end Shown

/-- Every frame of a trace has a circuit. -/
theorem exists_circuits (h : Machine.Leads config state frames) :
    ∃ circuits, List.Forall₂ (Shown config) frames circuits := by
  induction h with
  | nil => exact ⟨[], .nil⟩
  | cons taken _ ih =>
    obtain ⟨circuit, hshown⟩ := exists_shown taken
    obtain ⟨circuits, hcircuits⟩ := ih
    exact ⟨circuit :: circuits, .cons hshown hcircuits⟩

/-- With a configuration that sets no limit, the circuits are synthesized. -/
theorem synthesizeAll_eq {depth : Int} {workers : Option Int} {circuits : List Circuit}
    (hconfig : Config.make depth none workers = .ok config)
    (h : List.Forall₂ (Shown config) frames circuits) :
    synthesizeAll config none frames = .ok circuits := by
  obtain ⟨-, hlimit, -, hworkers, hpositive⟩ := Config.bounds_of_make hconfig
  have hthreads : (config.workers.map Int.ofNat).any (· < 1) = false := by
    rw [hworkers]
    cases workers with
    | none => rfl
    | some n => exact decide_eq_false (not_lt.2 (hpositive n rfl))
  unfold synthesizeAll
  rw [Option.none_or, hthreads]
  apply Except.mapM_eq_ok_of_forall₂
  exact h.imp fun _ _ hshown => hshown.synthesize_eq (Option.map_eq_none_iff.1 hlimit)

/-! ## The bundle of a trace -/

/-- What a step takes where to, as a link of a chain. -/
def Frame.link (F : Frame) : Link :=
  (Receipt.commitmentOf F.input.elements, Receipt.commitmentOf F.output.elements)

namespace Trace

theorem checkFrom_eq_ok (h : Machine.Leads config state frames) (index : ℕ) :
    checkFrom index (some state) frames = .ok () := by
  induction h generalizing index with
  | nil => rfl
  | cons taken _ ih =>
    unfold checkFrom
    rw [Option.all_some, beq_self_eq_true]
    exact ih (index + 1)

theorem finalState_canonical (h : Machine.Leads config state frames) (hstate : state.Canonical) :
    (finalState state frames).Canonical := by
  induction h with
  | nil => exact hstate
  | cons taken _ ih =>
    rw [finalState_cons]
    obtain ⟨circuit, hshown⟩ := exists_shown taken
    exact ih hshown.output

/-- The bundle is made of the circuits of the frames, and commits to the states at both ends. -/
structure Carries (config : Config) (state : State) (frames : List Frame) (bundle : Bundle) : Prop where
  initial : bundle.initial = Receipt.commitmentOf state.elements
  final : bundle.final = Receipt.commitmentOf (finalState state frames).elements
  stepCount : bundle.stepCount = (frames.filter fun F => !F.isIdentity).length
  instances : List.Forall₂
    (fun F step => Shown config F step.circuit ∧ step = instanceOf step.index step.circuit)
    frames bundle.instances

/-- Frames that lead on from a state are bundled without fail. -/
theorem exists_carries {depth : Int} {workers : Option Int}
    (hconfig : Config.make depth none workers = .ok config) (hstate : state.Canonical)
    (h : Machine.Leads config state frames) : ∃ bundle,
      bundleFrom config none state frames = .ok bundle ∧ Carries config state frames bundle := by
  obtain ⟨circuits, hcircuits⟩ := exists_circuits h
  have hfinal := finalState_canonical h hstate
  have hlink := checkFrom_eq_ok h 0
  unfold bundleFrom checkContiguity
  rw [bind_of_ok hlink, bind_of_ok (synthesizeAll_eq hconfig hcircuits),
    bind_of_ok (Commitment.ofState_of_canonical hstate),
    bind_of_ok (Commitment.ofState_of_canonical hfinal)]
  refine ⟨_, rfl, rfl, rfl, rfl, ?_⟩
  obtain ⟨hlength, hshown⟩ := List.forall₂_iff_get.1 hcircuits
  apply List.forall₂_iff_get.2
  constructor
  · simpa using hlength
  · intro i hi hi'
    have hcircuit := hshown i hi (hlength ▸ hi)
    simp only [List.get_eq_getElem, List.getElem_map, List.getElem_zipIdx] at hcircuit ⊢
    exact ⟨hcircuit, rfl⟩

namespace Carries
variable {bundle : Bundle} {proof : ReceiptProof}

theorem input_eq {step : StepInstance} (hshown : Shown config F step.circuit)
    (hstep : step = instanceOf step.index step.circuit) : step.input = F.input.elements := by
  rw [hstep]
  exact hshown.take_publicValues

theorem output_eq {step : StepInstance} (hshown : Shown config F step.circuit)
    (hstep : step = instanceOf step.index step.circuit) : step.output = F.output.elements := by
  rw [hstep]
  exact hshown.drop_publicValues

/-- The instance of a frame is folded into the frame's link. -/
theorem folds {step : StepInstance} {shape : String} (hshape : step.circuit.shapeDigest = shape)
    (hshown : Shown config F step.circuit) (hstep : step = instanceOf step.index step.circuit) :
    Receipt.Folds shape step F.link := by
  constructor
  · exact hshape
  · exact hshown.satisfied
  · rw [input_eq hshown hstep]
    exact Receipt.ofElements_eq_ok.2 ⟨State.length_elements hshown.input, rfl⟩
  · rw [output_eq hshown hstep]
    exact Receipt.ofElements_eq_ok.2 ⟨State.length_elements hshown.output, rfl⟩

theorem follow_links (h : Machine.Leads config state frames) :
    Receipt.follow (Receipt.commitmentOf state.elements) (frames.map Frame.link) =
      some (Receipt.commitmentOf (finalState state frames).elements) := by
  induction h with
  | nil => rfl
  | cons taken _ ih =>
    rw [List.map_cons, finalState_cons]
    exact (if_pos rfl).trans ih

/-- All instances have the shape of the first one. -/
theorem shape_eq (h : Carries config state frames bundle) :
    ∀ step ∈ bundle.instances, step.circuit.shapeDigest = Receipt.shapeOf bundle.instances := by
  have hshown : ∀ step ∈ bundle.instances, ∃ F, Shown config F step.circuit := by
    intro step hstep
    obtain ⟨i, hi, rfl⟩ := List.getElem_of_mem hstep
    obtain ⟨hlength, hat⟩ := List.forall₂_iff_get.1 h.instances
    exact ⟨_, (hat i (hlength ▸ hi) hi).1⟩
  generalize bundle.instances = steps at hshown
  intro step hstep
  cases steps with
  | nil => cases hstep
  | cons first steps =>
    obtain ⟨F, hF⟩ := hshown step hstep
    obtain ⟨G, hG⟩ := hshown first List.mem_cons_self
    exact hF.shapeDigest_eq hG

/-- The shape of a bundle can be read, also that of an empty one. -/
theorem exists_shape (steps : List StepInstance) :
    ∃ bytes, Text.hexBytes? (Receipt.shapeOf steps) = some bytes := by
  cases steps with
  | nil => exact ⟨[], by decide⟩
  | cons step steps => exact Text.hexBytes?_hexDigest step.circuit.layoutText.toUTF8

theorem folds_links (h : Carries config state frames bundle) :
    List.Forall₂ (Receipt.Folds (Receipt.shapeOf bundle.instances)) bundle.instances
      (frames.map Frame.link) := by
  obtain ⟨hlength, hat⟩ := List.forall₂_iff_get.1 h.instances
  rw [List.forall₂_map_right_iff]
  apply List.forall₂_iff_get.2
  constructor
  · exact hlength.symm
  · intro i hi hi'
    obtain ⟨hshown, hstep⟩ := hat i hi' hi
    exact folds (h.shape_eq _ (List.get_mem _ _)) hshown hstep

/-- The bundle of frames that lead on from a state is folded. -/
theorem folded (h : Carries config state frames bundle) (hleads : Machine.Leads config state frames) :
    ∃ proof, Receipt.Folded bundle proof := by
  obtain ⟨bytes, hbytes⟩ := exists_shape bundle.instances
  have hfollows : Receipt.follow bundle.initial (frames.map Frame.link) = some bundle.final := by
    rw [h.initial, h.final]
    exact follow_links hleads
  have hreceipt : Receipt.last (Receipt.shapeOf bundle.instances) bundle.initial
      (frames.map Frame.link) = .ok _ := Receipt.last_eq_ok.2 ⟨bytes, hbytes, rfl⟩
  exact ⟨⟨_, _, _, _, _⟩, rfl, h.folds_links, hfollows, rfl, hreceipt, rfl⟩

/-- Steps that move, followed by frames that rest, are counted as they are bundled. -/
theorem consistent {moving padding : List Frame}
    (h : Carries config state (moving ++ padding) bundle) (hcount : bundle.stepCount = moving.length)
    (hpadding : ∀ F ∈ padding, F.output = F.input) : bundle.Consistent := by
  obtain ⟨hlength, hat⟩ := List.forall₂_iff_get.1 h.instances
  rw [List.length_append] at hlength
  constructor
  · intro step hstep
    obtain ⟨i, hi, rfl⟩ := List.getElem_of_mem hstep
    obtain ⟨-, hinstance⟩ := hat i (by simpa [hlength] using hi) hi
    exact ⟨congrArg (Commitment.ofElements ·.input) hinstance,
      congrArg (Commitment.ofElements ·.output) hinstance⟩
  · omega
  · intro i step hstep hle
    rw [hcount, position_natCast, Nat.cast_le] at hle
    obtain ⟨hi, rfl⟩ := List.getElem?_eq_some_iff.1 hstep
    have hi' : i < (moving ++ padding).length := by simpa [hlength] using hi
    obtain ⟨hshown, hinstance⟩ := hat i hi' hi
    have hrests : ((moving ++ padding).get ⟨i, hi'⟩).output = ((moving ++ padding).get ⟨i, hi'⟩).input := by
      rw [List.get_eq_getElem, List.getElem_append_right hle]
      exact hpadding _ (List.getElem_mem _)
    have hinput := input_eq hshown hinstance
    have houtput := output_eq hshown hinstance
    rw [hrests] at houtput
    exact congrArg Commitment.ofElements (hinput.trans houtput.symm)

end Carries

end Trace

/-! ## Evaluations -/

/-- The bundle commits to the two ends of the evaluation and counts its steps. It is folded into a
proof, which is decided on for whatever ends and count: it is accepted for the bundle's own, and for no
others unless what the receipts start from collides. -/
structure Bundle.Certifies (bundle : Bundle) (E : Evaluation) : Prop where
  initial : Commitment.ofState E.initial = .ok bundle.initial
  final : Commitment.ofState E.final = .ok bundle.final
  stepCount : bundle.stepCount = E.iterations
  folded : ∃ proof, Receipt.fold bundle = .ok proof ∧
    ∀ (initial final : Commitment) (count : Int), ∃ accepted,
      Receipt.verify proof initial final count = .ok accepted ∧
      (initial = bundle.initial ∧ final = bundle.final ∧ count = bundle.stepCount → accepted = true) ∧
      (Set.InjOn Sponge.hash {Receipt.opening proof initial, Receipt.opening proof bundle.initial} →
        accepted = true → initial = bundle.initial ∧ final = bundle.final ∧ count = bundle.stepCount)

namespace Trace

variable {E : Evaluation} {bundle : Bundle}

/-- The bundle of the steps of an evaluation, filled up with frames that rest, certifies it. -/
theorem Carries.certifies {padding : List Frame}
    (h : Carries config E.initial (E.frames ++ padding) bundle)
    (hleads : Machine.Leads config E.initial (E.frames ++ padding)) (hinitial : E.initial.Canonical)
    (hfinal : finalState E.initial (E.frames ++ padding) = E.final)
    (hmoving : ∀ F ∈ E.frames, F.isIdentity = false)
    (hpadding : ∀ F ∈ padding, F.isIdentity = true ∧ F.output = F.input) : bundle.Certifies E := by
  have hcount : bundle.stepCount = E.frames.length := by
    have hsteps : (E.frames.filter fun F => !F.isIdentity) = E.frames := by
      rw [List.filter_eq_self]
      intro F hF
      rw [hmoving F hF, Bool.not_false]
    have hrest : (padding.filter fun F => !F.isIdentity) = [] := by
      rw [List.filter_eq_nil_iff]
      intro F hF
      simp [(hpadding F hF).1]
    rw [h.stepCount, List.filter_append, hsteps, hrest, List.append_nil]
  have hcanonical := finalState_canonical hleads hinitial
  rw [hfinal] at hcanonical
  constructor
  · rw [h.initial]
    exact Commitment.ofState_of_canonical hinitial
  · rw [h.final, hfinal]
    exact Commitment.ofState_of_canonical hcanonical
  · exact hcount
  obtain ⟨proof, hfolded⟩ := h.folded hleads
  have haccepted := hfolded.accepted_iff.2 (h.consistent hcount fun F hF => (hpadding F hF).2)
  refine ⟨proof, Receipt.fold_eq_ok.2 hfolded, fun initial final count => ?_⟩
  obtain ⟨accepted, hverify⟩ := haccepted.decides initial final count
  refine ⟨accepted, hverify, ?_, ?_⟩
  · rintro ⟨rfl, rfl, rfl⟩
    exact Except.ok.inj (hverify.symm.trans (Receipt.verify_eq_true.2 haccepted))
  · rintro hinjective rfl
    exact (Receipt.verify_eq_true.1 hverify).ends_eq haccepted hinjective

variable {depth maxSteps : Int} {workers : Option Int} {cancelled : Bool} {expr : Pointer}
  {env : Option Pointer} {s t : Store}

theorem bundleFrames_eq (h : Machine.Leads config state frames) (hnonempty : frames ≠ []) :
    bundleFrames config workers frames = bundleFrom config workers state frames := by
  cases h with
  | nil => exact absurd rfl hnonempty
  | cons => rfl

/-- An evaluation that ended at rest took a step. -/
theorem getLast?_of_halted (hinitial : E.initial.isHalted = false) (hfinal : E.final.isHalted = true) :
    (E.frames.getLast?.map Frame.output).or none = some E.final := by
  unfold Evaluation.final finalState at hfinal ⊢
  cases hlast : E.frames.getLast? with
  | none =>
    rw [hlast] at hfinal
    exact absurd hfinal (Bool.eq_false_iff.1 hinitial)
  | some F => rfl

/-- An evaluation is bundled, and so is what it is filled up to if it ended at rest. Either bundle
certifies it. -/
theorem evaluation_certified (hconfig : Config.make depth none workers = .ok config)
    (hs : Store.Reachable s) (hexpr : s.Holds expr) (henv : ∀ p ∈ env, s.Holds p)
    (hE : Machine.evaluate config maxSteps cancelled expr env s = .ok E t) :
    (∃ bundle, Trace.bundle config none E = .ok bundle ∧ bundle.Certifies E) ∧
    (E.final.isHalted = true → ∀ length : Int, E.iterations ≤ length → ∀ u, t.Builds u →
      ∃ frames v bundle, Machine.padTrace config E.frames length none u = .ok frames v ∧
        frames.length = length ∧ Trace.bundleFrames config none frames = .ok bundle ∧
        bundle.Certifies E) := by
  obtain ⟨hinitial, hleads, hmoving, hsound, hheld⟩ := Machine.leads_evaluate
    (Store.reachable_sound hs) hexpr.canonical (fun p hp => (henv p hp).canonical) hE
  have hstart : E.initial.Canonical := by
    rw [hinitial]
    exact (Machine.held_initial hexpr (Machine.holds_env henv)).canonical
  constructor
  · obtain ⟨bundle, hbundle, hcarries⟩ := exists_carries hconfig hstart hleads
    refine ⟨bundle, hbundle, ?_⟩
    rw [← List.append_nil E.frames] at hleads hcarries
    refine hcarries.certifies hleads hstart ?_ hmoving (List.forall_mem_nil _)
    rw [List.append_nil]
    rfl
  · intro hhalted length hlength u hbuilds
    have hbuilt := Machine.builds_evaluate config maxSteps cancelled hs hexpr.canonical
      fun p hp => (henv p hp).canonical
    rw [(Store.eq_ok_iff.1 hE).2] at hbuilt
    have hu := Store.reachable_sound (hbuilds.reachable (hbuilt.reachable hs))
    have hheld' : E.final.Held u := fun p hp => hbuilds.retains.extends_.holds (hheld p hp)
    have hmoves : E.initial.isHalted = false := by
      rw [hinitial]
      rfl
    have hlast := getLast?_of_halted hmoves hhalted
    obtain ⟨padding, v, hpad, hlength', hrest, hidentity, hend⟩ :=
      Machine.leads_padTrace hu hheld' hhalted hlast hlength
    have hall : Machine.Leads config E.initial (E.frames ++ padding) := hleads.append hrest
    obtain ⟨bundle, hbundle, hcarries⟩ := exists_carries hconfig hstart hall
    have hnonempty : E.frames ++ padding ≠ [] := by
      intro h
      rw [(List.append_eq_nil_iff.1 h).1] at hlast
      cases hlast
    refine ⟨_, v, bundle, hpad, hlength', (bundleFrames_eq hall hnonempty).trans hbundle, ?_⟩
    apply hcarries.certifies hall hstart
    · rw [finalState_append]
      exact hend
    · exact hmoving
    · intro F hF
      exact ⟨hidentity F hF, (hrest.taken F hF).output_eq (hidentity F hF)⟩

/-- The number five, evaluated in one step and filled up to three. -/
theorem evaluation_certified_number : ∃ E,
    Machine.evaluate .standard 1 false (.number 5) none (.empty false) = .ok E (.empty false) ∧
    (∃ bundle, Trace.bundle .standard none E = .ok bundle ∧ bundle.Certifies E) ∧
    ∃ frames v bundle, Machine.padTrace .standard E.frames 3 none (.empty false) = .ok frames v ∧
      (frames.length : Int) = 3 ∧ Trace.bundleFrames .standard none frames = .ok bundle ∧
      bundle.Certifies E := by
  have hnumber : (Store.empty false).Holds (.number 5) :=
    Store.holds_immediate _ (Pointer.immediate_canonical .number 5) rfl
  have hnone : ∀ p ∈ (none : Option Pointer), (Store.empty false).Holds p := by
    intro p hp
    cases hp
  have hconfig : Config.make 4 none none = .ok .standard := rfl
  obtain ⟨F, houtput, hE⟩ := Machine.evaluate_number_completed .standard (by decide : (0 : Int) < 1)
    (Store.empty_sound false) 5
  have hlength : ((1 : ℕ) : Int) ≤ 3 := by decide
  obtain ⟨hbundle, hpadded⟩ := evaluation_certified hconfig (.empty false) hnumber hnone hE
  exact ⟨_, hE, hbundle, hpadded (congrArg State.isHalted houtput) 3 hlength _ .refl⟩

end Trace

end FieldLisp
