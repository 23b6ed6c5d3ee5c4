import FieldLisp.Proofs.Circuit.FrameTracking

/-!
# Circuits of frames

What holds of the circuit of any frame, and of the valuations that satisfy it:

* `FrameCircuit.Built`: the synthesis that a frame leads to;
* `FrameCircuit.Built.publicValues_eq`: its public values are the two states of the frame;
* `FrameCircuit.Built.judged`: a valuation that satisfies it, against a step that runs through in the
  marked model.
-/

namespace FieldLisp

open FieldLisp.Field (Element)

/-! ## Satisfaction -/

namespace Circuit

/-- A circuit whose assignment is another one. -/
def withAssignment (s : Circuit) (assignment : Array Int) : Circuit := { s with assignment }

theorem isSatisfied_iff {s : Circuit} (h : s.labels.size = s.constraints.size) :
    s.isSatisfied = true ↔ ∀ k ∈ s.constraints.toList, holds s.assignment k = true := by
  have hentries : (s.constraints.toList.zip s.labels.toList).map Prod.fst = s.constraints.toList :=
    List.map_fst_zip (by simp [h])
  simp only [isSatisfied, unsatisfied, List.isEmpty_iff, List.map_eq_nil_iff, List.filter_eq_nil_iff]
  constructor
  · intro hall k hk
    rw [← hentries] at hk
    obtain ⟨entry, hentry, rfl⟩ := List.mem_map.1 hk
    obtain ⟨i, hi, rfl⟩ := List.getElem_of_mem hentry
    have := hall (_, i) (List.mk_mem_zipIdx_iff_getElem?.2 (List.getElem?_eq_getElem hi))
    simpa using this
  · rintro hall ⟨entry, i⟩ hentry
    have hmem := List.mem_of_getElem? (List.mk_mem_zipIdx_iff_getElem?.1 hentry)
    simpa using hall entry.1 (hentries ▸ List.mem_map_of_mem hmem)

/-- An assignment satisfies a circuit if the valuation that it gives does. -/
theorem isSatisfied_iff_satisfied {s : Circuit} (h : s.labels.size = s.constraints.size)
    (hone : s.assignment.getD Combination.one 0 = 1) :
    s.isSatisfied = true ↔ s.Satisfied (.ofAssignment s.assignment) := by
  rw [isSatisfied_iff h]
  exact forall₂_congr fun k _ => holds_iff hone k

/-- The valuation that a circuit's own assignment gives. -/
theorem fits_ofAssignment {s : Circuit} (hone : s.assignment.getD Combination.one 0 = 1) :
    s.Fits (.ofAssignment s.assignment) := by
  intro i v hi
  have hv : s.assignment.getD i 0 = v := by
    rw [Array.getD_eq_getD_getElem?, ← Array.getElem?_toList, hi]
    rfl
  change (if i = Combination.one then 1 else ((s.assignment.getD i 0 : Int) : Element)) = v
  split
  · rename_i h
    rw [← hv, h, hone, Int.cast_one]
  · rw [hv]

end Circuit

/-! ## Public variables -/

theorem bears_publicState {ω₀ : Valuation} {first : ℕ} {state : State} (hstate : state.Sized)
    (h : ∀ (i : ℕ) (v : Int), state.elements[i]? = some v → ω₀.value (first + i) = v) :
    Bears ω₀ (FrameCircuit.publicState first state).elements state.elements := by
  have hpointer {start : ℕ} {p : Pointer} (hp : p.digest.length = 4)
      (hvalue : ∀ (i : ℕ) (v : Int), p.elements[i]? = some v → ω₀.value (start + i) = v) :
      Bears ω₀ (Wire.public start p).elements p.elements := by
    have hvariable (i : ℕ) (v : Int) (hi : p.elements[i]? = some v) :
        (Combination.ofVariable (start + i) (Field.reduce v)).Faithful ω₀ :=
      .ofVariable (Field.reduce_canonical v) ((hvalue i v hi).trans (Field.cast_reduce v).symm)
    obtain ⟨tag, digest⟩ := p
    match digest, hp with
    | [d0, d1, d2, d3], _ =>
      exact .cons (hvariable 0 _ rfl) rfl <| .cons (hvariable 1 _ rfl) rfl <|
        .cons (hvariable 2 _ rfl) rfl <| .cons (hvariable 3 _ rfl) rfl <|
        .cons (hvariable 4 _ rfl) rfl .nil
  simp only [State.Sized, State.pointers, List.mem_cons, List.not_mem_nil, or_false,
    forall_eq_or_imp, forall_eq] at hstate
  obtain ⟨hexpr, henv, hcont⟩ := hstate
  have hsize {p : Pointer} (hp : p.digest.length = 4) : p.elements.length = 5 := by
    simp [Pointer.elements, hp]
  have hfirst := hsize hexpr
  have hsecond := hsize henv
  refine ((hpointer hexpr fun i v hi => h i v ?_).append (hpointer henv fun i v hi => ?_)).append
    (hpointer hcont fun i v hi => ?_)
  · rw [State.elements, List.append_assoc, List.getElem?_append_left, hi]
    exact (List.getElem?_eq_some_iff.1 hi).1
  · rw [Nat.add_assoc]
    refine h (5 + i) v ?_
    rw [State.elements, List.append_assoc, List.getElem?_append_right (by omega), hfirst,
      Nat.add_sub_cancel_left, List.getElem?_append_left, hi]
    exact (List.getElem?_eq_some_iff.1 hi).1
  · rw [Nat.add_assoc]
    refine h (10 + i) v ?_
    rw [State.elements, List.append_assoc, List.getElem?_append_right (by omega),
      List.getElem?_append_right (by omega), hfirst, hsecond, ← hi]
    congr 1
    omega

/-- The public variables of a state are worth what stands in their places. -/
theorem worth_publicState (ω : Valuation) (first : ℕ) (state : State) :
    worth ω (FrameCircuit.publicState first state).elements =
      (List.range stateSize).map fun i => ω.value (first + i) := by
  change worth ω ((Wire.public first state.expr).elements ++ (Wire.public (first + 5) state.env).elements
    ++ (Wire.public (first + 10) state.cont).elements) = _
  simp [worth, Wire.public, Wire.elements, Digest.toList, stateSize, pointerSize, List.range_succ,
    Nat.add_assoc]

namespace FrameCircuit

/-- The synthesis that a frame leads to, where circuits have no limit. -/
structure Built (config : Config) (frame : Frame) (t : Synthesis) : Prop where
  sized : frame.Sized
  build : build config frame (.start (.empty none) frame.slots) = .ok () t

theorem synthesize_eq_ok {config : Config} (hlimit : config.maxConstraints = none) {frame : Frame}
    {circuit : Circuit} : synthesize config frame = .ok circuit ↔
      ∃ t, FrameCircuit.build config frame (.start (.empty none) frame.slots) = .ok () t ∧
        t.circuit = circuit := by
  unfold synthesize
  rw [hlimit]
  simp only [Option.map_none]
  cases FrameCircuit.build config frame (.start (.empty none) frame.slots) <;> simp

/-- A frame whose witnesses for slots have the right sizes is built. -/
theorem exists_built (config : Config) {frame : Frame} (h : frame.Sized)
    (hslots : Synthesis.Sized frame.slots) : ∃ t, Built config frame t := by
  obtain ⟨_, t, ht⟩ := (rest config frame).grows.succeeds (s := publicStart frame) rfl hslots
  exact ⟨t, h, (build_eq h).trans ht⟩

namespace Built
variable {config : Config} {frame : Frame} {t : Synthesis} (h : Built config frame t)
include h

theorem synthesize_eq (hlimit : config.maxConstraints = none) :
    synthesize config frame = .ok t.circuit :=
  (FrameCircuit.synthesize_eq_ok hlimit).2 ⟨t, h.build, rfl⟩

theorem rest_run : (rest config frame).run (publicStart frame) = .ok () t :=
  (build_eq h.sized).symm.trans h.build

theorem extends_ : (publicStart frame).Extends t := (rest config frame).grows.extends_ rfl h.rest_run

theorem preimages_eq : t.preimages = frame.slots := h.extends_.preimages

theorem labelled : t.circuit.labels.size = t.circuit.constraints.size :=
  h.extends_.circuit.labelled rfl

theorem canonical : ∀ x ∈ t.circuit.assignment, Field.Canonical x := by
  refine h.extends_.circuit.canonical fun x hx => ?_
  simp only [publicStart, Synthesis.start, publicCircuit, withPublic, Circuit.empty,
    Array.mem_append, List.mem_toArray, List.mem_map] at hx
  rcases hx with hx | ⟨v, -, rfl⟩
  · obtain rfl : x = 1 := by simpa using hx
    decide
  · exact Field.reduce_canonical v

theorem publicCount_eq : t.circuit.publicCount = 2 * stateSize := by
  rw [h.extends_.circuit.publicCount]
  simp [publicStart, Synthesis.start, publicCircuit, withPublic, Circuit.empty,
    length_elements h.sized.input, length_elements h.sized.output, stateSize, pointerSize]

/-- The first variables are the constant one and the two states of the frame. -/
theorem assignment_prefix : 1 :: (frame.input.elements ++ frame.output.elements).map Field.reduce <+:
    t.circuit.assignment.toList := by
  have := h.extends_.circuit.assignment
  simpa [publicStart, Synthesis.start, publicCircuit, withPublic, Circuit.empty] using this

theorem size_le : 1 + stateSize + stateSize ≤ t.circuit.assignment.size := by
  have := h.assignment_prefix.length_le
  rw [List.length_cons, List.length_map, List.length_append, length_elements h.sized.input,
    length_elements h.sized.output, Array.length_toList] at this
  omega

theorem assignment_one : t.circuit.assignment.getD Combination.one 0 = 1 := by
  obtain ⟨rest, hrest⟩ := h.assignment_prefix
  rw [Array.getD_eq_getD_getElem?, ← Array.getElem?_toList, ← hrest]
  rfl

theorem publicValues_eq : t.circuit.publicValues =
    (frame.input.elements ++ frame.output.elements).map Field.reduce := by
  obtain ⟨rest, hrest⟩ := h.assignment_prefix
  have hlength : ((frame.input.elements ++ frame.output.elements).map Field.reduce).length =
      2 * stateSize := by
    simp [length_elements h.sized.input, length_elements h.sized.output, stateSize, pointerSize]
  rw [Circuit.publicValues, h.publicCount_eq, ← hrest, List.cons_append, List.drop_one, List.tail_cons,
    List.take_left' hlength]

variable {ω₀ ω : Valuation}

theorem value_public (hfits : t.circuit.Fits ω₀) {i : ℕ} {v : Int}
    (hi : (frame.input.elements ++ frame.output.elements)[i]? = some v) : ω₀.value (1 + i) = v := by
  obtain ⟨rest, hrest⟩ := h.assignment_prefix
  rw [← Field.cast_reduce v]
  refine hfits _ _ ?_
  rw [← hrest, Nat.add_comm, List.cons_append, List.getElem?_cons_succ, List.getElem?_append_left,
    List.getElem?_map, hi, Option.map_some]
  simpa using (List.getElem?_eq_some_iff.1 hi).1

theorem bears_input (hfits : t.circuit.Fits ω₀) :
    Bears ω₀ (publicState 1 frame.input).elements frame.input.elements :=
  bears_publicState h.sized.input fun i v hi => h.value_public hfits (by
    rw [List.getElem?_append_left (List.getElem?_eq_some_iff.1 hi).1, hi])

theorem bears_output (hfits : t.circuit.Fits ω₀) :
    Bears ω₀ (publicState 16 frame.output).elements frame.output.elements :=
  bears_publicState h.sized.output fun i v hi => by
    have hlength : frame.input.elements.length = 15 := length_elements h.sized.input
    have := h.value_public hfits (i := 15 + i) (v := v) (by
      rw [List.getElem?_append_right (by omega), hlength, Nat.add_sub_cancel_left, hi])
    rwa [← Nat.add_assoc] at this

/-- In a circuit that is satisfied and starts from the state of a step, the second state is worth what
the step leads to. The step's own frame satisfies the circuit. -/
theorem judged {c : Setting} {fill : SlotKey → List Pointer} {known : List Int → Prop}
    (hcomputes : c.Computes) (hjudges : c.Judges ω₀ ω known) (hjudges' : (c.idle fill).Judges ω₀ ω known)
    {store store' : Store} {F : Frame} (P : Passage c fill config store F store')
    (hready : Ready c known (MarkWorld.ofStore store))
    (hsettled : c.honest = true → frame.slots = F.slots ∧ Supposes (c.idle fill) F.slots)
    (hcanonical : F.input.Canonical) (hfinal : Final c ω₀ ω known t)
    (hworth : worth ω (publicState 1 frame.input).elements = classes F.input.elements) :
    (c.honest = true ∧ frame.rule = F.rule ∧ frame.returnRule = F.returnRule ∧
        frame.intermediate = F.intermediate ∧ frame.returned = F.returned ∧
        worth ω (publicState 16 frame.output).elements = classes F.output.elements →
      t.circuit.Satisfied ω) ∧
    (t.circuit.Satisfied ω →
      worth ω (publicState 16 frame.output).elements = classes F.output.elements ∧
      (ω = ω₀ → frame.rule = F.rule ∧ frame.returnRule = F.returnRule ∧
        classes (frame.intermediate.elements ++ [Workspace.bit frame.returned]) =
          classes (F.intermediate.elements ++ [Workspace.bit F.returned]))) := by
  have hfaithful := (h.bears_input hfinal.fits).faithful
  obtain ⟨hexpr, henv, hcont⟩ := wireTracks_state hfaithful hcanonical hworth
  have hlawful : Lawful ω₀ ω (publicStart frame) := ⟨rfl, nofun, nofun⟩
  have houtput : (publicState 16 frame.output).elements.length = stateSize := rfl
  obtain ⟨hkeep, hpost⟩ := leads_frame hcomputes hjudges hjudges' P hready
    hsettled h.sized.intermediate hexpr henv hcont houtput (publicStart frame) () t hlawful ⟨rfl, rfl⟩
    h.rest_run hfinal h.preimages_eq
  refine ⟨fun honest => hkeep honest ?_, fun hsat => (hpost hsat).1⟩
  intro k hk
  simp [publicStart, Synthesis.start, publicCircuit, withPublic, Circuit.empty] at hk

end Built

end FrameCircuit

end FieldLisp
