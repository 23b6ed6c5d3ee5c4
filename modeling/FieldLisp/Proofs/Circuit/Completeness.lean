import FieldLisp.Proofs.Machine.Arithmetic
import FieldLisp.Proofs.Circuit.BuiltFrame

/-!
# Frames of the machine and their circuits

A frame that takes the slots of a step satisfies its circuit if and only if it is the frame of that
step: no rule that did not apply stands in the way, and nothing else is bound to another value.

* `exists_fill`: slots that no rule of the step used hold something nonetheless;
* `FrameCircuit.slots_content`: what a step records in its slots is content of the store that it leaves;
* `FrameCircuit.Built.isSatisfied_iff`: exactly the step's own frame satisfies its circuit;
* `FrameCircuit.synthesize_isSatisfied_iff`: the same for the circuit that is synthesized.
-/

namespace FieldLisp

open FieldLisp.Field (Element)

theorem canonical_state_elements {s : State} (h : s.Canonical) : ∀ x ∈ s.elements, Field.Canonical x := by
  intro x hx
  simp only [State.elements, List.mem_append] at hx
  rcases hx with (hx | hx) | hx
  · exact canonical_elements h.1 x hx
  · exact canonical_elements h.2.1 x hx
  · exact canonical_elements h.2.2 x hx

/-- Canonical states are told apart by the classes of their elements. -/
theorem State.eq_of_classes {s s' : State} (h : s.Canonical) (h' : s'.Canonical)
    (heq : classes s.elements = classes s'.elements) : s = s' := by
  have helements := classes_inj (canonical_state_elements h) (canonical_state_elements h') heq
  obtain ⟨expr, env, cont⟩ := s
  obtain ⟨expr', env', cont'⟩ := s'
  simp only [State.elements, List.append_assoc] at helements
  obtain ⟨hexpr, helements⟩ := List.append_inj helements (h.1.1.trans h'.1.1.symm)
  obtain ⟨henv, hcont⟩ := List.append_inj helements (h.2.1.1.trans h'.2.1.1.symm)
  rw [Pointer.elements_injective hexpr, Pointer.elements_injective henv,
    Pointer.elements_injective hcont]

theorem map_reduce_eq {xs : List Int} (h : ∀ x ∈ xs, Field.Canonical x) : xs.map Field.reduce = xs :=
  (List.map_congr_left fun x hx => Field.reduce_eq_self (h x hx)).trans (List.map_id xs)

theorem bit_injective {a b : Bool} (h : Workspace.bit a = Workspace.bit b) : a = b := by
  cases a <;> cases b <;> first | rfl | exact absurd h (by decide)

/-! ## The honest setting -/

/-- All slots hold nodes whose children are known, or nothing. -/
theorem exists_fill {store : Store} {slots : SlotTable}
    (hrecords : ∀ {key preimage}, slots.get? key = some preimage → Workspace.Records store key preimage) :
    ∃ fill : SlotKey → List Pointer, (∀ key, ∀ p ∈ fill key, p.Canonical) ∧ ∀ key : SlotKey,
      0 ≤ key.arity → ((fill key).length : Int) = key.arity ∧
        Decodes (Synthesis.content slots key) (fill key) := by
  have hslot (key : SlotKey) : ∃ children : List Pointer, (∀ p ∈ children, p.Canonical) ∧
      (0 ≤ key.arity → (children.length : Int) = key.arity ∧
        Decodes (Synthesis.content slots key) children) := by
    cases hget : slots.get? key with
    | none =>
      refine ⟨List.replicate key.arity.toNat .nil, fun p hp => ?_, fun harity => ⟨?_, ?_⟩⟩
      · rw [(List.mem_replicate.1 hp).2]
        exact Pointer.immediate_canonical .nil 0
      · simp [harity]
      · exact decodes_empty harity hget
    | some preimage =>
      obtain ⟨tag, cs, rfl, hlength, hcs, -⟩ := hrecords hget
      refine ⟨cs, hcs, fun _ => ⟨hlength, tag.value, ?_⟩⟩
      rw [Synthesis.content, hget]
      rfl
  choose fill hcanonical hfill using hslot
  exact ⟨fill, hcanonical, hfill⟩

theorem sized_of_records {store : Store} {slots : SlotTable}
    (hrecords : ∀ {key preimage}, slots.get? key = some preimage → Workspace.Records store key preimage) :
    Synthesis.Sized slots := by
  intro key preimage hget
  obtain ⟨tag, cs, rfl, hlength, hcs, -⟩ := hrecords hget
  rw [length_nodePreimage tag hcs, ← hlength, preimageSize]
  push_cast
  ring

namespace FrameCircuit

section
variable {config : Config} {store store' : Store} {S : State} {F G : Frame}

/-- What a step records in its slots are nodes. -/
theorem records_of_step (hsound : store.Sound) (hheld : S.Held store)
    (hstep : Machine.step config S store = .ok F store') {key : SlotKey} {preimage : List Int}
    (hget : F.slots.get? key = some preimage) : Workspace.Records store' key preimage := by
  obtain ⟨P⟩ := Machine.own_passage hstep hsound hheld
  exact P.records hget

/-- What a step records in its slots is content of the store that it leaves. -/
theorem slots_content (hstore : Store.Reachable store) (hheld : S.Held store)
    (hstep : Machine.step config S store = .ok F store') {key : SlotKey} {preimage : List Int}
    (hget : F.slots.get? key = some preimage) : preimage ∈ store'.content := by
  obtain ⟨tag, cs, rfl, -, -, hremembers⟩ := records_of_step (Store.reachable_sound hstore) hheld hstep hget
  obtain ⟨hreachable, -⟩ := Machine.reachable_step hstore hheld hstep
  rcases hremembers with hnode | ⟨p, hinterned⟩
  · exact Store.mem_content_of_node hreachable hnode
  · exact Store.mem_content_of_interned hinterned

/-- Among the frames with the slots of a step, exactly the step's own frame satisfies its circuit. -/
theorem Built.isSatisfied_iff {t : Synthesis} (hbuilt : Built config G t) (hsound : store.Sound)
    (hheld : S.Held store) (hstep : Machine.step config S store = .ok F store')
    (hinput : G.input = F.input) (hslots : G.slots = F.slots) (houtput : G.output.Canonical)
    (hintermediate : G.intermediate.Canonical) :
    t.circuit.isSatisfied = true ↔ G.output = F.output ∧ G.intermediate = F.intermediate ∧
      G.rule = F.rule ∧ G.returnRule = F.returnRule ∧ G.returned = F.returned := by
  have hone := hbuilt.assignment_one
  obtain ⟨ω, hω⟩ : ∃ ω, ω = Valuation.ofAssignment t.circuit.assignment := ⟨_, rfl⟩
  have hfits : t.circuit.Fits ω := hω ▸ Circuit.fits_ofAssignment hone
  obtain ⟨rfl, -⟩ := Machine.phases_of_step hstep
  obtain ⟨fill, hfillCanonical, hfill⟩ := exists_fill (records_of_step hsound hheld hstep)
  have hidle : (Setting.own.idle fill).Proper := ⟨fun key h => (hfill key h).1, fun _ => rfl, nofun⟩
  obtain ⟨P⟩ := Machine.passage hstep hsound hheld (fun _ => rfl) hidle nofun nofun
  have hjudges : Setting.own.Judges ω ω fun _ => True :=
    ⟨fun _ => rfl, fun _ => rfl, nofun, fun hp => by
      rw [(List.mem_replicate.1 hp).2]
      exact Pointer.immediate_canonical .nil 0, nofun⟩
  have hjudges' : (Setting.own.idle fill).Judges ω ω fun _ => True :=
    ⟨fun _ => rfl, fun _ => rfl, nofun, fun hp => hfillCanonical _ _ hp, nofun⟩
  have hinputs := hbuilt.bears_input hfits
  have houtputs := hbuilt.bears_output hfits
  obtain ⟨hkeep, hpost⟩ := hbuilt.judged (Setting.selected_computes _ _ _) hjudges hjudges' P
    ⟨hsound, nofun, fun _ => rfl⟩ (fun _ => ⟨hslots, fun {key} harity => (hfill key harity).2⟩)
    hheld.canonical ⟨hfits, nofun, nofun⟩ (hinput ▸ hinputs.worth_eq)
  have hmid := P.intermediate_held.canonical
  have hout := P.output_held.canonical
  rw [Circuit.isSatisfied_iff_satisfied hbuilt.labelled hone, ← hω]
  constructor
  · intro hsat
    obtain ⟨hworth, hrest⟩ := hpost hsat
    obtain ⟨hrule, hreturnRule, hmiddle⟩ := hrest rfl
    rw [houtputs.worth_eq] at hworth
    rw [classes_append, classes_append] at hmiddle
    obtain ⟨hstate, hreturned⟩ := List.append_inj' hmiddle rfl
    refine ⟨State.eq_of_classes houtput hout hworth, State.eq_of_classes hintermediate hmid hstate,
      hrule, hreturnRule, ?_⟩
    have hcanonical (b : Bool) : ∀ x ∈ [Workspace.bit b], Field.Canonical x :=
      List.forall_mem_singleton.2 (Workspace.sameElement_bit true b).canonical
    have hbit := classes_inj (hcanonical G.returned) (hcanonical F.returned) hreturned
    exact bit_injective (List.singleton_inj.1 hbit)
  · rintro ⟨hout', hmid', hrule, hreturnRule, hreturned⟩
    exact hkeep ⟨rfl, hrule, hreturnRule, hmid', hreturned, hout' ▸ houtputs.worth_eq⟩

/-- The circuit of a frame with the slots of a step has the frame's two states as its public values,
and it is satisfied exactly if the frame is that of the step. -/
theorem synthesize_isSatisfied_iff (hlimit : config.maxConstraints = none)
    (hstore : Store.Reachable store) (hcanonical : S.Canonical) (hwithin : S.within store = true)
    (hstep : Machine.step config S store = .ok F store') (hinput : G.input = F.input)
    (hslots : G.slots = F.slots) (houtput : G.output.Canonical)
    (hintermediate : G.intermediate.Canonical) :
    ∃ circuit, synthesize config G = .ok circuit ∧
      circuit.publicValues = G.input.elements ++ G.output.elements ∧
      (circuit.isSatisfied = true ↔ G.output = F.output ∧ G.intermediate = F.intermediate ∧
        G.rule = F.rule ∧ G.returnRule = F.returnRule ∧ G.returned = F.returned) := by
  have hsound := Store.reachable_sound hstore
  have hheld := State.held_of_within hcanonical hwithin
  obtain ⟨hstart, -⟩ := Machine.phases_of_step hstep
  have hinput' : G.input.Canonical := by rwa [hinput, hstart]
  have hsized : G.Sized := ⟨hinput'.sized, houtput.sized, hintermediate.sized⟩
  have hwitness : Synthesis.Sized G.slots := by
    rw [hslots]
    exact fun hget => sized_of_records (records_of_step hsound hheld hstep) hget
  obtain ⟨t, hbuilt⟩ := exists_built config hsized hwitness
  refine ⟨t.circuit, hbuilt.synthesize_eq hlimit, ?_,
    hbuilt.isSatisfied_iff hsound hheld hstep hinput hslots houtput hintermediate⟩
  rw [hbuilt.publicValues_eq]
  refine map_reduce_eq fun x hx => ?_
  exact (List.mem_append.1 hx).elim (canonical_state_elements hinput' x)
    (canonical_state_elements houtput x)

/-- The first frame of `(+ 1 2)`, which fills its slots, satisfies its circuit. With its own input for an output it
does not. -/
theorem synthesize_isSatisfied_iff_sum : ∃ s F t circuit forged,
    read "(+ 1 2)" (.empty false) = .ok Addition.expression s ∧
      Machine.step .standard (.initial Addition.expression .nil) s = .ok F t ∧
      F.slots.get? ⟨.eval, 2, 0⟩ = some (nodePreimage .cons [Addition.plus, Addition.operands]) ∧
      synthesize .standard F = .ok circuit ∧ circuit.publicValues = F.input.elements ++ F.output.elements ∧
      circuit.isSatisfied = true ∧
      synthesize .standard { F with output := F.input } = .ok forged ∧ forged.isSatisfied = false := by
  obtain ⟨s, hread, h⟩ := Addition.reads false
  obtain ⟨F, t, hfirst⟩ := Addition.exists_firstFrame .standard h
  have hreachable := h.bounded.reachable
  obtain ⟨P⟩ := Machine.own_passage hfirst.step (Store.reachable_sound hreachable) h.held
  have hforged : F.input.Canonical := hfirst.input ▸ h.held.canonical
  obtain ⟨circuit, hcircuit, hpublic, hiff⟩ := synthesize_isSatisfied_iff rfl hreachable h.held.canonical
    h.held.within hfirst.step rfl rfl P.output_held.canonical P.intermediate_held.canonical
  obtain ⟨forged, hcircuit', -, hiff'⟩ := @synthesize_isSatisfied_iff .standard s t _ F { F with output := F.input }
    rfl hreachable h.held.canonical h.held.within hfirst.step rfl rfl hforged P.intermediate_held.canonical
  refine ⟨s, F, t, circuit, forged, hread, hfirst.step, hfirst.slot, hcircuit, hpublic,
    hiff.2 ⟨rfl, rfl, rfl, rfl, rfl⟩, hcircuit', Bool.eq_false_iff.2 fun hsatisfied => ?_⟩
  -- The output is a number.
  have hsame : F.input = F.output := (hiff'.1 hsatisfied).1
  rw [hfirst.input, hfirst.output] at hsame
  cases congrArg (fun st : State => st.expr.tag) hsame

end

end FrameCircuit

end FieldLisp
