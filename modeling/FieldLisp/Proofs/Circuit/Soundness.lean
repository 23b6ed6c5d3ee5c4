import FieldLisp.Proofs.Circuit.Completeness
import FieldLisp.Proofs.Circuit.Layout

/-!
# What satisfied circuits say

Whoever satisfies a frame's circuit has taken the step that the machine takes from the first state,
unless two preimages have one digest. Where a lambda has no parameters, the slot that would hold them
is free and can give it some; where an operator looks at signs, the bits that it looks at can be
those of another number.

* `FrameCircuit.content_of_inPlay`: what the circuit of a step has in its slots is known after the step;
* `FrameCircuit.Built.outcome`: the second state of a satisfying valuation is the outcome of the step;
* `FrameCircuit.synthesize_sound`: so it is for any assignment, those two cases apart;
* `FrameCircuit.synthesize_rejects`: so it is for what a frame fills in, the first case apart.
-/

namespace FieldLisp

open FieldLisp.Field (Element)

/-- A list of elements is the preimage of a node in the store. -/
def Store.IsPreimage (store : Store) (xs : List Int) : Prop :=
  ∃ (p : Pointer) (cs : List Pointer), store.nodes[p]? = some cs ∧ xs = nodePreimage p.tag cs

/-- Preimages that the slots of a frame and a store hold between them. -/
def Frame.InPlay (frame : Frame) (store : Store) (xs : List Int) : Prop :=
  (∃ key, frame.slots.get? key = some xs) ∨ store.IsPreimage xs

/-- The slot for a lambda's parameters has a pair for the parameters that follow the first. -/
def Frame.ClaimsParameters (frame : Frame) : Prop :=
  ∃ preimage tag, frame.slots.get? ⟨.eval, 2, 4⟩ = some preimage ∧ preimage[6]? = some tag ∧
    Field.reduce tag = Tag.cons.value

/-- The sponge sees of its elements only their classes. -/
theorem Sponge.hash_map_reduce (xs : List Int) : Sponge.hash (xs.map Field.reduce) = Sponge.hash xs := by
  have hfold (count : ℕ) (capacity : Digest Int) (xs : List Int) :
      (blocks Sponge.rate count (xs.map Field.reduce)).foldl Sponge.absorb capacity =
        (blocks Sponge.rate count xs).foldl Sponge.absorb capacity := by
    induction count generalizing capacity xs with
    | zero => rfl
    | succ count ih =>
      have habsorb (block : List Int) :
          Sponge.absorb capacity (block.map Field.reduce) = Sponge.absorb capacity block := by
        simp [Sponge.absorb, Function.comp_def]
      simp only [blocks, List.foldl_cons, ← List.map_take, ← List.map_drop, habsorb, ih]
  rw [Sponge.hash, Sponge.hash, List.length_map, hfold]

/-- What a combination is worth under an assignment is computed from its terms. -/
theorem Combination.reading_eq {w : Array Int} (hone : w.getD Combination.one 0 = 1) (x : Combination) :
    Field.representative (x.under (.ofAssignment w)) = Combination.evalTerms w x.terms := by
  rw [Combination.under, ← Combination.cast_evalTerms_ofAssignment hone, Field.representative_cast]
  exact Field.reduce_eq_self (Field.reduce_canonical _)

/-- Variables in a row are worth what the assignment holds in their places. -/
theorem Valuation.public_ofAssignment {w : Array Int} {first count : ℕ} (hfirst : 0 < first)
    (hsize : first + count ≤ w.size) :
    (List.range count).map (fun i => (Valuation.ofAssignment w).value (first + i)) =
      classes ((w.toList.drop first).take count) := by
  refine List.ext_getElem (by simp [classes]; omega) fun i h₁ h₂ => ?_
  have hi : i < count := by simpa using h₁
  have hne : first + i ≠ Combination.one := by
    change first + i ≠ 0
    omega
  have hlt : first + i < w.size := by omega
  simp [classes, Valuation.ofAssignment, hne, hlt]

namespace FrameCircuit

section
variable {config : Config} {store store' : Store} {S : State} {F G : Frame} {t : Synthesis}
  {w : Array Int}

/-- Among preimages that are known no digest stands for two, and all that a circuit and a store hold
are known. The preimage of an empty slot need not be. -/
structure Binding (known : List Int → Prop) (ω : Valuation) (t : Synthesis) (store : Store) : Prop where
  injective : ∀ {xs ys}, known xs → known ys → Sponge.hash xs = Sponge.hash ys → xs = ys
  nodes : ∀ {xs}, store.IsPreimage xs → known xs
  slots : ∀ {key slot}, t.slots.lookup key = some slot →
    known (slot.reading ω) ∨ (slot.reading ω).head? = some 0

/-- A valuation that satisfies the circuit and starts from the state of a step ends in what the step
leads to. Steps whose outcome a circuit does not bind are set apart. -/
theorem Built.outcome {signs : Bool} {closed : SlotKey → ℕ → Bool} {ω : Valuation}
    {known : List Int → Prop} (hbuilt : Built config G t) (hsound : store.Sound) (hheld : S.Held store)
    (hstep : Machine.step config S store = .ok F store')
    (hbare : F.IsBareLambda store → closed ⟨.eval, 2, 4⟩ 1 = true)
    (hsigned : signs = false → ¬F.IsSigned store')
    (hown : signs = true → ω = .ofAssignment t.circuit.assignment)
    (hbinding : Binding known ω t store)
    (hclosed : ∀ {key slot i x}, t.slots.lookup key = some slot → closed key i = true →
      slot.preimage[1 + 5 * i]? = some x → x.under ω ≠ 1)
    (hsatisfied : t.circuit.Satisfied ω)
    (hinput : worth ω (publicState 1 G.input).elements = classes S.elements) :
    worth ω (publicState 16 G.output).elements = classes F.output.elements := by
  obtain ⟨rfl, -⟩ := Machine.phases_of_step hstep
  let c := Setting.selected false signs closed
  have hproper : c.Proper := @Setting.selected_proper false signs nofun closed
  have hidle : (c.idle c.fill).Proper := ⟨hproper.length, hproper.signs, hproper.sealed⟩
  obtain ⟨P⟩ : Nonempty (Passage c c.fill config store F store') :=
    Machine.passage hstep hsound hheld nofun hidle (fun _ => hbare) hsigned
  have hnil {key : SlotKey} {p : Pointer} (hp : p ∈ c.fill key) : p = .nil :=
    (List.mem_replicate.1 hp).2
  have hcanonical {key : SlotKey} {p : Pointer} (hp : p ∈ c.fill key) : p.Canonical :=
    hnil hp ▸ Pointer.immediate_canonical .nil 0
  have hpairs {key : SlotKey} {i : ℕ} {p : Pointer} (hp : (c.fill key)[i]? = some p)
      (_ : c.sealed key i = true) : p.tag ≠ .cons := by
    rw [hnil (List.mem_of_getElem? hp)]
    nofun
  have hjudges : c.Judges (.ofAssignment t.circuit.assignment) ω known :=
    ⟨nofun, hown, fun _ => hbinding.injective, hcanonical, hpairs⟩
  have hjudges' : (c.idle c.fill).Judges (.ofAssignment t.circuit.assignment) ω known :=
    ⟨nofun, hown, fun _ => hbinding.injective, hcanonical, hpairs⟩
  have hfinal : Final c (.ofAssignment t.circuit.assignment) ω known t :=
    ⟨Circuit.fits_ofAssignment hbuilt.assignment_one, fun _ => hbinding.slots, hclosed⟩
  have hready : Ready c known (MarkWorld.ofStore store) :=
    ⟨hsound, fun _ {p cs} hnode => hbinding.nodes ⟨p, cs, hnode, rfl⟩, fun _ => rfl⟩
  exact ((hbuilt.judged (Setting.selected_computes _ _ _) hjudges hjudges' P hready nofun
    hheld.canonical hfinal hinput).2 hsatisfied).1

/-! ## Any assignment -/

/-- What an assignment puts into the slots of a frame's circuit. -/
def slotReadings (config : Config) (frame : Frame) (w : Array Int) : List (List Int) :=
  match build config frame (.start (.empty (config.maxConstraints.map Int.ofNat)) frame.slots) with
  | .ok _ s => s.slots.map fun entry => entry.2.preimage.map fun x => Combination.evalTerms w x.terms
  | .error _ _ => []

theorem Built.slotReadings_eq (h : Built config G t) (hlimit : config.maxConstraints = none)
    (hone : w.getD Combination.one 0 = 1) :
    slotReadings config G w = t.slots.map fun entry => entry.2.reading (.ofAssignment w) := by
  have hbuild := h.build
  unfold slotReadings
  rw [hlimit, Option.map_none, hbuild]
  exact List.map_congr_left fun entry _ => List.map_congr_left fun x _ => (x.reading_eq hone).symm

/-- Preimages that an assignment and a store hold between them. -/
def InPlay (config : Config) (frame : Frame) (w : Array Int) (store : Store) (xs : List Int) : Prop :=
  xs ∈ slotReadings config frame w ∨ store.IsPreimage xs

/-- Whoever satisfies the circuit of a frame, and starts from a state of the store, ends in what the
step of the machine leads to, unless the assignment and the store hold two preimages of one digest. -/
theorem synthesize_sound (hlimit : config.maxConstraints = none) (hsized : G.Sized) {circuit : Circuit}
    (hcircuit : synthesize config G = .ok circuit) (hsize : w.size = circuit.assignment.size)
    (hcanonical : ∀ x ∈ w, Field.Canonical x) (hone : w.getD Combination.one 0 = 1)
    (hsatisfied : (circuit.withAssignment w).isSatisfied = true) (hstore : Store.Reachable store)
    (hstate : S.Canonical) (hwithin : S.within store = true)
    (hinput : (circuit.withAssignment w).publicValues.take stateSize = S.elements)
    (hstep : Machine.step config S store = .ok F store') (hbare : ¬F.IsBareLambda store)
    (hsigned : ¬F.IsSigned store')
    (hbinding : ∀ {xs ys}, InPlay config G w store xs → InPlay config G w store ys →
      Sponge.hash xs = Sponge.hash ys → xs = ys) :
    (circuit.withAssignment w).publicValues.drop stateSize = F.output.elements := by
  obtain ⟨t, ht, rfl⟩ := (synthesize_eq_ok hlimit).1 hcircuit
  have hbuilt : Built config G t := ⟨hsized, ht⟩
  have hsound := Store.reachable_sound hstore
  have hheld := State.held_of_within hstate hwithin
  have hpublic : (t.circuit.withAssignment w).publicValues = (w.toList.drop 1).take (2 * stateSize) :=
    congrArg (fun n => (w.toList.drop 1).take n) hbuilt.publicCount_eq
  have hlabelled : (t.circuit.withAssignment w).labels.size =
      (t.circuit.withAssignment w).constraints.size := hbuilt.labelled
  have hsat : t.circuit.Satisfied (.ofAssignment w) :=
    (Circuit.isSatisfied_iff_satisfied hlabelled hone).1 hsatisfied
  rw [hpublic, List.take_take, min_eq_left (by decide)] at hinput
  have hlarge : 1 + stateSize + stateSize ≤ w.size := hsize ▸ hbuilt.size_le
  have hstart : worth (.ofAssignment w) (publicState 1 G.input).elements = classes S.elements := by
    rw [worth_publicState, Valuation.public_ofAssignment (by decide) (by omega), hinput]
  have hin : Binding (InPlay config G w store) (.ofAssignment w) t store := by
    refine ⟨hbinding, .inr, fun {key slot} hslot => .inl (.inl ?_)⟩
    rw [hbuilt.slotReadings_eq hlimit hone]
    exact List.mem_map.2 ⟨(key, slot), Synthesis.mem_of_lookup hslot, rfl⟩
  have houtput := @Built.outcome _ _ _ _ _ _ _ false (fun _ _ => false) _ _ hbuilt hsound hheld hstep
    (fun h => absurd h hbare) (fun _ => hsigned) nofun hin nofun hsat hstart
  have houtput : (List.range stateSize).map
      (fun i => (Valuation.ofAssignment w).value (1 + stateSize + i)) = classes F.output.elements :=
    (worth_publicState _ _ _).symm.trans houtput
  rw [Valuation.public_ofAssignment (by decide) hlarge] at houtput
  obtain ⟨P⟩ := Machine.own_passage hstep hsound hheld
  have hvalues : ∀ x ∈ (w.toList.drop (1 + stateSize)).take stateSize, Field.Canonical x :=
    fun x hx => hcanonical x (by simpa using List.mem_of_mem_drop (List.mem_of_mem_take hx))
  have hfinal := classes_inj hvalues (canonical_state_elements P.output_held.canonical) houtput
  rw [hpublic, List.drop_take, List.drop_drop, ← hfinal]
  rfl

/-- Slots of the own assignment hold the witnesses that they were built from. -/
theorem Built.reading_own (h : Built config G t) {entry : SlotKey × HashSlot} (hentry : entry ∈ t.slots) :
    entry.2.reading (.ofAssignment t.circuit.assignment) =
      (Synthesis.content G.slots entry.1).map Field.reduce := by
  obtain ⟨key, slot⟩ := entry
  have hlookup := h.adds.orderly.lookup_of_mem hentry
  have hcarries := (h.extends_.carries hlookup).resolve_left nofun
  rw [← h.preimages_eq, ← hcarries.values]
  refine List.map_congr_left fun x hx => ?_
  have hfaithful := hcarries.faithful (Circuit.fits_ofAssignment h.assignment_one) x hx
  rw [hfaithful.under_eq, Field.representative_cast, Field.reduce_eq_self hfaithful.canonical]

theorem Built.arity_mem (h : Built config G t) {entry : SlotKey × HashSlot} (hentry : entry ∈ t.slots) :
    entry.1.arity ∈ ([2, 3, 4] : List ℤ) := by
  have hkey : entry.1 ∈ t.keys := List.mem_map_of_mem hentry
  rcases (h.adds.keys _).1 hkey with hkey | ⟨-, hnumbers⟩ | ⟨-, hnumbers⟩
  · cases hkey
  · exact EvalPhase.arity_of_numbers hnumbers
  · exact ContPhase.arity_of_numbers hnumbers

/-- Digests of a frame and a store bind what the slots of its circuit hold. -/
theorem Built.binding_own (h : Built config G t) (hsound : store.Sound)
    (hinjective : ∀ {xs ys}, G.InPlay store xs → G.InPlay store ys →
      Sponge.hash xs = Sponge.hash ys → xs = ys) :
    Binding (fun xs => ∃ raw, G.InPlay store raw ∧ raw.map Field.reduce = xs)
      (.ofAssignment t.circuit.assignment) t store where
  injective := by
    rintro _ _ ⟨xs, hxs, rfl⟩ ⟨ys, hys, rfl⟩ heq
    rw [Sponge.hash_map_reduce, Sponge.hash_map_reduce] at heq
    rw [hinjective hxs hys heq]
  nodes := by
    rintro _ ⟨p, cs, hnode, rfl⟩
    refine ⟨_, .inr ⟨p, cs, hnode, rfl⟩, map_reduce_eq (canonical_nodePreimage _ fun c hc => ?_)⟩
    exact ((hsound.node hnode).2.2 c hc).canonical
  slots := by
    intro key slot hslot
    have hentry := Synthesis.mem_of_lookup hslot
    have hreading := h.reading_own hentry
    cases hget : G.slots.get? key with
    | some preimage =>
      refine .inl ⟨preimage, .inl ⟨key, hget⟩, ?_⟩
      rw [hreading, Synthesis.content, hget]
      rfl
    | none =>
      refine .inr ?_
      have hpositive : 0 < (preimageSize key.arity).toNat := by
        have := h.arity_mem hentry
        simp only [List.mem_cons, List.not_mem_nil, or_false] at this
        rcases this with hkey | hkey | hkey <;> rw [hkey] <;> decide
      rw [hreading, Synthesis.content, hget, Option.getD_none, List.map_replicate, List.head?_replicate,
        if_neg hpositive.ne']
      rfl

/-- Whatever the slots of a frame hold, its circuit is satisfied only if its output is that of the
step, unless its slots and the store hold two preimages of one digest. A lambda without parameters
is set apart, where a slot claims that it has some. -/
theorem synthesize_rejects (hlimit : config.maxConstraints = none) (hstore : Store.Reachable store)
    (hinput : G.input.Canonical) (hwithin : G.input.within store = true) (houtput : G.output.Canonical)
    (hintermediate : G.intermediate.Canonical) (hslots : Synthesis.Sized G.slots)
    (hstep : Machine.step config G.input store = .ok F store')
    (hbare : F.IsBareLambda store → ¬G.ClaimsParameters)
    (hbinding : ∀ {xs ys}, G.InPlay store xs → G.InPlay store ys →
      Sponge.hash xs = Sponge.hash ys → xs = ys) :
    ∃ circuit, synthesize config G = .ok circuit ∧
      (circuit.isSatisfied = true → G.output = F.output) := by
  classical
  have hsound := Store.reachable_sound hstore
  have hheld := State.held_of_within hinput hwithin
  obtain ⟨t, hbuilt⟩ := exists_built config ⟨hinput.sized, houtput.sized, hintermediate.sized⟩ hslots
  refine ⟨t.circuit, hbuilt.synthesize_eq hlimit, fun hsatisfied => ?_⟩
  have hone := hbuilt.assignment_one
  have hfits := Circuit.fits_ofAssignment hone
  have hsat := (Circuit.isSatisfied_iff_satisfied hbuilt.labelled hone).1 hsatisfied
  let closed : SlotKey → ℕ → Bool := fun key i =>
    decide (F.IsBareLambda store ∧ key = ⟨.eval, 2, 4⟩ ∧ i = 1)
  have hworth := @Built.outcome _ _ _ _ _ _ _ true closed _ _ hbuilt hsound hheld hstep
    (fun h => decide_eq_true ⟨h, rfl, rfl⟩) nofun (fun _ => rfl) (hbuilt.binding_own hsound hbinding)
    (fun {key slot i x} hslot hclosed hx hvalue => ?_) hsat (hbuilt.bears_input hfits).worth_eq
  · obtain ⟨P⟩ := Machine.own_passage hstep hsound hheld
    exact State.eq_of_classes houtput P.output_held.canonical
      ((hbuilt.bears_output hfits).worth_eq.symm.trans hworth)
  · obtain ⟨hlambda, rfl, rfl⟩ := of_decide_eq_true hclosed
    have htag := congrArg (·[6]?) (hbuilt.reading_own (Synthesis.mem_of_lookup hslot))
    simp only [HashSlot.reading, List.getElem?_map, hx, Option.map_some, hvalue] at htag
    obtain ⟨tag, hcontent, hone⟩ := Option.map_eq_some_iff.1 htag.symm
    cases hget : G.slots.get? ⟨.eval, 2, 4⟩ with
    | some preimage =>
      refine hbare hlambda ⟨preimage, tag, hget, ?_, ?_⟩
      · rwa [Synthesis.content, hget] at hcontent
      · rw [hone]
        rfl
    | none =>
      rw [Synthesis.content, hget] at hcontent
      obtain rfl : tag = 0 := List.eq_of_mem_replicate (List.mem_of_getElem? hcontent)
      cases hone

end

/-! ## The honest assignment -/

theorem mem_content_of_isPreimage {store : Store} {xs : List Int} (hstore : Store.Reachable store)
    (h : store.IsPreimage xs) : xs ∈ store.content := by
  obtain ⟨p, cs, hnode, rfl⟩ := h
  exact Store.mem_content_of_node hstore hnode

/-- What the circuit of a step has in its slots is content of the store that the step leaves, or zeros. -/
theorem content_of_inPlay {config : Config} {store store' : Store} {S : State} {F : Frame} {t : Synthesis}
    (hlimit : config.maxConstraints = none) (hbuilt : Built config F t) (hstore : Store.Reachable store)
    (hheld : S.Held store) (hstep : Machine.step config S store = .ok F store') {xs : List Int}
    (hxs : InPlay config F t.circuit.assignment store xs) :
    xs ∈ store'.content ∨ ∃ arity ∈ ([2, 3, 4] : List ℤ), xs = List.replicate (preimageSize arity).toNat 0 := by
  rcases hxs with hxs | hpreimage
  · rw [hbuilt.slotReadings_eq hlimit hbuilt.assignment_one] at hxs
    obtain ⟨⟨key, slot⟩, hentry, rfl⟩ := List.mem_map.1 hxs
    rw [hbuilt.reading_own hentry]
    cases hget : F.slots.get? key with
    | none =>
      refine .inr ⟨key.arity, hbuilt.arity_mem hentry, ?_⟩
      rw [Synthesis.content, hget, Option.getD_none, List.map_replicate]
      rfl
    | some preimage =>
      left
      obtain ⟨tag, cs, rfl, -, hcs, -⟩ := records_of_step (Store.reachable_sound hstore) hheld hstep hget
      rw [Synthesis.content, hget, Option.getD_some, map_reduce_eq (canonical_nodePreimage tag hcs)]
      exact slots_content hstore hheld hstep hget
  · have hgrows := (Machine.RanTo.step hstep).grows hstore hheld
    exact .inl (hgrows.content_subset (mem_content_of_isPreimage hstore hpreimage))

end FrameCircuit

/-! ## The first frame of a sum -/

namespace Addition.FirstFrame

variable {config : Config} {s t : Store} {F : Frame} (hfirst : FirstFrame config s F t)
include hfirst

/-- It evaluates no lambda: what stands in the place of the parameters is a number. -/
theorem not_isBareLambda (h : Prepared s) : ¬F.IsBareLambda s := by
  rintro ⟨-, head, arguments, parameters, rest, hnode, hnode', htag⟩
  rw [hfirst.input] at hnode
  cases h.node.symm.trans hnode
  rw [h.parameters hnode'] at htag
  cases htag

/-- It applies no operator that looks at signs. -/
theorem not_isSigned : ¬F.IsSigned t := by
  rintro ⟨-, op, hop, rest, hnode⟩
  rw [hfirst.intermediate, hfirst.output] at hnode
  have hsymbol : plus = (Form.binary op).symbol := (List.cons.inj (Option.some.inj (hfirst.node.symm.trans hnode))).1
  have hform := congrArg formOf? hsymbol
  rw [plus, formOf?_symbol, formOf?_symbol] at hform
  cases hform
  exact absurd hop (by decide)

end Addition.FirstFrame

namespace FrameCircuit

/-- The first frame of `(+ 1 2)` as any assignment may claim it. -/
theorem synthesize_sound_sum : ∃ s F t circuit, read "(+ 1 2)" (.empty false) = .ok Addition.expression s ∧
    Machine.step .standard (.initial Addition.expression .nil) s = .ok F t ∧
    F.slots.get? ⟨.eval, 2, 0⟩ = some (nodePreimage .cons [Addition.plus, Addition.operands]) ∧
    synthesize .standard F = .ok circuit ∧
    (circuit.withAssignment circuit.assignment).isSatisfied = true ∧
    (circuit.withAssignment circuit.assignment).publicValues.drop stateSize = F.output.elements := by
  obtain ⟨s, hread, h⟩ := Addition.reads false
  obtain ⟨F, u, hfirst⟩ := Addition.exists_firstFrame .standard h
  have hreachable := h.bounded.reachable
  have hsound := Store.reachable_sound hreachable
  obtain ⟨P⟩ := Machine.own_passage hfirst.step hsound h.held
  have hcanonical : F.input.Canonical := hfirst.input ▸ h.held.canonical
  have houtput := P.output_held.canonical
  have hintermediate := P.intermediate_held.canonical
  have hsized : Synthesis.Sized F.slots := sized_of_records (records_of_step hsound h.held hfirst.step)
  obtain ⟨t, hbuilt⟩ := exists_built .standard ⟨hcanonical.sized, houtput.sized, hintermediate.sized⟩ hsized
  have hsatisfied : t.circuit.isSatisfied = true :=
    (hbuilt.isSatisfied_iff hsound h.held hfirst.step rfl rfl houtput hintermediate).2 ⟨rfl, rfl, rfl, rfl, rfl⟩
  have hlisted {xs : List Int} (hxs : InPlay .standard F t.circuit.assignment s xs) :
      xs ∈ {xs | xs ∈ Addition.preimages ++ Addition.blanks} := by
    rcases content_of_inPlay rfl hbuilt hreachable h.held hfirst.step hxs with hxs | ⟨arity, harity, rfl⟩
    · exact List.mem_append_left _ (hfirst.bounded.content hxs)
    · exact List.mem_append_right _ (List.mem_map_of_mem harity)
  have hcircuit := hbuilt.synthesize_eq rfl
  refine ⟨s, F, u, t.circuit, hread, hfirst.step, hfirst.slot, hcircuit, hsatisfied, ?_⟩
  refine synthesize_sound rfl hbuilt.sized hcircuit rfl hbuilt.canonical hbuilt.assignment_one hsatisfied
    hreachable h.held.canonical h.held.within ?_ hfirst.step (hfirst.not_isBareLambda h) hfirst.not_isSigned
    fun hxs hys => Addition.injOn_filled (hlisted hxs) (hlisted hys)
  change t.circuit.publicValues.take stateSize = _
  have helements : F.input.elements.map Field.reduce = F.input.elements :=
    map_reduce_eq (canonical_state_elements hcanonical)
  rw [hbuilt.publicValues_eq, List.map_append, helements, hfirst.input]
  exact List.take_left' (length_elements h.held.canonical.sized)

/-- Whoever fills the first slot of this frame with another pair and claims that it takes no step is rejected. -/
theorem synthesize_rejects_sum : ∃ s F t circuit, read "(+ 1 2)" (.empty false) = .ok Addition.expression s ∧
    Machine.step .standard (.initial Addition.expression .nil) s = .ok F t ∧
    F.slots.get? ⟨.eval, 2, 0⟩ = some (nodePreimage .cons [Addition.plus, Addition.operands]) ∧
    synthesize .standard { F with
      slots := F.slots.set ⟨.eval, 2, 0⟩ (nodePreimage .cons Addition.forged), output := F.input } = .ok circuit ∧
    circuit.isSatisfied = false := by
  obtain ⟨s, hread, h⟩ := Addition.reads false
  obtain ⟨F, u, hfirst⟩ := Addition.exists_firstFrame .standard h
  have hreachable := h.bounded.reachable
  have hsound := Store.reachable_sound hreachable
  obtain ⟨P⟩ := Machine.own_passage hfirst.step hsound h.held
  generalize hforged : ({ F with
    slots := F.slots.set ⟨.eval, 2, 0⟩ (nodePreimage .cons Addition.forged), output := F.input } : Frame) = G
  have hinput : G.input = F.input := hforged ▸ rfl
  have houtput : G.output = F.input := hforged ▸ rfl
  have hintermediate : G.intermediate = F.intermediate := hforged ▸ rfl
  have hslots {key : SlotKey} {preimage : List Int} (hget : G.slots.get? key = some preimage) :
      key = ⟨.eval, 2, 0⟩ ∧ preimage = nodePreimage .cons Addition.forged ∨ F.slots.get? key = some preimage := by
    rw [← hforged] at hget
    by_cases hkey : key = ⟨.eval, 2, 0⟩
    · rw [hkey, Table.get?_set_self, Option.some.injEq] at hget
      exact .inl ⟨hkey, hget.symm⟩
    · rw [Table.get?_set_of_ne _ _ hkey] at hget
      exact .inr hget
  have hcanonical : F.input.Canonical := hfirst.input ▸ h.held.canonical
  have hsized : Synthesis.Sized G.slots := by
    intro key preimage hget
    rcases hslots hget with ⟨rfl, rfl⟩ | hget
    · rw [length_nodePreimage .cons fun p hp => ?_]
      · rfl
      · simp only [Addition.forged, List.mem_cons, List.not_mem_nil, or_false] at hp
        rcases hp with rfl | rfl
        · exact (hsound.holds_symbol _).canonical
        · exact Store.nodePointer_canonical _ _
    · exact sized_of_records (records_of_step hsound h.held hfirst.step) hget
  have hlisted {xs : List Int} (hxs : G.InPlay s xs) : xs ∈ {xs | xs ∈ Addition.preimages} := by
    rcases hxs with ⟨key, hget⟩ | hpreimage
    · rcases hslots hget with ⟨-, rfl⟩ | hget
      · exact Addition.forged_mem
      · exact hfirst.bounded.content (slots_content hreachable h.held hfirst.step hget)
    · exact h.bounded.content (mem_content_of_isPreimage hreachable hpreimage)
  obtain ⟨circuit, hcircuit, hrejects⟩ := @synthesize_rejects .standard s u F G rfl hreachable (hinput ▸ hcanonical)
    (by rw [hinput, hfirst.input]; exact h.held.within) (houtput ▸ hcanonical)
    (hintermediate ▸ P.intermediate_held.canonical) hsized (by rw [hinput, hfirst.input]; exact hfirst.step)
    (fun hbare => absurd hbare (hfirst.not_isBareLambda h))
    fun hxs hys => Addition.injOn_preimages (hlisted hxs) (hlisted hys)
  refine ⟨s, F, u, circuit, hread, hfirst.step, hfirst.slot, hforged ▸ hcircuit,
    Bool.eq_false_iff.2 fun hsatisfied => ?_⟩
  -- The output is a number.
  have hsame := hrejects hsatisfied
  rw [houtput, hfirst.input, hfirst.output] at hsame
  cases congrArg (fun st : State => st.expr.tag) hsame

end FrameCircuit

end FieldLisp
