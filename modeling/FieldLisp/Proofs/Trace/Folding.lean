import FieldLisp.Proofs.Trace.Verification

/-!
# What folding makes of a bundle

Folding looks at the ends that an instance states itself, verification at the public values of its
circuit; the step count of a bundle is only looked at by verification:

* `Receipt.Folded`, `Receipt.fold_eq_ok`: when folding returns a proof, and which;
* `Receipt.verify_fold`: a proof that folding returns is accepted for the bundle's own ends and count
  exactly if the bundle agrees with its circuits.
-/

namespace FieldLisp

open Except (bind_eq_ok bind_of_ok)

namespace Receipt

variable {shape : String} {bundle : Bundle} {proof : ReceiptProof}

/-! ## Folding -/

/-- The instance is satisfied and of the shape, and states the ends of the link. -/
structure Folds (shape : String) (step : StepInstance) (link : Link) : Prop where
  shape : step.circuit.shapeDigest = shape
  satisfied : step.circuit.isSatisfied = true
  input : Commitment.ofElements step.input = .ok link.1
  output : Commitment.ofElements step.output = .ok link.2

/-- With a shape given, an instance is taken in if it is of that shape and starts where the trace has
come to. -/
theorem foldInstance_eq_ok {links : List Link} {reached : Commitment} {step : StepInstance}
    {next : Folding} : foldInstance ⟨some shape, links, reached⟩ step = .ok next ↔
      ∃ link, Folds shape step link ∧ link.1 = reached ∧ next = ⟨some shape, link :: links, link.2⟩ := by
  unfold foldInstance
  cases hunsatisfied : step.circuit.unsatisfied with
  | cons failing rest =>
    constructor
    · intro h
      cases h
    · rintro ⟨_, hfolds, -⟩
      have hsatisfied := hfolds.satisfied
      simp [Circuit.isSatisfied, hunsatisfied] at hsatisfied
  | nil =>
    have hsatisfied : step.circuit.isSatisfied = true := by
      simp [Circuit.isSatisfied, hunsatisfied]
    dsimp only
    split
    case isFalse hshape =>
      constructor
      · intro h
        cases h
      · rintro ⟨_, hfolds, -⟩
        rw [hfolds.shape] at hshape
        exact absurd (beq_self_eq_true shape) hshape
    case isTrue hshape =>
      have hshape : step.circuit.shapeDigest = shape := (beq_iff_eq.1 hshape).symm
      simp only [bind_eq_ok]
      constructor
      · rintro ⟨input, hinput, output, houtput, h⟩
        split at h
        · rename_i hreached
          cases h
          exact ⟨(input, output), ⟨hshape, hsatisfied, hinput, houtput⟩, hreached, rfl⟩
        · cases h
      · rintro ⟨link, hfolds, hreached, rfl⟩
        exact ⟨_, hfolds.input, _, hfolds.output, if_pos hreached⟩

/-- With a shape given, a list of instances is taken in if their links lead on from where the trace
has come to. -/
theorem foldlM_foldInstance_eq_ok {steps : List StepInstance} {links : List Link}
    {reached : Commitment} {result : Folding} :
    steps.foldlM foldInstance ⟨some shape, links, reached⟩ = .ok result ↔
      ∃ added, List.Forall₂ (Folds shape) steps added ∧ follow reached added = some result.reached ∧
        result.shape = some shape ∧ result.links = added.reverse ++ links := by
  induction steps generalizing links reached with
  | nil =>
    rw [List.foldlM_nil]
    constructor
    · intro h
      cases h
      exact ⟨[], .nil, rfl, rfl, rfl⟩
    · rintro ⟨added, hadded, hfollow, hshape, hlinks⟩
      cases hadded
      obtain ⟨shape', links', reached'⟩ := result
      simp only [follow, Option.some.injEq] at hfollow
      obtain rfl : shape' = some shape := hshape
      obtain rfl : links' = links := hlinks
      obtain rfl : reached = reached' := hfollow
      rfl
  | cons step steps ih =>
    rw [List.foldlM_cons, bind_eq_ok]
    simp only [foldInstance_eq_ok]
    constructor
    · rintro ⟨_, ⟨link, hstep, rfl, rfl⟩, h⟩
      obtain ⟨added, hadded, hfollow, hshape, hlinks⟩ := ih.1 h
      refine ⟨link :: added, .cons hstep hadded, ?_, hshape, by simp [hlinks]⟩
      exact (if_pos rfl).trans hfollow
    · rintro ⟨added, hadded, hfollow, hshape, hlinks⟩
      cases hadded with
      | @cons _ link _ added hstep hadded =>
        have hreached : link.1 = reached := by
          by_contra hne
          rw [follow, if_neg hne] at hfollow
          cases hfollow
        rw [follow, if_pos hreached] at hfollow
        exact ⟨_, ⟨link, hstep, hreached, rfl⟩, ih.2 ⟨added, hadded, hfollow, hshape, by simp [hlinks]⟩⟩

/-- The shape that folding takes from a list of instances. -/
def shapeOf (steps : List StepInstance) : String :=
  (steps.head?.map fun step => step.circuit.shapeDigest).getD ""

/-- What folding checks of a bundle, and what it puts into the proof. -/
structure Folded (bundle : Bundle) (proof : ReceiptProof) : Prop where
  shape : proof.shape = shapeOf bundle.instances
  folds : List.Forall₂ (Folds proof.shape) bundle.instances proof.links
  follows : follow bundle.initial proof.links = some bundle.final
  stepCount : proof.stepCount = bundle.stepCount
  receipt : last proof.shape bundle.initial proof.links = .ok proof.receipt
  circuits : proof.circuits = bundle.instances.map (·.circuit)

/-- The first instance gives the shape. -/
theorem foldlM_start {steps : List StepInstance} {reached : Commitment} {result : Folding} :
    steps.foldlM foldInstance ⟨none, [], reached⟩ = .ok result ↔
      List.Forall₂ (Folds (shapeOf steps)) steps result.links.reverse ∧
        follow reached result.links.reverse = some result.reached ∧
        result.shape = steps.head?.map fun step => step.circuit.shapeDigest := by
  cases steps with
  | nil =>
    rw [List.foldlM_nil]
    constructor
    · intro h
      cases h
      exact ⟨.nil, rfl, rfl⟩
    · rintro ⟨hlinks, hfollow, hshape⟩
      obtain ⟨shape, links, reached'⟩ := result
      obtain rfl : links = [] := List.reverse_eq_nil_iff.1 (List.forall₂_nil_left_iff.1 hlinks)
      obtain rfl : shape = none := hshape
      obtain rfl : reached = reached' := Option.some.inj hfollow
      rfl
  | cons step steps =>
    have hfirst : foldInstance ⟨none, [], reached⟩ step =
        foldInstance ⟨some step.circuit.shapeDigest, [], reached⟩ step := by
      unfold foldInstance
      simp
    rw [List.foldlM_cons, hfirst, ← List.foldlM_cons, foldlM_foldInstance_eq_ok]
    constructor
    · rintro ⟨added, hadded, hfollow, hshape, hlinks⟩
      rw [hlinks, List.append_nil, List.reverse_reverse]
      exact ⟨hadded, hfollow, hshape⟩
    · rintro ⟨hadded, hfollow, hshape⟩
      exact ⟨_, hadded, hfollow, hshape, by simp⟩

/-- Folding checks these things, and no others. -/
theorem fold_eq_ok : fold bundle = .ok proof ↔ Folded bundle proof := by
  have hshape (h : Option String) (heq : h = bundle.instances.head?.map fun step =>
      step.circuit.shapeDigest) : h.getD "" = shapeOf bundle.instances := congrArg (·.getD "") heq
  unfold fold
  rw [bind_eq_ok]
  simp only [foldlM_start]
  constructor
  · rintro ⟨result, ⟨hfolds, hfollow, hresult⟩, h⟩
    split at h
    case isFalse => cases h
    case isTrue hreached =>
      obtain ⟨receipt, hreceipt, h⟩ := bind_eq_ok.1 h
      cases h
      rw [← hshape _ hresult] at hfolds
      exact ⟨hshape _ hresult, hfolds, hreached ▸ hfollow, rfl, hreceipt, rfl⟩
  · intro h
    refine ⟨⟨bundle.instances.head?.map _, proof.links.reverse, bundle.final⟩, ⟨?_, ?_, rfl⟩, ?_⟩
    · rw [List.reverse_reverse, ← h.shape]
      exact h.folds
    · rw [List.reverse_reverse]
      exact h.follows
    · have hreceipt := h.receipt
      rw [h.shape] at hreceipt
      rw [if_pos rfl, List.reverse_reverse, hshape _ rfl, bind_of_ok hreceipt]
      obtain ⟨shape, links, stepCount, receipt, circuits⟩ := proof
      obtain rfl : shape = _ := h.shape
      obtain rfl : stepCount = _ := h.stepCount
      obtain rfl : circuits = _ := h.circuits
      rfl

/-! ## Bundles that agree with their circuits -/

end Receipt

/-- The instances of the bundle state the ends that the public values of their circuits have, no more
steps are counted than there are instances, and those past the steps rest. A negative count leaves out
all but so many at the end. -/
structure Bundle.Consistent (bundle : Bundle) : Prop where
  ends : ∀ step ∈ bundle.instances,
    Commitment.ofElements step.input =
        Commitment.ofElements (step.circuit.publicValues.take stateSize) ∧
      Commitment.ofElements step.output =
        Commitment.ofElements (step.circuit.publicValues.drop stateSize)
  bounded : bundle.stepCount ≤ bundle.instances.length
  rests : ∀ (i : ℕ) (step : StepInstance), bundle.instances[i]? = some step →
    position bundle.instances.length bundle.stepCount ≤ i →
      Commitment.ofElements step.input = Commitment.ofElements step.output

namespace Receipt

/-- Whatever its values, a circuit with as many public values as two states have is decided on. -/
theorem backs_decides (shape : String) {circuit : Circuit} (h : circuit.publicValues.length = 2 * stateSize)
    (link : Link) : ∃ backed, backs shape circuit link = .ok backed := by
  have hinput : (circuit.publicValues.take stateSize).length = stateSize := by
    rw [List.length_take]
    omega
  have houtput : (circuit.publicValues.drop stateSize).length = stateSize := by
    rw [List.length_drop]
    omega
  have hlink : circuitLink circuit = .ok (_, _) :=
    circuitLink_eq_ok.2 ⟨ofElements_eq_ok.2 ⟨hinput, rfl⟩, ofElements_eq_ok.2 ⟨houtput, rfl⟩⟩
  unfold backs
  split
  · exact ⟨_, bind_of_ok hlink _⟩
  · exact ⟨false, rfl⟩

theorem allBacked_decides (shape : String) {entries : List (Circuit × Link)}
    (h : ∀ entry ∈ entries, entry.1.publicValues.length = 2 * stateSize) :
    ∃ backed, allBacked shape entries = .ok backed := by
  induction entries with
  | nil => exact ⟨true, rfl⟩
  | cons entry entries ih =>
    rw [List.forall_mem_cons] at h
    obtain ⟨backed, hbacked⟩ := backs_decides shape h.1 entry.2
    rw [allBacked, bind_of_ok hbacked]
    cases backed with
    | true => exact ih h.2
    | false => exact ⟨false, rfl⟩

/-- A proof with a hexadecimal shape, whose circuits have the public values of two states each, is
decided on. -/
theorem verify_decides {bytes : List UInt8} (hshape : Text.hexBytes? proof.shape = some bytes)
    (hpublic : ∀ circuit ∈ proof.circuits, circuit.publicValues.length = 2 * stateSize)
    (initial final : Commitment) (count : Int) :
    ∃ accepted, verify proof initial final count = .ok accepted := by
  have hentries : ∀ entry ∈ proof.circuits.zip proof.links,
      entry.1.publicValues.length = 2 * stateSize := fun entry hentry =>
    hpublic _ (List.of_mem_zip hentry).1
  obtain ⟨backed, hbacked⟩ := allBacked_decides proof.shape hentries
  have hlast : last proof.shape initial proof.links = .ok (endOf _ proof.links) :=
    last_eq_ok.2 ⟨bytes, hshape, rfl⟩
  unfold verify
  split
  · exact ⟨false, rfl⟩
  split
  · exact ⟨false, rfl⟩
  rw [bind_of_ok hbacked]
  split
  · exact ⟨false, rfl⟩
  split
  · exact ⟨false, rfl⟩
  · exact ⟨_, bind_of_ok hlast _⟩

/-- An instance that was folded backs its link if its circuit's public values have the same ends. -/
theorem backs_iff_of_folds {shape : String} {step : StepInstance} {link : Link} (h : Folds shape step link) :
    Backs shape step.circuit link ↔
      Commitment.ofElements step.input =
          Commitment.ofElements (step.circuit.publicValues.take stateSize) ∧
        Commitment.ofElements step.output =
          Commitment.ofElements (step.circuit.publicValues.drop stateSize) := by
  rw [h.input, h.output]
  constructor
  · intro hbacks
    obtain ⟨hinput, houtput⟩ := circuitLink_eq_ok.1 hbacks.link
    exact ⟨hinput.symm, houtput.symm⟩
  · rintro ⟨hinput, houtput⟩
    exact ⟨h.shape, circuitLink_eq_ok.2 ⟨hinput.symm, houtput.symm⟩, h.satisfied⟩

/-- What was folded is accepted exactly if the bundle agrees with its circuits. -/
theorem Folded.accepted_iff (h : Folded bundle proof) :
    Accepted proof bundle.initial bundle.final bundle.stepCount ↔ bundle.Consistent := by
  have hlength := h.folds.length_eq
  have hfolds := List.forall₂_iff_get.1 h.folds
  have hat {i : ℕ} {link : Link} (hlink : proof.links[i]? = some link) :
      ∃ step, bundle.instances[i]? = some step ∧ Folds proof.shape step link := by
    obtain ⟨hi, rfl⟩ := List.getElem?_eq_some_iff.1 hlink
    exact ⟨_, List.getElem?_eq_getElem (hlength ▸ hi), hfolds.2 i (hlength ▸ hi) hi⟩
  have hat' {i : ℕ} {step : StepInstance} (hstep : bundle.instances[i]? = some step) :
      ∃ link, proof.links[i]? = some link ∧ Folds proof.shape step link := by
    obtain ⟨hi, rfl⟩ := List.getElem?_eq_some_iff.1 hstep
    exact ⟨_, List.getElem?_eq_getElem (hlength ▸ hi), hfolds.2 i hi (hlength ▸ hi)⟩
  constructor
  · intro hacc
    refine ⟨fun step hstep => ?_, hlength ▸ hacc.bounded, fun i step hstep hle => ?_⟩
    · obtain ⟨i, hi, rfl⟩ := List.getElem_of_mem hstep
      obtain ⟨link, hlink, hfold⟩ := hat' (List.getElem?_eq_getElem hi)
      refine (backs_iff_of_folds hfold).1 ?_
      obtain ⟨hi', rfl⟩ := List.getElem?_eq_some_iff.1 hlink
      have hback := (List.forall₂_iff_get.1 (h.circuits ▸ hacc.backed)).2 i (by simpa using hi) hi'
      simpa using hback
    · obtain ⟨link, hlink, hfold⟩ := hat' hstep
      rw [hfold.input, hfold.output, hacc.rests link (mem_linksFrom.2 ⟨i, hlength ▸ hle, hlink⟩)]
  · intro hagrees
    refine ⟨h.stepCount, hlength ▸ hagrees.bounded, ?_, h.follows, fun link hlink => ?_, h.receipt⟩
    · rw [h.circuits, List.forall₂_map_left_iff]
      refine List.forall₂_iff_get.2 ⟨hlength, fun i hi hi' => ?_⟩
      exact (backs_iff_of_folds (hfolds.2 i hi hi')).2 (hagrees.ends _ (List.get_mem _ _))
    · obtain ⟨i, hle, hi⟩ := mem_linksFrom.1 hlink
      obtain ⟨step, hstep, hfold⟩ := hat hi
      have hrests := hagrees.rests i step hstep (hlength ▸ hle)
      rw [hfold.input, hfold.output] at hrests
      exact Except.ok.inj hrests

/-- A proof that folding returns is decided on for the bundle's own ends and count: it is accepted
exactly if the bundle agrees with its circuits. -/
theorem verify_fold
    (hpublic : ∀ step ∈ bundle.instances, step.circuit.publicValues.length = 2 * stateSize)
    (hfold : fold bundle = .ok proof) :
    ∃ accepted, verify proof bundle.initial bundle.final bundle.stepCount = .ok accepted ∧
      (accepted = true ↔ bundle.Consistent) := by
  have hfolded := fold_eq_ok.1 hfold
  obtain ⟨bytes, hbytes, -⟩ := last_eq_ok.1 hfolded.receipt
  obtain ⟨accepted, haccepted⟩ := verify_decides hbytes (fun circuit hcircuit => by
    rw [hfolded.circuits] at hcircuit
    obtain ⟨step, hstep, rfl⟩ := List.mem_map.1 hcircuit
    exact hpublic step hstep) bundle.initial bundle.final bundle.stepCount
  refine ⟨accepted, haccepted, ?_⟩
  rw [← hfolded.accepted_iff, ← verify_eq_true, haccepted, Except.ok.injEq]

/-! ## A bundle of one instance -/

/-- One instance that states two ends, with a circuit that has nothing but public values. -/
def single (input output values : List Int) (count : Int) : Bundle where
  instances := [⟨0, FrameCircuit.withPublic (.empty none) values, input, output⟩]
  initial := commitmentOf input
  final := commitmentOf output
  stepCount := count

/-- Such a bundle is folded, whatever the values and the count. -/
theorem exists_fold_single {input output : List Int} (hinput : input.length = stateSize)
    (houtput : output.length = stateSize) (values : List Int) (count : Int) :
    ∃ proof, fold (single input output values count) = .ok proof ∧
      Folded (single input output values count) proof := by
  obtain ⟨bytes, hbytes⟩ := Text.hexBytes?_hexDigest
    (FrameCircuit.withPublic (.empty none) values).layoutText.toUTF8
  have hfolded : Folded (single input output values count)
      ⟨_, [(commitmentOf input, commitmentOf output)], count, _, _⟩ :=
    { shape := rfl
      folds := .cons ⟨rfl, rfl, ofElements_eq_ok.2 ⟨hinput, rfl⟩, ofElements_eq_ok.2 ⟨houtput, rfl⟩⟩ .nil
      follows := if_pos rfl
      stepCount := rfl
      receipt := last_eq_ok.2 ⟨bytes, hbytes, rfl⟩
      circuits := rfl }
  exact ⟨_, fold_eq_ok.2 hfolded, hfolded⟩

theorem commitmentOf_ends : commitmentOf (ends 0) ≠ commitmentOf (ends 1) := by
  have hnonneg : (∀ x ∈ Commitment.stateDomain :: ends 0, 0 ≤ x) ∧
      ∀ x ∈ Commitment.stateDomain :: ends 1, 0 ≤ x := by decide
  intro h
  have hlists := congrArg Digest.toList h
  rw [commitmentOf, commitmentOf, Permutation.Evaluation.toList_hash_of_nonneg hnonneg.1,
    Permutation.Evaluation.toList_hash_of_nonneg hnonneg.2] at hlists
  have hhashes := List.map_injective_iff.2 Nat.cast_injective hlists
  revert hhashes
  decide +kernel

/-- A step that is counted once, of a circuit with the ends that it states, is accepted. -/
theorem verify_fold_single : ∃ proof,
    (∀ step ∈ (single (ends 0) (ends 1) (ends 0 ++ ends 1) 1).instances,
      step.circuit.publicValues.length = 2 * stateSize) ∧
    fold (single (ends 0) (ends 1) (ends 0 ++ ends 1) 1) = .ok proof ∧
    verify proof (commitmentOf (ends 0)) (commitmentOf (ends 1)) 1 = .ok true := by
  have hpublic : ∀ step ∈ (single (ends 0) (ends 1) (ends 0 ++ ends 1) 1).instances,
      step.circuit.publicValues.length = 2 * stateSize := by
    simp only [single, List.forall_mem_singleton]
    decide
  obtain ⟨proof, hfold, -⟩ := exists_fold_single (rfl : (ends 0).length = _) (rfl : (ends 1).length = _)
    (ends 0 ++ ends 1) 1
  obtain ⟨accepted, hverify, haccepted⟩ := verify_fold hpublic hfold
  have hconsistent : (single (ends 0) (ends 1) (ends 0 ++ ends 1) 1).Consistent := by
    refine ⟨fun step hstep => ?_, by decide, fun i step hstep hle => ?_⟩
    · obtain rfl := List.mem_singleton.1 hstep
      exact ⟨congrArg Commitment.ofElements (by decide), congrArg Commitment.ofElements (by decide)⟩
    · obtain ⟨hi, -⟩ := List.getElem?_eq_some_iff.1 hstep
      exact absurd hle (by simp [single, position] at hi ⊢; omega)
  exact ⟨proof, hpublic, hfold, by rw [← haccepted.2 hconsistent]; exact hverify⟩

/-- A bundle of instances of circuits of the right size that is folded into a proof which is not
accepted for the bundle's own ends and count. -/
def Unaccepted (bundle : Bundle) : Prop :=
  (∀ step ∈ bundle.instances, step.circuit.publicValues.length = 2 * stateSize) ∧
    ∃ proof, fold bundle = .ok proof ∧
      verify proof bundle.initial bundle.final bundle.stepCount ≠ .ok true

/-- Three such bundles: one counts its step twice, one does not count a step that moves, and the circuit
of one has other public values than it states. -/
theorem fold_unaccepted : Unaccepted (single (ends 0) (ends 1) (ends 0 ++ ends 1) 2) ∧
    Unaccepted (single (ends 0) (ends 1) (ends 0 ++ ends 1) 0) ∧
    Unaccepted (single (ends 0) (ends 1) (ends 0 ++ ends 0) 1) := by
  have folded (values : List Int) (count : Int)
      (hcount : ¬(single (ends 0) (ends 1) values count).Consistent) :
      ∃ proof, fold (single (ends 0) (ends 1) values count) = .ok proof ∧
        verify proof (commitmentOf (ends 0)) (commitmentOf (ends 1)) count ≠ .ok true := by
    obtain ⟨proof, hfold, hfolded⟩ := exists_fold_single (rfl : (ends 0).length = _)
      (rfl : (ends 1).length = _) values count
    exact ⟨proof, hfold, fun h => hcount (hfolded.accepted_iff.1 (verify_eq_true.1 h))⟩
  have hdiffer : Commitment.ofElements (ends 0) ≠ Commitment.ofElements (ends 1) := fun h =>
    commitmentOf_ends (Except.ok.inj h)
  have hpublic (values : List Int) (count : Int)
      (hvalues : (FrameCircuit.withPublic (.empty none) values).publicValues.length = 2 * stateSize) :
      ∀ step ∈ (single (ends 0) (ends 1) values count).instances,
        step.circuit.publicValues.length = 2 * stateSize := by
    simpa only [single, List.forall_mem_singleton] using hvalues
  refine ⟨⟨hpublic _ _ (by decide), folded _ _ fun h => ?_⟩,
    ⟨hpublic _ _ (by decide), folded _ _ fun h => ?_⟩,
    ⟨hpublic _ _ (by decide), folded _ _ fun h => ?_⟩⟩
  · exact absurd h.bounded (by decide)
  · exact hdiffer (h.rests 0 _ rfl (by decide))
  · exact hdiffer (h.ends _ (List.mem_singleton_self _)).2.symm

end Receipt

end FieldLisp
