import FieldLisp.Circuit.Frame
import FieldLisp.Proofs.Circuit.Satisfaction

/-!
# Syntheses only grow

Whatever a rule builds stands behind what is there, and a slot that was asked for stays what it is:

* `Synthesis.Extends`: one synthesis is what has become of another;
* `Synthesis.Carries`: the variables of a slot carry its witness;
* `Synthesis.Grows`: an operation extends a synthesis, and succeeds if the witnesses for slots have
  the right sizes.
-/

namespace FieldLisp

open EStateM (bind_eq_ok pure_eq_ok)

namespace Synthesis

/-- What fills a slot: its witness, or zeros if there is none. -/
def content (preimages : SlotTable) (key : SlotKey) : List Int :=
  (preimages.get? key).getD (List.replicate (preimageSize key.arity).toNat 0)

/-- All witnesses for slots have the right size. -/
def Sized (preimages : SlotTable) : Prop :=
  ∀ {key preimage}, preimages.get? key = some preimage →
    (preimage.length : Int) = preimageSize key.arity

/-- The variables of a slot carry what fills it. -/
structure Carries (s : Synthesis) (key : SlotKey) (slot : HashSlot) : Prop where
  length : (slot.preimage.length : Int) = preimageSize key.arity
  values : slot.preimage.map (·.value) = (content s.preimages key).map Field.reduce
  faithful : ∀ {ω}, s.circuit.Fits ω → ∀ x ∈ slot.preimage, x.Faithful ω

/-- The second synthesis is what has become of the first. -/
structure Extends (s t : Synthesis) : Prop where
  circuit : s.circuit.Extends t.circuit
  preimages : t.preimages = s.preimages
  slots : ∀ {key slot}, s.slots.lookup key = some slot → t.slots.lookup key = some slot
  carries : ∀ {key slot}, t.slots.lookup key = some slot →
    s.slots.lookup key = some slot ∨ t.Carries key slot

theorem Carries.extends {s t : Synthesis} {key : SlotKey} {slot : HashSlot}
    (h : s.Carries key slot) (hcircuit : s.circuit.Extends t.circuit)
    (hpreimages : t.preimages = s.preimages) : t.Carries key slot :=
  ⟨h.length, hpreimages ▸ h.values, fun hfits => h.faithful (hcircuit.fits hfits)⟩

namespace Extends
variable {s t u : Synthesis}

theorem refl (s : Synthesis) : Extends s s := ⟨.refl _, rfl, id, .inl⟩

theorem trans (h : Extends s t) (h' : Extends t u) : Extends s u where
  circuit := h.circuit.trans h'.circuit
  preimages := h'.preimages.trans h.preimages
  slots := h'.slots ∘ h.slots
  carries hslot := (h'.carries hslot).elim
    (fun hslot => (h.carries hslot).imp_right (·.extends h'.circuit h'.preimages)) .inr

theorem limit (h : Extends s t) (hs : s.circuit.limit = none) : t.circuit.limit = none :=
  h.circuit.limit.trans hs

end Extends

/-- Without a limit, the operation extends what has been built, and it succeeds if the witnesses
for slots have the right sizes. -/
structure Grows (x : SynthesisM α) : Prop where
  extends_ : ∀ {s a t}, s.circuit.limit = none → x s = .ok a t → s.Extends t
  succeeds : ∀ {s}, s.circuit.limit = none → Sized s.preimages → ∃ a t, x s = .ok a t

namespace Grows

theorem pure (a : α) : Grows (Pure.pure a : SynthesisM α) where
  extends_ _ h := by
    obtain ⟨rfl, rfl⟩ := pure_eq_ok.1 h
    exact .refl _
  succeeds {s} _ _ := ⟨a, s, rfl⟩

theorem bind {x : SynthesisM α} {f : α → SynthesisM β} (hx : Grows x) (hf : ∀ a, Grows (f a)) :
    Grows (x >>= f) where
  extends_ hs h := by
    obtain ⟨a, t, hxs, hft⟩ := bind_eq_ok.1 h
    have hst := hx.extends_ hs hxs
    exact hst.trans ((hf a).extends_ (hst.limit hs) hft)
  succeeds hs hsized := by
    obtain ⟨a, t, hxs⟩ := hx.succeeds hs hsized
    have hst := hx.extends_ hs hxs
    obtain ⟨b, u, hft⟩ := (hf a).succeeds (hst.limit hs) (hst.preimages ▸ hsized)
    exact ⟨b, u, bind_eq_ok.2 ⟨a, t, hxs, hft⟩⟩

end Grows

/-! ## What operations do to a synthesis -/

theorem onCircuit_eq_ok {x : CircuitM α} {s t : Synthesis} {a : α} :
    onCircuit x s = .ok a t ↔ ∃ circuit, x s.circuit = .ok a circuit ∧ t = { s with circuit } := by
  unfold onCircuit
  dsimp only
  cases x s.circuit <;> simp [eq_comm]

theorem grows_onCircuit {x : CircuitM α} (hx : Circuit.Grows x) : Grows (onCircuit x) where
  extends_ {s a t} hs h := by
    obtain ⟨circuit, hcircuit, rfl⟩ := onCircuit_eq_ok.1 h
    exact ⟨hx.extends_of_ok hs hcircuit, rfl, id, .inl⟩
  succeeds {s} hs _ := by
    obtain ⟨a, circuit, hcircuit, _⟩ := hx s.circuit hs
    exact ⟨a, { s with circuit }, onCircuit_eq_ok.2 ⟨circuit, hcircuit, rfl⟩⟩

/-- What becomes of a synthesis whose circuit alone is not changed. -/
theorem grows_update (f : Synthesis → Synthesis) (hcircuit : ∀ s, (f s).circuit = s.circuit)
    (hpreimages : ∀ s, (f s).preimages = s.preimages) (hslots : ∀ s, (f s).slots = s.slots) :
    Grows (fun s => .ok () (f s) : SynthesisM Unit) where
  extends_ {s a t} _ h := by
    cases h
    exact ⟨hcircuit s ▸ .refl _, hpreimages s, fun h => hslots s ▸ h, fun h => .inl (hslots s ▸ h)⟩
  succeeds {s} _ _ := ⟨(), f s, rfl⟩

theorem grows_onCursor (change : SlotCursor → SlotCursor) : Grows (onCursor change) :=
  grows_update _ (fun _ => rfl) (fun _ => rfl) fun _ => rfl

theorem grows_setGate (gate : Option Combination) : Grows (setGate gate) :=
  grows_update _ (fun _ => rfl) (fun _ => rfl) fun _ => rfl

theorem zeroTest_eq (x : Combination) (s : Synthesis) : zeroTest x s =
    (match s.zeroTests.lookup x.terms with
    | some known => pure known
    | none => do
      let fresh ← onCircuit (Gadget.isZero x)
      modify fun s => { s with zeroTests := (x.terms, fresh) :: s.zeroTests }
      pure fresh : SynthesisM (Combination × Combination)) s := rfl

theorem zeroTest_eq_ok {x : Combination} {s t : Synthesis} {test : Combination × Combination} :
    zeroTest x s = .ok test t ↔ (s.zeroTests.lookup x.terms = some test ∧ t = s) ∨
      (s.zeroTests.lookup x.terms = none ∧ ∃ circuit, Gadget.isZero x s.circuit = .ok test circuit ∧
        t = { s with circuit, zeroTests := (x.terms, test) :: s.zeroTests }) := by
  rw [zeroTest_eq]
  cases hlookup : s.zeroTests.lookup x.terms with
  | some known => simp [pure_eq_ok, eq_comm]
  | none =>
    simp only [reduceCtorEq, false_and, true_and, false_or]
    constructor
    · intro h
      obtain ⟨fresh, u, hfresh, h⟩ := bind_eq_ok.1 h
      obtain ⟨circuit, hcircuit, rfl⟩ := onCircuit_eq_ok.1 hfresh
      cases h
      exact ⟨circuit, hcircuit, rfl⟩
    · rintro ⟨circuit, hcircuit, rfl⟩
      exact bind_eq_ok.2 ⟨test, _, onCircuit_eq_ok.2 ⟨circuit, hcircuit, rfl⟩, rfl⟩

theorem grows_zeroTest (x : Combination) : Grows (zeroTest x) where
  extends_ {s test t} hs h := by
    rcases zeroTest_eq_ok.1 h with ⟨_, rfl⟩ | ⟨_, circuit, hcircuit, rfl⟩
    · exact .refl _
    · exact ⟨(Gadget.grows_isZero x).extends_of_ok hs hcircuit, rfl, id, .inl⟩
  succeeds {s} hs _ := by
    cases hlookup : s.zeroTests.lookup x.terms with
    | some test => exact ⟨test, s, zeroTest_eq_ok.2 (.inl ⟨hlookup, rfl⟩)⟩
    | none =>
      obtain ⟨test, circuit, hcircuit, _⟩ := Gadget.grows_isZero x s.circuit hs
      exact ⟨test, _, zeroTest_eq_ok.2 (.inr ⟨hlookup, circuit, hcircuit, rfl⟩)⟩

/-- A condition is read off the synthesis without changing it, but for a product. -/
theorem condition_eq (c : Option Combination) (s : Synthesis) : condition c s =
    match c, s.gate with
    | none, none => (pure 1 : SynthesisM Combination) s
    | none, some gate => (pure gate : SynthesisM Combination) s
    | some c, none => (pure c : SynthesisM Combination) s
    | some c, some gate => onCircuit (Circuit.mul gate c) s := by
  unfold condition
  change (match c, s.gate with
    | none, none => (pure 1 : SynthesisM Combination)
    | none, some gate => pure gate
    | some c, none => pure c
    | some c, some gate => onCircuit (Circuit.mul gate c)) s = _
  cases c <;> cases s.gate <;> rfl

theorem grows_condition (c : Option Combination) : Grows (condition c) where
  extends_ {s a t} hs h := by
    rw [condition_eq] at h
    split at h
    · exact (Grows.pure _).extends_ hs h
    · exact (Grows.pure _).extends_ hs h
    · exact (Grows.pure _).extends_ hs h
    · exact (grows_onCircuit (Circuit.grows_mul _ _)).extends_ hs h
  succeeds {s} hs hsized := by
    rw [condition_eq]
    split
    · exact ⟨_, _, rfl⟩
    · exact ⟨_, _, rfl⟩
    · exact ⟨_, _, rfl⟩
    · exact (grows_onCircuit (Circuit.grows_mul _ _)).succeeds hs hsized

/-! ## Slots -/

theorem grows_buildSlot (preimage : List Int) : Circuit.Grows (buildSlot preimage) :=
  (Circuit.Grows.mapM Circuit.grows_alloc _).bind fun _ =>
    (Gadget.grows_sponge _).bind fun _ => .pure _

/-- A slot that is built. -/
abbrev builtSlot (key : SlotKey) (preimages : SlotTable) : CircuitM HashSlot :=
  Circuit.within (slotLabel key) (buildSlot (content preimages key))

theorem grows_builtSlot (key : SlotKey) (preimages : SlotTable) :
    Circuit.Grows (builtSlot key preimages) := (grows_buildSlot _).within _

theorem nextSlot_eq (arity : Int) (s : Synthesis) : nextSlot arity s =
    (match s.slots.lookup (s.cursor.next arity).1 with
    | some slot => pure slot
    | none =>
      if ((content s.preimages (s.cursor.next arity).1).length : Int) = preimageSize arity then do
        let slot ← onCircuit (builtSlot (s.cursor.next arity).1 s.preimages)
        modify fun t => { t with slots := ((s.cursor.next arity).1, slot) :: t.slots }
        pure slot
      else throw (.slotSize s.cursor.phase.value arity (s.cursor.used arity)
        (content s.preimages (s.cursor.next arity).1).length (preimageSize arity)) :
      SynthesisM HashSlot) { s with cursor := (s.cursor.next arity).2 } := rfl

/-- A slot is looked up, and built only if it is not there and its witness has the right size. -/
theorem nextSlot_eq_ok {arity : Int} {s t : Synthesis} {slot : HashSlot} :
    nextSlot arity s = .ok slot t ↔
      (s.slots.lookup (s.cursor.next arity).1 = some slot ∧
        t = { s with cursor := (s.cursor.next arity).2 }) ∨
      (s.slots.lookup (s.cursor.next arity).1 = none ∧
        ((content s.preimages (s.cursor.next arity).1).length : Int) = preimageSize arity ∧
        ∃ circuit, builtSlot (s.cursor.next arity).1 s.preimages s.circuit = .ok slot circuit ∧
        t = { s with
          circuit
          cursor := (s.cursor.next arity).2
          slots := ((s.cursor.next arity).1, slot) :: s.slots }) := by
  rw [nextSlot_eq]
  cases hlookup : s.slots.lookup (s.cursor.next arity).1 with
  | some known =>
    dsimp only
    rw [pure_eq_ok]
    simp [eq_comm]
  | none =>
    simp only [reduceCtorEq, false_and, true_and, false_or]
    by_cases hlength :
        ((content s.preimages (s.cursor.next arity).1).length : Int) = preimageSize arity
    · simp only [hlength, if_true, true_and]
      constructor
      · intro h
        obtain ⟨fresh, u, hfresh, h⟩ := bind_eq_ok.1 h
        obtain ⟨circuit, hcircuit, rfl⟩ := onCircuit_eq_ok.1 hfresh
        cases h
        exact ⟨circuit, hcircuit, rfl⟩
      · rintro ⟨circuit, hcircuit, rfl⟩
        exact bind_eq_ok.2 ⟨slot, _, onCircuit_eq_ok.2 ⟨circuit, hcircuit, rfl⟩, rfl⟩
    · simp only [hlength, if_false, false_and, iff_false]
      rintro ⟨⟩

/-- New variables carry what they were made for. -/
theorem mapM_alloc_ok {values : List Int} {s t : Circuit} {xs : List Combination}
    (h : values.mapM Circuit.alloc s = .ok xs t) (hs : s.limit = none) :
    xs.map (·.value) = values.map Field.reduce ∧
      ∀ {ω}, t.Fits ω → ∀ x ∈ xs, x.Faithful ω := by
  induction values generalizing s xs with
  | nil =>
    cases h
    exact ⟨rfl, fun _ _ hx => absurd hx (List.not_mem_nil)⟩
  | cons v values ih =>
    rw [List.mapM_cons] at h
    obtain ⟨y, s', hy, h⟩ := bind_eq_ok.1 h
    obtain ⟨ys, t', hys, h⟩ := bind_eq_ok.1 h
    obtain ⟨rfl, rfl⟩ := pure_eq_ok.1 h
    have grows := Circuit.grows_alloc v
    have hs' := grows.limit_of_ok hs hy
    obtain ⟨hvalues, hfaithful⟩ := ih hys hs'
    have hext := (Circuit.Grows.mapM Circuit.grows_alloc values).extends_of_ok hs' hys
    cases hy
    refine ⟨by rw [List.map_cons, List.map_cons, hvalues]; rfl, fun hfits x hx => ?_⟩
    rcases List.mem_cons.1 hx with rfl | hx
    · exact .ofVariable (Field.reduce_canonical v) (hext.fits hfits _ _ (by simp))
    · exact hfaithful hfits x hx

theorem builtSlot_ok {key : SlotKey} {preimages : SlotTable} {s t : Circuit} {slot : HashSlot}
    (h : builtSlot key preimages s = .ok slot t) (hs : s.limit = none) :
    slot.preimage.map (·.value) = (content preimages key).map Field.reduce ∧
      ∀ {ω}, t.Fits ω → ∀ x ∈ slot.preimage, x.Faithful ω := by
  obtain ⟨u, hbuild, rfl⟩ := Circuit.within_eq_ok.1 h
  obtain ⟨xs, v, hxs, h⟩ := bind_eq_ok.1 hbuild
  obtain ⟨image, w, himage, h⟩ := bind_eq_ok.1 h
  cases h
  have hs : (s.enter (slotLabel key)).limit = none := hs
  obtain ⟨hvalues, hfaithful⟩ := mapM_alloc_ok hxs hs
  have hv := (Circuit.Grows.mapM Circuit.grows_alloc _).limit_of_ok hs hxs
  have hext := (Gadget.grows_sponge xs).extends_of_ok hv himage
  exact ⟨hvalues, fun hfits => hfaithful (hext.fits hfits)⟩

theorem grows_nextSlot (arity : ℕ) : Grows (nextSlot arity) where
  extends_ {s slot t} hs h := by
    rcases nextSlot_eq_ok.1 h with ⟨_, rfl⟩ | ⟨hnone, hlength, circuit, hcircuit, rfl⟩
    · exact ⟨.refl _, rfl, id, .inl⟩
    · refine ⟨(grows_builtSlot _ _).extends_of_ok hs hcircuit, rfl, fun {key known} h => ?_,
        fun {key built} h => ?_⟩
      · rw [List.lookup_cons]
        split
        · rename_i heq
          rw [beq_iff_eq.1 heq, hnone] at h
          cases h
        · exact h
      · rw [List.lookup_cons] at h
        split at h
        · rename_i heq
          obtain rfl := beq_iff_eq.1 heq
          obtain rfl := Option.some.inj h
          obtain ⟨hvalues, hfaithful⟩ := builtSlot_ok hcircuit hs
          refine .inr ⟨?_, hvalues, hfaithful⟩
          rw [← List.length_map (f := (·.value)), hvalues, List.length_map, hlength]
          rfl
        · exact .inl h
  succeeds {s} hs hsized := by
    cases hlookup : s.slots.lookup (s.cursor.next arity).1 with
    | some slot => exact ⟨slot, _, nextSlot_eq_ok.2 (.inl ⟨hlookup, rfl⟩)⟩
    | none =>
      obtain ⟨slot, circuit, hcircuit, _⟩ :=
        grows_builtSlot (s.cursor.next arity).1 s.preimages s.circuit hs
      refine ⟨slot, _, nextSlot_eq_ok.2 (.inr ⟨hlookup, ?_, circuit, hcircuit, rfl⟩)⟩
      unfold content
      cases hwitness : s.preimages.get? (s.cursor.next arity).1 with
      | some preimage => exact hsized hwitness
      | none =>
        rw [Option.getD_none, List.length_replicate]
        change ((preimageSize (arity : Int)).toNat : Int) = preimageSize arity
        unfold preimageSize
        omega

theorem within_eq_ok {x : SynthesisM α} {name : String} {s t : Synthesis} {a : α} :
    within name x s = .ok a t ↔ ∃ u, x { s with circuit := s.circuit.enter name } = .ok a u ∧
      t = { u with circuit := u.circuit.leave } := by
  unfold within
  cases x { s with circuit := s.circuit.enter name } <;> simp [eq_comm]

theorem Grows.within {x : SynthesisM α} (hx : Grows x) (name : String) :
    Grows (Synthesis.within name x) where
  extends_ {s a t} hs h := by
    obtain ⟨u, hrun, rfl⟩ := within_eq_ok.1 h
    have hext : ({ s with circuit := s.circuit.enter name } : Synthesis).Extends u :=
      hx.extends_ hs hrun
    have hscopes : u.circuit.scopes = name :: s.circuit.scopes := hext.circuit.scopes
    have hcircuit : s.circuit.Extends u.circuit.leave :=
      ⟨hext.circuit.limit, hext.circuit.publicCount, by simp [Circuit.leave, hscopes],
        hext.circuit.assignment, hext.circuit.constraints, hext.circuit.labels,
        hext.circuit.labelled, hext.circuit.canonical⟩
    exact ⟨hcircuit, hext.preimages, hext.slots, fun hslot => (hext.carries hslot).imp_right
      fun h => ⟨h.length, h.values, h.faithful⟩⟩
  succeeds {s} hs hsized := by
    obtain ⟨a, t, hrun⟩ := hx.succeeds (s := { s with circuit := s.circuit.enter name }) hs hsized
    exact ⟨a, { t with circuit := t.circuit.leave }, within_eq_ok.2 ⟨t, hrun, rfl⟩⟩

end Synthesis

end FieldLisp
