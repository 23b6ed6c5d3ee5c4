import FieldLisp.Proofs.Circuit.Balance
import FieldLisp.Proofs.Circuit.BuiltFrame
import FieldLisp.Proofs.Circuit.Uniformity

/-!
# The layout of frames

The layout of a frame's circuit is that of every other frame with the same depth of lookups, and no
other depth has this layout:

* `BuildM.adds_build`: what a phase adds to a synthesis;
* `FrameCircuit.Built.sameLayout`: two frames with the same depth lay out the same;
* `FrameCircuit.Built.balance_sub`: each node more that a lookup may inspect takes eleven variables
  more than constraints;
* `FrameCircuit.synthesize_layout`: the depth of a lookup, and nothing else, decides on the layout.
-/

namespace FieldLisp

open EStateM (bind_eq_ok pure_eq_ok)

/-- Flags have the same keys in the same order. -/
theorem flagsRelated_true {κ E₁ E₂ : Type} {as : List (κ × E₁)} {bs : List (κ × E₂)} :
    FlagsRelated (fun _ _ => True) as bs ↔ as.map Prod.fst = bs.map Prod.fst := by
  rw [← List.forall₂_eq_eq_eq, List.forall₂_map_left_iff, List.forall₂_map_right_iff]
  simp only [FlagsRelated, and_true]

namespace BuildM

open Synthesis (Spends Orderly)

/-! ## What phases spend -/

theorem Costs.within {rel : α → β → Prop} {x : BuildM α} {y : CostM β} (h : Costs rel x y)
    (name : String) : Costs rel (BuildM.within name x) y := by
  intro s a t hs hrun
  obtain ⟨u, hx, rfl⟩ := Synthesis.within_eq_ok.1 hrun
  obtain ⟨hrel, hspends⟩ := h { s with circuit := s.circuit.enter name } a u ⟨hs.nodup, hs.length⟩ hx
  exact ⟨hrel, ⟨hspends.orderly.nodup, hspends.orderly.length⟩, hspends.balance, hspends.cursor,
    hspends.keys⟩

theorem costs_selectRule {κ : Type} [BEq κ] (guards : List (κ × Combination)) (fired : κ) :
    Costs (fun selectors _ => selectors.map Prod.fst = guards.map Prod.fst) (selectRule guards fired)
      (CostM.charge (-1 - guards.length) ()) := by
  intro s selectors t hs hrun
  obtain ⟨circuit, hcircuit, rfl⟩ := Synthesis.onCircuit_eq_ok.1 hrun
  obtain ⟨flags, u, hflags, hrun⟩ := bind_eq_ok.1 hcircuit
  obtain ⟨_, v, hforced, hrun⟩ := bind_eq_ok.1 hrun
  cases hrun
  obtain ⟨digits, _, hdigits, hsum⟩ := bind_eq_ok.1 hflags
  obtain ⟨_, _, -, hsum⟩ := bind_eq_ok.1 hsum
  cases hsum
  have hlength : flags.length = guards.length := by
    simpa using EStateM.length_mapM_eq_ok hdigits
  refine ⟨List.map_fst_zip (by simp [hlength]), hs.spends ?_ rfl rfl⟩
  rw [Circuit.Nets.forM (fun _ => Gadget.nets_impliesEqual _ _ _) _ _ _ _ hforced,
    Gadget.nets_oneHot _ _ _ _ _ hflags]
  simp only [List.length_zip, List.length_map, hlength, min_self, CostM.charge]
  ring

section
variable {κ σ σ' : Type} {x : Course BuildM Combination Wire κ σ}
  {y : Course CostM Unit Unit κ σ'} {rel : σ → σ' → Prop} {n : ℕ}
  {produced : Step Combination Wire → List Combination} {target : List Combination}

/-- Reading the state and setting a selector. -/
theorem costs_opening [BEq κ] (h : Course.Related costing rel x y) (fired : κ) :
    Costs (fun p _ => rel p.1 y.read.value ∧ p.2.map Prod.fst = y.opening.value.map Prod.fst)
      (x.select fired)
      (⟨(), y.opening.net - 1 - y.opening.value.length, y.opening.slots⟩ : CostM Unit) := by
  intro s p t hs hrun
  obtain ⟨scope, s₁, hread, hrun⟩ := bind_eq_ok.1 hrun
  obtain ⟨guards, s₂, hguards, hrun⟩ := bind_eq_ok.1 hrun
  obtain ⟨selectors, s₃, hselect, hrun⟩ := bind_eq_ok.1 hrun
  cases hrun
  obtain ⟨hscope, h₁⟩ := h.read _ _ _ hs hread
  obtain ⟨hflags, h₂⟩ := h.guards hscope _ _ _ h₁.orderly hguards
  obtain ⟨hkeys, h₃⟩ := costs_selectRule guards fired _ _ _ h₂.orderly hselect
  refine ⟨⟨hscope, hkeys.trans (flagsRelated_true.1 hflags)⟩, ((h₁.trans h₂).trans h₃).cast ?_ ?_⟩
  · change _ + (-1 - (guards.length : ℤ)) = _
    rw [hflags.length_eq, Course.opening, CostM.net_bind]
    change _ = _ - 1 - (((y.guards y.read.value).value.length : ℕ) : ℤ)
    ring
  · exact List.append_nil _

/-- A rule starts where the rules of the phase begin, whatever was built before it. -/
theorem spends_runRule {body : BuildM (Step Combination Wire)} {cost : CostM (Step Unit Unit)}
    (hbody : Costs costing.step body cost) (hproduced : ∀ o, (produced o).length = n)
    (htarget : target.length = n) {selector : Combination} {label : String} {s t : Synthesis}
    (hs : s.Orderly) (hrun : (runRule label selector body produced target).run s = .ok () t) :
    Spends { s with cursor := s.cursor.rewind } t (cost.net - n) cost.slots := by
  have hrule : Costs (fun _ _ => True) (BuildM.within label do
      setGate (some selector)
      let outcome ← body
      bindAll selector (produced outcome) target)
      (cost >>= fun _ => CostM.charge (-n) ()) := by
    refine .within ?_ label
    intro s a t hs hrun
    obtain ⟨_, s₁, hgate, hrun⟩ := bind_eq_ok.1 hrun
    cases hgate
    obtain ⟨outcome, s₂, hbodyRun, hrun⟩ := bind_eq_ok.1 hrun
    obtain ⟨-, h₁⟩ := hbody { s with gate := some selector } _ _ ⟨hs.nodup, hs.length⟩ hbodyRun
    obtain ⟨-, h₂⟩ := costs_bindAll selector (hproduced outcome) htarget _ _ _ h₁.orderly hrun
    exact ⟨trivial, ⟨(h₁.trans h₂).orderly, (h₁.trans h₂).balance, (h₁.trans h₂).cursor,
      (h₁.trans h₂).keys⟩⟩
  obtain ⟨u, hwithin, rfl⟩ := Synthesis.within_eq_ok.1 hrun
  obtain ⟨_, s₁, hrewind, hrest⟩ := bind_eq_ok.1 hwithin
  cases hrewind
  obtain ⟨-, h⟩ := hrule { s with cursor := s.cursor.rewind } () { u with circuit := u.circuit.leave }
    ⟨hs.nodup, hs.length⟩ (Synthesis.within_eq_ok.2 ⟨u, hrest, rfl⟩)
  exact h.cast (sub_eq_add_neg _ _).symm (List.append_nil _)

/-- What is left of a synthesis by operations that start over from one place on. -/
structure Adds (s t : Synthesis) (net : ℤ) (added : SlotKey → Prop) : Prop where
  orderly : t.Orderly
  balance : t.circuit.balance - t.stock = s.circuit.balance - s.stock + net
  keys : ∀ key, key ∈ t.keys ↔ key ∈ s.keys ∨ added key

theorem spends_rules (hrun : ∀ {scope} (rule : κ), rel scope y.read.value →
      Costs costing.step (x.run rule scope) (y.rule rule)) {scope : σ} (hscope : rel scope y.read.value)
    (hproduced : ∀ o, (produced o).length = n) (htarget : target.length = n) {label : κ → String}
    {selectors : List (κ × Combination)} {guards : List (κ × Unit)}
    (hkeys : selectors.map Prod.fst = guards.map Prod.fst) {s t : Synthesis} (hs : s.Orderly)
    (hforM : (selectors.forM fun p => runRule (label p.1) p.2 (x.run p.1 scope) produced target).run s =
      .ok () t) :
    Adds s t (guards.map fun p => (y.rule p.1).net - n).sum fun key =>
      ∃ p ∈ guards, s.cursor.rewind.Reaches (y.rule p.1).slots key := by
  induction selectors generalizing guards s with
  | nil =>
    obtain rfl : guards = [] := by simpa using hkeys.symm
    cases hforM
    exact ⟨hs, by simp, by simp⟩
  | cons p selectors ih =>
    obtain ⟨rule, selector⟩ := p
    match guards, hkeys with
    | (_, _) :: guards, hkeys =>
      obtain ⟨rfl, hrest⟩ := List.cons_eq_cons.1 hkeys
      obtain ⟨_, u, hfirst, hothers⟩ := bind_eq_ok.1 hforM
      have h := spends_runRule (hrun rule hscope) hproduced htarget hs hfirst
      obtain ⟨horderly, hbalance, hadded⟩ := ih hrest h.orderly hothers
      have hrewind : u.cursor.rewind = s.cursor.rewind := by
        rw [h.cursor]
        rfl
      refine ⟨horderly, ?_, fun key => ?_⟩
      · rw [hbalance, h.balance, List.map_cons, List.sum_cons]
        change s.circuit.balance - s.stock + _ + _ = _
        ring
      · rw [hadded, h.keys, hrewind, List.exists_mem_cons_iff, or_assoc]
        rfl

/-- What a phase adds. -/
theorem adds_build [BEq κ] (h : Course.Related costing rel x y)
    (hproduced : ∀ o, (produced o).length = n) (htarget : target.length = n) {reading : String}
    {label : κ → String} {phase : Phase} {fired : κ} {s t : Synthesis} (hs : s.Orderly)
    (hrun : (x.build reading label phase produced fired target).run s = .ok () t) :
    Adds s t (y.net n) fun key => key.phase = phase ∧ y.Numbers key.arity key.index := by
  obtain ⟨_, _, hphase, hrun⟩ := bind_eq_ok.1 hrun
  cases hphase
  obtain ⟨⟨scope, selectors⟩, s₁, hselect, hrun⟩ := bind_eq_ok.1 hrun
  obtain ⟨_, _, hrules, hrun⟩ := bind_eq_ok.1 hrun
  cases hrules
  obtain ⟨_, s₂, hforM, hrun⟩ := bind_eq_ok.1 hrun
  cases hrun
  obtain ⟨⟨hscope, hkeys⟩, h₁⟩ := (costs_opening h fired).within reading
    { s with cursor := s.cursor.beginPhase phase } _ _ ⟨hs.nodup, hs.length⟩ hselect
  have h₂ := spends_rules (fun rule hscope => h.run rule hscope) hscope hproduced htarget hkeys
    (s := { s₁ with cursor := s₁.cursor.beginRules }) ⟨h₁.orderly.nodup, h₁.orderly.length⟩ hforM
  refine ⟨⟨h₂.orderly.nodup, h₂.orderly.length⟩, ?_, fun key => ?_⟩
  · change s₂.circuit.balance - s₂.stock = _
    rw [h₂.balance]
    change s₁.circuit.balance - s₁.stock + _ = _
    rw [h₁.balance]
    change s.circuit.balance - s.stock + _ + _ = _
    rw [Course.net]
    ring
  · change key ∈ s₂.keys ↔ _
    rw [h₂.keys]
    change key ∈ s₁.keys ∨ (∃ p ∈ y.opening.value, s₁.cursor.beginRules.rewind.Reaches _ key) ↔ _
    rw [h₁.keys, h₁.cursor, or_assoc]
    refine or_congr_right ?_
    simp only [SlotCursor.reaches_beginPhase, SlotCursor.reaches_beginRules, Course.Numbers]
    constructor
    · rintro (⟨hkey, hindex⟩ | ⟨p, hp, hkey, -, hindex⟩)
      · exact ⟨hkey, .inl hindex⟩
      · exact ⟨hkey, .inr ⟨p, hp, hindex⟩⟩
    · rintro ⟨hkey, hindex | ⟨p, hp, hindex⟩⟩
      · exact .inl ⟨hkey, hindex⟩
      · rcases Nat.lt_or_ge key.index (y.opening.slots.count key.arity) with h | h
        · exact .inl ⟨hkey, h⟩
        · exact .inr ⟨p, hp, hkey, h, hindex⟩

end

/-! ## What frames spend -/

theorem costs_alloc (v : Int) : Costs (fun _ _ => True) (alloc v) (CostM.charge 1 () : CostM Unit) :=
  .ofCircuit (Circuit.nets_alloc v) _ fun _ => trivial

theorem costs_allocPointer (p : Pointer) :
    Costs (fun _ _ => True) (allocPointer p) (CostM.charge 5 () : CostM Unit) := by
  refine Costs.cast ((costs_alloc _).bind fun _ _ _ => (costs_alloc _).bind fun _ _ _ =>
    (costs_alloc _).bind fun _ _ _ => (costs_alloc _).bind fun _ _ _ =>
    (costs_alloc _).bind fun _ _ _ => .pure (b := ()) trivial) ?_
  rfl

theorem costs_allocMiddle (state : State) (returned : Bool) :
    Costs costing.step (allocMiddle state returned)
      (CostM.charge 15 ⟨(), (), (), ()⟩ : CostM (Step Unit Unit)) := by
  have hret : Costs (fun _ _ => True)
      (ofCircuit (Gadget.allocBit returned) (Gadget.grows_allocBit returned))
      (CostM.charge 0 () : CostM Unit) := .ofCircuit (Gadget.nets_allocBit returned) _ fun _ => trivial
  refine Costs.cast ((costs_allocPointer _).bind fun _ _ _ => (costs_allocPointer _).bind fun _ _ _ =>
    (costs_allocPointer _).bind fun _ _ _ => hret.bind fun _ _ _ =>
    .pure (b := (⟨(), (), (), ()⟩ : Step Unit Unit)) ⟨trivial, trivial, trivial, trivial⟩) ?_
  rfl

end BuildM

namespace FrameCircuit

open BuildM (costing Adds)

theorem Built.adds {config : Config} {F : Frame} {t : Synthesis} (h : Built config F t) :
    Adds (publicStart F) t
      (15 + (EvalPhase.costs config.lookupDepth).net 16 + ContPhase.costs.net 15) fun key =>
        key.phase = .eval ∧ (EvalPhase.costs config.lookupDepth).Numbers key.arity key.index ∨
          key.phase = .cont ∧ ContPhase.costs.Numbers key.arity key.index := by
  obtain ⟨mid, s₁, hmid, hrest⟩ := bind_eq_ok.1 h.rest_run
  obtain ⟨_, s₂, heval, hcont⟩ := bind_eq_ok.1 hrest
  obtain ⟨hmid', h₁⟩ := (BuildM.costs_allocMiddle _ _).within _ (publicStart F) _ _ ⟨.nil, nofun⟩ hmid
  have hrelated : Course.Related costing costing.evalScope
      (EvalPhase.course config.lookupDepth (Wire.public 1 F.input.expr) (.public 6 F.input.env)
        (.public 11 F.input.cont)) (EvalPhase.costs config.lookupDepth) :=
    Course.related_eval costing _ trivial trivial trivial
  have h₂ := BuildM.adds_build (n := 16) hrelated (fun _ => rfl) rfl h₁.orderly heval
  have h₃ := BuildM.adds_build (n := 15) (Course.related_cont costing hmid') (fun _ => rfl) rfl h₂.orderly
    hcont
  refine ⟨h₃.orderly, ?_, fun key => ?_⟩
  · rw [h₃.balance, h₂.balance, h₁.balance, CostM.charge]
    push_cast
    ring
  · rw [h₃.keys, h₂.keys, h₁.keys, or_assoc, or_assoc, CostM.charge]
    simp only [SlotCursor.reaches_nil, false_or]

/-- Whether a slot is for a node of an environment that a lookup inspects. -/
def ForLookup (key : SlotKey) : Prop := key.phase = .eval ∧ key.arity = 3

instance (key : SlotKey) : Decidable (ForLookup key) := inferInstanceAs (Decidable (_ ∧ _))

section
variable {config config' : Config} {F G : Frame} {s t : Synthesis}

theorem Built.mem_keys_lookup (h : Built config F s) {key : SlotKey} (hkey : ForLookup key) :
    key ∈ s.keys ↔ key.index < config.lookupDepth + 2 := by
  obtain ⟨hphase, harity⟩ := hkey
  rw [h.adds.keys, EvalPhase.numbers_course, if_pos harity]
  simp [hphase, publicStart, Synthesis.start, Synthesis.keys]

/-- Other slots are the same for all frames. -/
theorem Built.mem_keys_iff (hs : Built config F s) (ht : Built config' G t) {key : SlotKey}
    (hkey : ¬ForLookup key) : key ∈ s.keys ↔ key ∈ t.keys := by
  rw [hs.adds.keys, ht.adds.keys]
  refine or_congr Iff.rfl (or_congr (and_congr_right fun hphase => ?_) Iff.rfl)
  have harity : key.arity ≠ 3 := fun harity => hkey ⟨hphase, harity⟩
  rw [EvalPhase.numbers_course, if_neg harity, EvalPhase.numbers_course config'.lookupDepth,
    if_neg harity]

theorem Built.stock_sub (hs : Built config F s) (ht : Built config' G t) :
    s.stock - t.stock = 16 * (config.lookupDepth - config'.lookupDepth) := by
  let size (key : SlotKey) : ℤ := preimageSize key.arity
  have hsplit {config : Config} {F : Frame} {s : Synthesis} (h : Built config F s) : s.stock =
      16 * (config.lookupDepth + 2) + ∑ key ∈ s.keys.toFinset with ¬ForLookup key, size key := by
    have hlookup : s.keys.toFinset.filter ForLookup =
        (Finset.range (config.lookupDepth + 2)).image fun index => ⟨.eval, 3, index⟩ := by
      ext ⟨phase, arity, index⟩
      simp only [Finset.mem_filter, List.mem_toFinset, Finset.mem_image, Finset.mem_range,
        SlotKey.mk.injEq]
      constructor
      · rintro ⟨hmem, hkey⟩
        exact ⟨index, (h.mem_keys_lookup hkey).1 hmem, hkey.1.symm, hkey.2.symm, rfl⟩
      · rintro ⟨_, hindex, rfl, rfl, rfl⟩
        exact ⟨(h.mem_keys_lookup ⟨rfl, rfl⟩).2 hindex, rfl, rfl⟩
    have hinjective : Function.Injective fun index : ℕ => (⟨.eval, 3, index⟩ : SlotKey) :=
      fun _ _ h => (SlotKey.mk.inj h).2.2
    rw [Synthesis.stock, ← List.sum_toFinset size h.adds.orderly.nodup,
      ← Finset.sum_filter_add_sum_filter_not _ ForLookup, hlookup,
      Finset.sum_image hinjective.injOn]
    simp [size, preimageSize]
    ring
  have hothers : s.keys.toFinset.filter (¬ForLookup ·) = t.keys.toFinset.filter (¬ForLookup ·) := by
    ext key
    simp only [Finset.mem_filter, List.mem_toFinset]
    exact and_congr_left fun hkey => hs.mem_keys_iff ht hkey
  rw [hsplit hs, hsplit ht, hothers]
  ring

theorem sameLayout_publicStart (hF : F.Sized) (hG : G.Sized) (ω₁ ω₂ : Valuation) :
    (publicStart F).SameLayout ω₁ ω₂ (publicStart G) := by
  have hlengths : F.input.elements.length + F.output.elements.length =
      G.input.elements.length + G.output.elements.length := by
    rw [length_elements hF.input, length_elements hF.output, length_elements hG.input,
      length_elements hG.output]
  refine ⟨⟨rfl, rfl, ?_, ?_, rfl, rfl, rfl, rfl⟩, rfl, .none, fun _ => .none, fun _ => .none⟩
  · simpa [publicStart, Synthesis.start, publicCircuit, withPublic, Circuit.empty] using hlengths
  · simpa [publicStart, Synthesis.start, publicCircuit, withPublic, Circuit.empty] using hlengths

theorem alike_public {ω₁ ω₂ : Valuation} {first : ℕ} {p q : Pointer}
    (h : ∀ x ∈ (Wire.public first p).elements, x.Faithful ω₁)
    (h' : ∀ x ∈ (Wire.public first q).elements, x.Faithful ω₂) :
    Wire.Alike ω₁ ω₂ (.public first p) (.public first q) := by
  simp only [Wire.elements, Digest.toList, List.forall_mem_cons] at h h'
  obtain ⟨htag, h0, h1, h2, h3, -⟩ := h
  obtain ⟨htag', h0', h1', h2', h3', -⟩ := h'
  exact ⟨⟨rfl, htag, htag'⟩, ⟨rfl, h0, h0'⟩, ⟨rfl, h1, h1'⟩, ⟨rfl, h2, h2'⟩, ⟨rfl, h3, h3'⟩⟩

/-- Public variables of two states are alike. -/
theorem alike_publicState {ω₁ ω₂ : Valuation} {first : ℕ} {x y : State}
    (h : ∀ c ∈ (publicState first x).elements, c.Faithful ω₁)
    (h' : ∀ c ∈ (publicState first y).elements, c.Faithful ω₂) :
    Wire.Alike ω₁ ω₂ (.public first x.expr) (.public first y.expr) ∧
      Wire.Alike ω₁ ω₂ (.public (first + 5) x.env) (.public (first + 5) y.env) ∧
      Wire.Alike ω₁ ω₂ (.public (first + 10) x.cont) (.public (first + 10) y.cont) := by
  simp only [publicState, StateWire.elements, List.forall_mem_append] at h h'
  exact ⟨alike_public h.1.1 h'.1.1, alike_public h.1.2 h'.1.2, alike_public h.2 h'.2⟩

/-- Two frames lay out the same, if lookups may be of the same depth. -/
theorem Built.sameLayout (hs : Built config F s) (ht : Built config' G t)
    (hdepth : config.lookupDepth = config'.lookupDepth) : s.circuit.SameLayout t.circuit := by
  have hfits := Circuit.fits_ofAssignment hs.assignment_one
  have hfits' := Circuit.fits_ofAssignment ht.assignment_one
  obtain ⟨hexpr, henv, hcont⟩ := alike_publicState (hs.bears_input hfits).faithful
    (ht.bears_input hfits').faithful
  obtain ⟨hexpr', henv', hcont'⟩ := alike_publicState (hs.bears_output hfits).faithful
    (ht.bears_output hfits').faithful
  have houtput := List.rel_append (List.rel_append hexpr'.elements henv'.elements) hcont'.elements
  exact (BuildM.uniform_frame hdepth F G hexpr henv hcont houtput _ _ _ _ _ _
    (sameLayout_publicStart hs.sized ht.sized _ _) hs.rest_run ht.rest_run hfits hfits').2.circuit

/-- Each node more that a lookup may inspect takes eleven variables more than constraints. -/
theorem Built.balance_sub (hs : Built config F s) (ht : Built config' G t) :
    s.circuit.balance - t.circuit.balance = 11 * (config.lookupDepth - config'.lookupDepth) := by
  have hstart : (publicStart F).circuit.balance = (publicStart G).circuit.balance := by
    have hlayout := (sameLayout_publicStart hs.sized ht.sized (.ofAssignment #[]) (.ofAssignment #[])).circuit
    rw [Circuit.balance, Circuit.balance, hlayout.size, hlayout.constraints]
  have hbalance := hs.adds.balance
  have hbalance' := ht.adds.balance
  have hstock := hs.stock_sub ht
  rw [EvalPhase.net_course] at hbalance hbalance'
  rw [hstart] at hbalance
  have hempty (F : Frame) : (publicStart F).stock = 0 := rfl
  rw [hempty] at hbalance hbalance'
  omega

/-- Circuits of frames differ in nothing but their values, whatever the frames are, if lookups may be
of the same depth; and no two depths have the same layout. -/
theorem synthesize_layout (hlimit : config.maxConstraints = none)
    (hlimit' : config'.maxConstraints = none) (hF : F.Sized) (hG : G.Sized)
    (hslots : Synthesis.Sized F.slots) (hslots' : Synthesis.Sized G.slots) :
    ∃ x y, synthesize config F = .ok x ∧ synthesize config' G = .ok y ∧
      (config.lookupDepth = config'.lookupDepth → x.assignment.size = y.assignment.size ∧
        x.publicCount = y.publicCount ∧ x.constraints = y.constraints ∧ x.labels = y.labels) ∧
      (config.lookupDepth ≠ config'.lookupDepth →
        x.assignment.size ≠ y.assignment.size ∨ x.constraints ≠ y.constraints) := by
  obtain ⟨s, hs⟩ := exists_built config hF hslots
  obtain ⟨t, ht⟩ := exists_built config' hG hslots'
  refine ⟨s.circuit, t.circuit, hs.synthesize_eq hlimit, ht.synthesize_eq hlimit', fun hdepth => ?_,
    fun hdepth => ?_⟩
  · have h := hs.sameLayout ht hdepth
    exact ⟨h.size, h.publicCount, h.constraints, h.labels⟩
  · by_contra! h
    have hbalance := hs.balance_sub ht
    rw [Circuit.balance, Circuit.balance, h.1, h.2] at hbalance
    omega

/-- A frame that goes nowhere and claims to follow the rules given. -/
def idleFrame (rule : EvalRule) (returnRule : ContRule) (returned : Bool) : Frame :=
  ⟨.initial .nil .nil, .initial .nil .nil, rule, returnRule, .initial .nil .nil, returned, [], []⟩

theorem idleFrame_sized (rule : EvalRule) (returnRule : ContRule) (returned : Bool) :
    (idleFrame rule returnRule returned).Sized := by
  have h : (State.initial .nil .nil).Sized := by
    simp only [State.Sized, State.pointers, State.initial]
    decide
  exact ⟨h, h, h⟩

/-- Frames of different rules have one layout, and a deeper lookup has another. -/
theorem synthesize_layout_idle : ∃ x y z,
    synthesize .standard (idleFrame .terminal .pass false) = .ok x ∧
      synthesize .standard (idleFrame .apply .binary2 true) = .ok y ∧
      x.constraints = y.constraints ∧ x.labels = y.labels ∧
      synthesize ⟨5, none, none, by decide⟩ (idleFrame .apply .binary2 true) = .ok z ∧
      (x.assignment.size ≠ z.assignment.size ∨ x.constraints ≠ z.constraints) := by
  have hframe := idleFrame_sized .terminal .pass false
  have hother := idleFrame_sized .apply .binary2 true
  obtain ⟨x, y, hx, hy, hsame, -⟩ := @synthesize_layout .standard .standard _ _ rfl rfl hframe hother
    nofun nofun
  obtain ⟨x', z, hx', hz, -, hdeeper⟩ := @synthesize_layout .standard ⟨5, none, none, by decide⟩ _ _
    rfl rfl hframe hother nofun nofun
  obtain rfl := Except.ok.inj (hx.symm.trans hx')
  obtain ⟨-, -, hconstraints, hlabels⟩ := hsame rfl
  exact ⟨x, y, z, hx, hy, hconstraints, hlabels, hz, hdeeper (by decide)⟩

end

end FrameCircuit

end FieldLisp
