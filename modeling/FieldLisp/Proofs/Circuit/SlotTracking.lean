import FieldLisp.Proofs.Circuit.OperationTracking

/-!
# Hash slots track the marked model

Where an operation is on, the slot that it uses can only hold the node that the marked model finds:
honest witnesses are the recorded ones, and other witnesses open no digest in two ways.

* `tracks_hash`, `tracks_unhash`: operations that use a slot;
* `Setting.Judges.tracking`: rules that are built track rules that are run in the marked model.
-/

namespace FieldLisp

open FieldLisp.Field (Element)
open EStateM (bind_eq_ok pure_eq_ok)

section
variable {c : Setting} {ω₀ ω : Valuation} {known : List Int → Prop}

/-! ## Conditions -/

/-- The condition under which an operation of the running rule binds. -/
structure Binds (c : Setting) (ω₀ ω : Valuation) (d : Option (Marked Int)) (k : Combination) :
    Prop where
  faithful : k.Faithful ω₀
  on : c.on d = true → k.under ω = 1
  off : c.honest = true → c.on d = false → k.under ω = 0

theorem tells_condition (hjudges : c.Judges ω₀ ω known) {k : Option Combination}
    {d : Option (Marked Int)} (h : Option.Rel (ElementTracks ω₀ ω) k d) (hadmits : c.Admits d) :
    Tells c ω₀ ω known (.condition k) (Binds c ω₀ ω d) := by
  -- What a condition is worth where the rule is the selected one.
  have flag {x : Combination} {a : Marked Int} (hx : ElementTracks ω₀ ω x a)
      (ha : c.Admits (some a)) (hgate : c.gate = true) : Binds c ω₀ ω (some a) x := by
    have hon : c.on (some a) = (a.value != 0) := by simp [Setting.on, hgate]
    rcases ha hgate a rfl with ⟨hvalue, hsure⟩ | ⟨hvalue, hsure⟩
    · refine ⟨hx.faithful, fun hon' => ?_, fun hhonest _ => ?_⟩
      · simp [hon, hvalue] at hon'
      · simp [hx.under_eq (hsure hhonest), hvalue]
    · refine ⟨hx.faithful, fun _ => ?_, fun _ hoff => ?_⟩
      · simp [hx.under_eq hsure, hvalue]
      · simp [hon, hvalue] at hoff
  intro s W r t hlawful hmatches hrun hfits
  -- The condition is that of another operation, by the case that the synthesis is in.
  have same {x : BuildM Combination} (hx : x.run s = Synthesis.condition k s)
      (htells : Tells c ω₀ ω known x (Binds c ω₀ ω d)) :=
    htells s W r t hlawful hmatches (hx.trans hrun) hfits
  cases h with
  | none =>
    cases hgate : s.gate with
    | none =>
      refine same (x := pure 1) (by rw [Synthesis.condition_eq, hgate]; rfl)
        (.pure ⟨.one, fun _ => ?_, fun _ hoff => ?_⟩)
      · simp
      · simp [Setting.on, hmatches.ungated hgate] at hoff
    | some g =>
      obtain ⟨hg, hunder⟩ := hmatches.gated hgate
      refine same (x := pure g) (by rw [Synthesis.condition_eq, hgate]; rfl)
        (.pure ⟨hg, fun hon => ?_, fun _ hoff => ?_⟩)
      · rw [hunder, if_pos (by simpa [Setting.on] using hon)]
      · rw [hunder, if_neg (by simpa [Setting.on] using hoff)]
  | @some x a hx =>
    cases hgate : s.gate with
    | none =>
      exact same (x := pure x) (by rw [Synthesis.condition_eq, hgate]; rfl)
        (.pure (flag hx hadmits (hmatches.ungated hgate)))
    | some g =>
      obtain ⟨hg, hunder⟩ := hmatches.gated hgate
      refine same (x := .mul g x) (by rw [Synthesis.condition_eq, hgate]; rfl)
        ((tells_mul hjudges hg hx.faithful).mono fun k ⟨hk, _, hproduct⟩ => ?_)
      by_cases hc : c.gate = true
      · rw [hunder, if_pos hc, one_mul] at hproduct
        have hbinds := flag hx hadmits hc
        exact ⟨hk, fun hon => hproduct.trans (hbinds.on hon),
          fun hhonest hoff => hproduct.trans (hbinds.off hhonest hoff)⟩
      · rw [hunder, if_neg hc, zero_mul] at hproduct
        refine ⟨hk, fun hon => ?_, fun _ _ => hproduct⟩
        simp [Setting.on, hc] at hon

/-- What a condition carries under the own valuation. -/
theorem Binds.value_eq {d : Option (Marked Int)} {k : Combination} (h : Binds c ω₀ ω d k)
    (hown : ω = ω₀) : (c.on d = true → k.value = 1) ∧
      (c.honest = true → c.on d = false → k.value = 0) := by
  subst hown
  refine ⟨fun hon => h.faithful.value_eq Field.canonical_one ?_, fun hhonest hoff => ?_⟩
  · rw [h.on hon, Int.cast_one]
  · exact h.faithful.value_eq_zero.2 (h.off hhonest hoff)

theorem tracks_divRem (hjudges : c.Judges ω₀ ω known) {x y : Combination} {a b : Marked Int}
    {k : Option Combination} {d : Option (Marked Int)} (hx : ElementTracks ω₀ ω x a)
    (hy : ElementTracks ω₀ ω y b) (hk : Option.Rel (ElementTracks ω₀ ω) k d) :
    Tracks c ω₀ ω known (fun r s => ElementTracks ω₀ ω r.1 s.1 ∧ ElementTracks ω₀ ω r.2 s.2)
      (.divRem x y k) (MarkM.require (MarkM.MayDivide c a b d) (MarkM.divided c a b d)) := by
  refine .require fun ⟨hadmits, hoperands⟩ => ?_
  have bounded {m : Int} (hnonneg : 0 ≤ m) (hlt : m < 2 ^ divisionBits) : Field.Canonical m :=
    ⟨hnonneg, hlt.trans (by decide)⟩
  have tells : Tells c ω₀ ω known (.divRem x y k) fun r => ∃ k', Binds c ω₀ ω d k' ∧
      (r.1.Faithful ω₀ ∧ r.1.value = Field.reduce
        (if k'.value ≠ 0 ∧ y.value ≠ 0 then x.value.fdiv y.value else 0)) ∧
      r.2.Faithful ω₀ ∧ r.2.value = Field.reduce
        (if k'.value ≠ 0 ∧ y.value ≠ 0 then x.value.fmod y.value else 0) := by
    refine (tells_condition hjudges hk hadmits).bind fun k' hk' => ?_
    refine (tells_ofCircuit _ (Gadget.meets_divRem hk'.faithful hx.faithful
      hy.faithful) fun hhonest => ?_).mono fun r hr => ⟨k', hk', hr⟩
    have hown := hjudges.honest hhonest
    refine ⟨hown, ?_⟩
    cases hon : c.on d with
    | false => exact .inl ((hk'.value_eq hown).2 hhonest hon)
    | true =>
      obtain ⟨_, ha, hb, hlt, hpos, hlt'⟩ := hoperands hon
      rw [hx.value_eq ha hown, hy.value_eq hb hown, (hk'.value_eq hown).1 hon]
      exact Gadget.mayDivide_one (bounded hpos.le hlt') hlt hpos hlt'
  refine tells.tracks fun r ⟨k', hk', ⟨hquotient, hqvalue⟩, hremainder, hrvalue⟩ => ?_
  unfold MarkM.divided
  cases hon : c.on d with
  | false =>
    have hzero (hhonest : c.honest = true) : k'.value = 0 :=
      (hk'.value_eq (hjudges.honest hhonest)).2 hhonest hon
    refine ⟨⟨hquotient, Field.canonical_zero, fun hhonest => ?_⟩,
      ⟨hremainder, Field.canonical_zero, fun hhonest => ?_⟩⟩
    · rw [hjudges.honest hhonest, hquotient.under_eq, hqvalue]
      simp [hzero hhonest]
    · rw [hjudges.honest hhonest, hremainder.under_eq, hrvalue]
      simp [hzero hhonest]
  | true =>
    obtain ⟨_, ha, hb, hlt, hpos, hlt'⟩ := hoperands hon
    have hnonneg := hx.canonical.1
    have hdiv : a.value.fdiv b.value = a.value / b.value := Int.fdiv_eq_ediv_of_nonneg _ hpos.le
    have hmod : a.value.fmod b.value = a.value % b.value := Int.fmod_eq_emod_of_nonneg _ hpos.le
    have hq : Field.Canonical (a.value.fdiv b.value) := by
      rw [hdiv]
      exact bounded (Int.ediv_nonneg hnonneg hpos.le) ((Int.ediv_le_self _ hnonneg).trans_lt hlt)
    have hr : Field.Canonical (a.value.fmod b.value) := by
      rw [hmod]
      exact bounded (Int.emod_nonneg _ hpos.ne') ((Int.emod_lt_of_pos _ hpos).trans hlt')
    -- The own valuation carries the operands, and the condition is one.
    have carried (hsigns : c.signs = true) :
        k'.value = 1 ∧ x.value = a.value ∧ y.value = b.value := by
      have hown := hjudges.signs hsigns
      exact ⟨(hk'.value_eq hown).1 hon, hx.value_eq ha hown, hy.value_eq hb hown⟩
    refine ⟨⟨hquotient, hq, fun hsigns => ?_⟩, ⟨hremainder, hr, fun hsigns => ?_⟩⟩
    · obtain ⟨hk1, hxa, hyb⟩ := carried hsigns
      rw [hjudges.signs hsigns, hquotient.under_eq, hqvalue, hk1, hxa, hyb,
        if_pos ⟨one_ne_zero, hpos.ne'⟩, Field.cast_reduce]
      rfl
    · obtain ⟨hk1, hxa, hyb⟩ := carried hsigns
      rw [hjudges.signs hsigns, hremainder.under_eq, hrvalue, hk1, hxa, hyb,
        if_pos ⟨one_ne_zero, hpos.ne'⟩, Field.cast_reduce]
      rfl

/-! ## Slots -/

theorem meets_buildSlot (preimage : List Int) :
    Circuit.Meets ω₀ ω (ω = ω₀) (Synthesis.buildSlot preimage) fun slot =>
      List.Forall₂ (Combination.Reads ω₀ ω) slot.image.toList
        (Sponge.hash (slot.reading ω)).toList := by
  refine (Circuit.Meets.mapM (fun _ x => x.Faithful ω₀) Circuit.grows_alloc
    fun v _ => ((Circuit.meets_alloc v).mono id fun _ hx => hx.1)).bind
    (.mapM Circuit.grows_alloc _) (fun _ => (Gadget.grows_sponge _).bind fun _ => .pure _)
    fun xs hxs => ?_
  have reads : List.Forall₂ (Combination.Reads ω₀ ω) xs
      (xs.map fun x => Field.representative (x.under ω)) := by
    refine List.forall₂_map_right_iff.2 (List.forall₂_same.2 fun x hx => ⟨?_, by simp⟩)
    obtain ⟨i, hi, rfl⟩ := List.getElem_of_mem hx
    exact hxs.get (hxs.length_eq ▸ hi) hi
  exact (Gadget.meets_sponge reads).bind (Gadget.grows_sponge _) (fun _ => .pure _)
    fun image himage => .pure himage

/-- Where the next slot is built or looked up, it is lawful, and the phase goes past it. -/
theorem tells_nextSlot (hjudges : c.Judges ω₀ ω known) {arity : ℕ} {s t : Synthesis}
    {W : MarkWorld} {slot : HashSlot} (hlawful : Lawful ω₀ ω s)
    (hmatches : Matches c ω₀ ω known s W) (h : (BuildM.nextSlot arity).run s = .ok slot t)
    (hfits : t.circuit.Fits ω₀) :
    (c.honest = true → s.circuit.Satisfied ω → t.circuit.Satisfied ω) ∧
    (t.circuit.Satisfied ω → t.slots.lookup (W.key arity) = some slot ∧ Lawful ω₀ ω t ∧
      Matches c ω₀ ω known t (W.skip arity)) := by
  have matches_skip {t : Synthesis} (hcursor : t.cursor = (s.cursor.next arity).2)
      (hgate : t.gate = s.gate) : Matches c ω₀ ω known t (W.skip arity) := by
    refine ⟨by rw [hcursor, hmatches.cursor]; rfl, hmatches.sound, hgate ▸ hmatches.ungated,
      hgate ▸ hmatches.gated, hmatches.nodes, fun hc key ⟨hphase, hused⟩ => ?_⟩
    exact hmatches.free hc ⟨hphase, (W.used_next arity key.arity).trans hused⟩
  have hkey : (s.cursor.next arity).1 = W.key arity := by rw [hmatches.cursor]; rfl
  rcases Synthesis.nextSlot_eq_ok.1 h with ⟨hknown, rfl⟩ | ⟨hnone, hlength, circuit, hbuilt, rfl⟩
  · refine ⟨fun _ => id, fun _ => ⟨hkey ▸ hknown, ?_, matches_skip rfl rfl⟩⟩
    exact ⟨hlawful.limit, hlawful.zeroTests, hlawful.slots⟩
  · have meets : Circuit.Meets ω₀ ω (ω = ω₀)
        (Synthesis.builtSlot (s.cursor.next arity).1 s.preimages) _ := (meets_buildSlot _).within _
    obtain ⟨hkeep, himage⟩ := meets s.circuit slot circuit hlawful.limit hbuilt hfits
    obtain ⟨hvalues, hfaithful⟩ := Synthesis.builtSlot_ok hbuilt hlawful.limit
    refine ⟨fun hhonest => hkeep (hjudges.honest hhonest), fun hsat => ⟨?_, ?_, matches_skip rfl rfl⟩⟩
    · rw [← hkey]
      simp
    · have law : SlotLaw ω₀ ω s.preimages (s.cursor.next arity).1 slot := by
        refine ⟨?_, hvalues, hfaithful hfits, himage hsat⟩
        rw [← List.length_map (f := (·.value)), hvalues, List.length_map, hlength]
        rfl
      refine ⟨(Synthesis.grows_builtSlot _ _).limit_of_ok hlawful.limit hbuilt, hlawful.zeroTests,
        fun {key known} hlookup => ?_⟩
      rw [List.lookup_cons] at hlookup
      split at hlookup
      · rename_i heq
        obtain rfl := beq_iff_eq.1 heq
        obtain rfl := Option.some.inj hlookup
        exact law
      · exact hlawful.slots hlookup

/-- Numbers that the variables of a slot are worth are what they read. -/
theorem reading_eq {slot : HashSlot} {numbers : List Int}
    (hnumbers : ∀ n ∈ numbers, Field.Canonical n)
    (h : worth ω slot.preimage = classes numbers) : slot.reading ω = numbers := by
  refine classes_inj (fun n hn => ?_) hnumbers ?_
  · simp only [HashSlot.reading, List.mem_map] at hn
    obtain ⟨x, _, rfl⟩ := hn
    exact Field.representative_canonical _
  · rw [← h, HashSlot.reading, classes, worth, List.map_map]
    exact List.map_congr_left fun x _ => Field.cast_representative _

/-- An honest slot is worth its witness. -/
theorem SlotLaw.worth_eq {preimages : SlotTable} {key : SlotKey} {slot : HashSlot}
    (h : SlotLaw ω₀ ω preimages key slot) (hown : ω = ω₀) :
    worth ω slot.preimage = classes (Synthesis.content preimages key) := by
  subst hown
  have hvalues := congrArg classes h.values
  simp only [classes, List.map_map] at hvalues
  have hreduce : (Int.cast ∘ Field.reduce : Int → Element) = Int.cast :=
    funext fun n => Field.cast_reduce n
  rw [hreduce] at hvalues
  rw [classes, ← hvalues, worth]
  exact List.map_congr_left fun x hx => (h.faithful x hx).under_eq

theorem agree_iff {xs ys : List Combination} (h : xs.length = ys.length) :
    Gadget.Agree ω xs ys ↔ worth ω xs = worth ω ys := by
  induction xs generalizing ys with
  | nil =>
    cases ys with
    | nil => simp [Gadget.Agree, worth]
    | cons y ys => simp at h
  | cons x xs ih =>
    cases ys with
    | nil => simp at h
    | cons y ys =>
      have ih := @ih ys (by simpa using h)
      simp only [Gadget.Agree, worth] at ih ⊢
      rw [List.zip_cons_cons, List.forall_mem_cons, ih, List.map_cons, List.map_cons,
        List.cons.injEq]

theorem canonical_elements {p : Pointer} (hp : p.Canonical) :
    ∀ x ∈ p.elements, Field.Canonical x := by
  simpa [Pointer.elements, Tag.value_canonical] using hp.2

theorem canonical_nodePreimage (tag : Tag) {cs : List Pointer} (hcs : ∀ p ∈ cs, p.Canonical) :
    ∀ x ∈ nodePreimage tag cs, Field.Canonical x := by
  simp only [nodePreimage, List.mem_cons, List.mem_flatMap, forall_eq_or_imp, Tag.value_canonical,
    true_and]
  rintro x ⟨p, hp, hx⟩
  exact canonical_elements (hcs p hp) x hx

theorem length_nodePreimage (tag : Tag) {cs : List Pointer} (hcs : ∀ p ∈ cs, p.Canonical) :
    (nodePreimage tag cs).length = 1 + 5 * cs.length := by
  have : (cs.flatMap Pointer.elements).length = 5 * cs.length := by
    induction cs with
    | nil => rfl
    | cons p cs ih =>
      simp only [List.mem_cons, forall_eq_or_imp] at hcs
      rw [List.flatMap_cons, List.length_append, hcs.1.1, ih hcs.2, List.length_cons, pointerSize]
      ring
  rw [nodePreimage, List.length_cons, this]
  ring

/-- What variables read is what they are worth. -/
theorem classes_reading (slot : HashSlot) : classes (slot.reading ω) = worth ω slot.preimage := by
  rw [HashSlot.reading, classes, worth, List.map_map]
  exact List.map_congr_left fun x _ => Field.cast_representative _

/-- What a digest in a circuit is worth. -/
theorem SlotLaw.worth_image {preimages : SlotTable} {key : SlotKey} {slot : HashSlot}
    (h : SlotLaw ω₀ ω preimages key slot) :
    worth ω slot.image.toList = classes (Sponge.hash (slot.reading ω)).toList := by
  have himage := h.image
  generalize slot.image.toList = xs at himage
  generalize (Sponge.hash (slot.reading ω)).toList = ns at himage
  induction himage with
  | nil => rfl
  | cons hread _ ih =>
    simp only [worth, classes] at ih ⊢
    rw [List.map_cons, List.map_cons, ih, hread.under_eq]

theorem SlotLaw.faithful_image {preimages : SlotTable} {key : SlotKey} {slot : HashSlot}
    (h : SlotLaw ω₀ ω preimages key slot) : ∀ x ∈ slot.image.toList, x.Faithful ω₀ := by
  intro x hx
  obtain ⟨i, hi, rfl⟩ := List.getElem_of_mem hx
  exact (h.image.get hi (h.image.length_eq ▸ hi)).faithful

/-- Wires whose elements are worth those of pointers. -/
theorem worth_flatMap {ws : List Wire} {ps : List MarkedPointer}
    (h : List.Forall₂ (WireTracks ω₀ ω) ws ps) (hsure : ∀ p ∈ ps, p.sure = true) :
    worth ω (ws.flatMap Wire.elements) = classes ((ps.map (·.value)).flatMap Pointer.elements) := by
  induction h with
  | nil => rfl
  | cons hw _ ih =>
    simp only [List.mem_cons, forall_eq_or_imp] at hsure
    simp only [worth, classes] at ih ⊢
    rw [List.flatMap_cons, List.map_append, ih hsure.2, List.map_cons, List.flatMap_cons,
      List.map_append]
    exact congrArg (· ++ _) (hw.worth_eq hsure.1)

/-- Pointers that a slot holds, of which all or none are sure. -/
theorem forall₂_ofElements {sure : Bool} {ps : List Pointer} {notPair : ℕ → Bool}
    {xs : List Combination} (hxs : ∀ x ∈ xs, x.Faithful ω₀) (hlength : xs.length = 5 * ps.length)
    (hps : ∀ p ∈ ps, p.Canonical)
    (hsure : sure = true → worth ω xs = classes (ps.flatMap Pointer.elements))
    (hnot : ∀ {i x p}, notPair i = true → xs[5 * i]? = some x → ps[i]? = some p →
      x.under ω ≠ 1 ∧ p.tag ≠ .cons) :
    List.Forall₂ (WireTracks ω₀ ω) (Wire.ofElements xs)
      (ps.mapIdx fun i p => ⟨p, sure, notPair i⟩) := by
  induction ps generalizing xs notPair with
  | nil =>
    obtain rfl := List.length_eq_zero_iff.1 hlength
    exact .nil
  | cons p ps ih =>
    rw [List.length_cons] at hlength
    match xs, hlength with
    | t :: d0 :: d1 :: d2 :: d3 :: rest, hlength =>
      simp only [List.mem_cons, forall_eq_or_imp] at hxs hps
      obtain ⟨ht, h0, h1, h2, h3, hrest⟩ := hxs
      rw [Wire.ofElements, List.mapIdx_cons]
      have hparts (h : sure = true) : worth ω [t, d0, d1, d2, d3] = classes p.elements ∧
          worth ω rest = classes (ps.flatMap Pointer.elements) := by
        have happend := hsure h
        rw [List.flatMap_cons, classes, List.map_append] at happend
        refine List.append_inj
          (show worth ω [t, d0, d1, d2, d3] ++ worth ω rest = _ from happend) ?_
        rw [worth, classes, List.length_map, List.length_map, hps.1.1]
        rfl
      refine .cons ⟨?_, hps.1, fun h => (hparts h).1, fun h => ?_⟩ (ih hrest ?_ hps.2
        (fun h => (hparts h).2) fun {i x q} h hx hq => hnot h ?_ ?_)
      · simp [Wire.elements, Digest.toList, ht, h0, h1, h2, h3]
      · exact hnot h rfl rfl
      · simp only [List.length_cons] at hlength
        omega
      · rw [show 5 * (i + 1) = 5 * i + 5 by ring]
        simpa using hx
      · simpa using hq

/-! ## Nodes -/

/-- Building a node: its slot is bound to what the node is made of. -/
theorem tells_bindNode (hjudges : c.Judges ω₀ ω known) {k : Option Combination}
    {d : Option (Marked Int)} (hk : Option.Rel (ElementTracks ω₀ ω) k d) (hadmits : c.Admits d)
    (slot : HashSlot) (tag : Combination) (elements : List Combination)
    (hhonest : c.honest = true → c.on d = true → Gadget.Agree ω slot.preimage elements) :
    Tells c ω₀ ω known (do
      let k ← BuildM.condition k
      BuildM.bindAll k slot.preimage elements
      pure (⟨tag, slot.image⟩ : Wire)) fun w => w = ⟨tag, slot.image⟩ ∧
        (c.on d = true → Gadget.Agree ω slot.preimage elements) := by
  refine (tells_condition hjudges hk hadmits).bind fun k hk => ?_
  refine (tells_ofCircuit _ (Gadget.meets_bindAll k slot.preimage elements) fun hc => ?_).bind
    fun _ hagree => .pure ⟨rfl, fun hon => hagree.resolve_left ?_⟩
  · cases hon : c.on d with
    | false => exact .inl (hk.off hc hon)
    | true => exact .inr (hhonest hc hon)
  · rw [hk.on hon]
    exact one_ne_zero

theorem tag_value_of_ofValue? {value : Int} {tag : Tag} (h : Tag.ofValue? value = some tag) :
    tag.value = value := by
  simpa using List.find?_some h

theorem recorded_content (hjudges : c.Judges ω₀ ω known) {t : Synthesis} {W W' : MarkWorld}
    {arity : ℕ} {preimage : List Int} {slot : HashSlot} {store : Store}
    (hlater : Later c ω₀ ω known t W') (hrecord : W' = W.record arity store preimage)
    (hhonest : c.honest = true) (hgate : c.gate = true)
    (hlaw : SlotLaw ω₀ ω t.preimages (W.key arity) slot) :
    worth ω slot.preimage = classes preimage := by
  have hbehind : W'.Behind (W.key arity) := by
    subst hrecord
    refine ⟨rfl, ?_⟩
    simp [MarkWorld.record, MarkWorld.key, SlotCursor.next]
  have hget : W'.slots.get? (W.key arity) = some preimage := by
    subst hrecord
    exact Table.get?_set_self _ _ _
  rw [hlaw.worth_eq (hjudges.honest hhonest), Synthesis.content,
    (hlater.settled hhonest).recorded hgate hbehind hget, Option.getD_some]

theorem gate_of_on {d : Option (Marked Int)} (h : c.on d = true) : c.gate = true :=
  (Bool.and_eq_true_iff.1 h).1

theorem matches_record {t : Synthesis} {W : MarkWorld} {arity : ℕ} {store : Store}
    (h : Matches c ω₀ ω known t (W.skip arity)) (preimage : List Int) (hsound : store.Sound)
    (hnodes : c.honest = false → ∀ {p : Pointer} {cs : List Pointer},
      store.nodes[p]? = some cs → known (nodePreimage p.tag cs)) :
    Matches c ω₀ ω known t (W.record arity store preimage) := by
  refine ⟨h.cursor, hsound, h.ungated, h.gated, hnodes, fun hgate key hkey => ?_⟩
  have hne : key ≠ W.key arity := by
    rintro rfl
    have := hkey.2
    simp [MarkWorld.record, MarkWorld.key, SlotCursor.next] at this
  exact (Table.get?_set_of_ne _ _ hne).trans (h.free hgate hkey)

theorem tracks_hash (hjudges : c.Judges ω₀ ω known) {x : Combination} {a : Marked Int}
    {ws : List Wire} {ps : List MarkedPointer} {k : Option Combination} {d : Option (Marked Int)}
    (hx : ElementTracks ω₀ ω x a) (hws : List.Forall₂ (WireTracks ω₀ ω) ws ps)
    (hk : Option.Rel (ElementTracks ω₀ ω) k d) :
    Tracks c ω₀ ω known (WireTracks ω₀ ω) (.hash x ws k) (MarkM.hash a ps d) := by
  intro s W w t q W' hlawful hmatches hrun hy hlater
  obtain ⟨slot, s₁, hslot, hrest⟩ := bind_eq_ok.1 hrun
  have hext₁ := (BuildM.nextSlot ws.length).grows.extends_ hlawful.limit hslot
  have grows : Synthesis.Grows (do
      let k ← BuildM.condition k
      BuildM.bindAll k slot.preimage (x :: ws.flatMap Wire.elements)
      pure (⟨x, slot.image⟩ : Wire) : BuildM Wire).run := BuildM.grows _
  have hext := grows.extends_ (hext₁.limit hlawful.limit) hrest
  obtain ⟨hkeep, hlaws⟩ := tells_nextSlot hjudges hlawful hmatches hslot
    (hext.circuit.fits hlater.fits)
  have main (hsat : s₁.circuit.Satisfied ω) :
      (c.honest = true → t.circuit.Satisfied ω) ∧ (t.circuit.Satisfied ω →
        WireTracks ω₀ ω w q ∧ Lawful ω₀ ω t ∧ Matches c ω₀ ω known t W') := by
    obtain ⟨hlookup, hlawful, hmatches⟩ := hlaws hsat
    have hlaw := hlawful.slots hlookup
    have hlength := hws.length_eq
    have faithful : ∀ y ∈ (⟨x, slot.image⟩ : Wire).elements, y.Faithful ω₀ := by
      simpa [Wire.elements, hx.faithful] using hlaw.faithful_image
    by_cases hadmits : c.Admits d
    swap
    · simp [MarkM.hash, hadmits] at hy
    cases hon : c.on d with
    | false =>
      simp only [MarkM.hash, hadmits, hon, if_true, Bool.false_eq_true, if_false,
        Option.some.injEq, Prod.mk.injEq] at hy
      obtain ⟨rfl, rfl⟩ := hy
      obtain ⟨hkeep, hpost⟩ := tells_bindNode hjudges hk hadmits slot x
        (x :: ws.flatMap Wire.elements) (by simp [hon]) s₁ _ w t hlawful hmatches hrest hlater.fits
      refine ⟨fun hc => hkeep hc hsat, fun hsat => ?_⟩
      obtain ⟨⟨rfl, _⟩, hlawful, hmatches⟩ := hpost hsat
      exact ⟨⟨faithful, Pointer.immediate_canonical .nil 0, fun h => absurd h Bool.false_ne_true,
        fun h => absurd h Bool.false_ne_true⟩, hlawful, hlength ▸ hmatches⟩
    | true =>
      simp only [MarkM.hash, hadmits, hon, if_true] at hy
      split at hy
      · cases hy
      rename_i tag htag
      split at hy
      swap
      · cases hy
      rename_i hsure
      split at hy
      swap
      · cases hy
      rename_i p store hintern
      cases hy
      have hcs : ∀ p ∈ ps.map (·.value), p.Canonical := by
        simp only [List.mem_map]
        rintro _ ⟨q, hq, rfl⟩
        obtain ⟨i, hi, rfl⟩ := List.getElem_of_mem hq
        exact (hws.get (hlength ▸ hi) hi).canonical
      obtain ⟨rfl, htakes⟩ := Store.internNode_ok hmatches.sound hcs hintern
      set cs := ps.map (·.value) with hcseq
      have hworth : worth ω (x :: ws.flatMap Wire.elements) = classes (nodePreimage tag cs) := by
        have htagx : x.under ω = tag.value := by
          rw [hx.under_eq hsure.1, tag_value_of_ofValue? htag]
        have := worth_flatMap hws hsure.2
        simp only [worth, classes, nodePreimage, List.map_cons, htagx] at this ⊢
        rw [this]
      have hsize : slot.preimage.length = (x :: ws.flatMap Wire.elements).length := by
        have h₁ := congrArg List.length hworth
        have h₂ := hlaw.length
        rw [worth, classes, List.length_map, List.length_map, length_nodePreimage tag hcs] at h₁
        rw [h₁, hcseq, List.length_map, ← hlength]
        change (slot.preimage.length : Int) = preimageSize (ws.length : Int) at h₂
        rw [preimageSize] at h₂
        omega
      have hagree : Gadget.Agree ω slot.preimage (x :: ws.flatMap Wire.elements) ↔
          worth ω slot.preimage = classes (nodePreimage tag cs) := by
        rw [agree_iff hsize, hworth]
      have honest (hc : c.honest = true) :
          Gadget.Agree ω slot.preimage (x :: ws.flatMap Wire.elements) := by
        refine hagree.2 (recorded_content hjudges hlater rfl hc (gate_of_on hon) ?_)
        rw [hext.preimages, ← hlength]
        exact hlaw
      obtain ⟨hkeep, hpost⟩ := tells_bindNode hjudges hk hadmits slot x
        (x :: ws.flatMap Wire.elements) (fun hc _ => honest hc) s₁ _ w t hlawful hmatches hrest
        hlater.fits
      refine ⟨fun hc => hkeep hc hsat, fun hsat => ?_⟩
      obtain ⟨⟨rfl, hbound⟩, hlawful, hmatches⟩ := hpost hsat
      have hreading : slot.reading ω = nodePreimage tag cs :=
        reading_eq (canonical_nodePreimage tag hcs) (hagree.1 (hbound hon))
      refine ⟨⟨faithful, Store.nodePointer_canonical tag cs, fun _ => ?_,
        fun h => absurd h Bool.false_ne_true⟩, hlawful, ?_⟩
      · have himage := hlaw.worth_image
        rw [hreading] at himage
        have htagx : x.under ω = tag.value := by
          rw [hx.under_eq hsure.1, tag_value_of_ofValue? htag]
        simp only [worth, classes, Wire.elements, List.map_cons, htagx] at himage ⊢
        rw [himage]
        rfl
      · rw [← hlength]
        refine matches_record hmatches _ htakes.sound fun hc p ds hnode => ?_
        rcases htakes.fresh hnode with hold | ⟨rfl, rfl⟩
        · exact hmatches.nodes hc hold
        · rcases hlater.known hc (hext.slots hlookup) with hknown | hzero
          · rwa [hreading] at hknown
          · rw [hreading, nodePreimage, List.head?_cons, Option.some.injEq] at hzero
            have harity := (htakes.sound.node hnode).1
            have : tag = .nil := Tag.value_injective hzero
            subst this
            simp [Tag.arity?] at harity
  exact ⟨fun hc hsat => (main (hkeep hc hsat)).1 hc,
    fun hsat => (main (hext.circuit.satisfied hsat)).2 hsat⟩

/-- Taking a node apart: the slot is bound to tag and digest of the pointer. -/
theorem tells_bindChildren (hjudges : c.Judges ω₀ ω known) {k : Option Combination}
    {d : Option (Marked Int)} (hk : Option.Rel (ElementTracks ω₀ ω) k d) (hadmits : c.Admits d)
    (slot : HashSlot) (w : Wire)
    (hhonest : c.honest = true → c.on d = true →
      Gadget.Agree ω (slot.preimage.take 1) [w.tag] ∧
      Gadget.Agree ω slot.image.toList w.digest.toList) :
    Tells c ω₀ ω known (do
      let k ← BuildM.condition k
      BuildM.bindAll k (slot.preimage.take 1) [w.tag]
      BuildM.bindAll k slot.image.toList w.digest.toList
      pure (Wire.ofElements slot.preimage.tail)) fun ws =>
        ws = Wire.ofElements slot.preimage.tail ∧ (c.on d = true →
          Gadget.Agree ω (slot.preimage.take 1) [w.tag] ∧
          Gadget.Agree ω slot.image.toList w.digest.toList) := by
  refine (tells_condition hjudges hk hadmits).bind fun k hk => ?_
  have hne (hon : c.on d = true) : k.under ω ≠ 0 := by
    rw [hk.on hon]
    exact one_ne_zero
  refine (tells_ofCircuit _ (Gadget.meets_bindAll k _ _) fun hc => ?_).bind fun _ htag => ?_
  · cases hon : c.on d with
    | false => exact .inl (hk.off hc hon)
    | true => exact .inr (hhonest hc hon).1
  refine (tells_ofCircuit _ (Gadget.meets_bindAll k _ _) fun hc => ?_).bind fun _ hdigest =>
    .pure ⟨rfl, fun hon => ⟨htag.resolve_left (hne hon), hdigest.resolve_left (hne hon)⟩⟩
  cases hon : c.on d with
  | false => exact .inl (hk.off hc hon)
  | true => exact .inr (hhonest hc hon).2

theorem digest_inj {d e : Digest Int} (hd : Sponge.CanonicalDigest d)
    (he : Sponge.CanonicalDigest e) (h : classes d.toList = classes e.toList) : d = e :=
  Digest.toList_inj.1 (classes_inj hd he h)

theorem tracks_unhash (hjudges : c.Judges ω₀ ω known) {w : Wire} {p : MarkedPointer} (arity : ℕ)
    {k : Option Combination} {d : Option (Marked Int)} (hw : WireTracks ω₀ ω w p)
    (hk : Option.Rel (ElementTracks ω₀ ω) k d) :
    Tracks c ω₀ ω known (List.Forall₂ (WireTracks ω₀ ω)) (.unhash w arity k)
      (MarkM.unhash p arity d) := by
  intro s W ws t qs W' hlawful hmatches hrun hy hlater
  obtain ⟨slot, s₁, hslot, hrest⟩ := bind_eq_ok.1 hrun
  have hext₁ := (BuildM.nextSlot arity).grows.extends_ hlawful.limit hslot
  have grows : Synthesis.Grows (do
      let k ← BuildM.condition k
      BuildM.bindAll k (slot.preimage.take 1) [w.tag]
      BuildM.bindAll k slot.image.toList w.digest.toList
      pure (Wire.ofElements slot.preimage.tail) : BuildM (List Wire)).run := BuildM.grows _
  have hext := grows.extends_ (hext₁.limit hlawful.limit) hrest
  have hfree := hmatches.free
  obtain ⟨hkeep, hlaws⟩ := tells_nextSlot hjudges hlawful hmatches hslot
    (hext.circuit.fits hlater.fits)
  have main (hsat : s₁.circuit.Satisfied ω) :
      (c.honest = true → t.circuit.Satisfied ω) ∧ (t.circuit.Satisfied ω →
        List.Forall₂ (WireTracks ω₀ ω) ws qs ∧ Lawful ω₀ ω t ∧ Matches c ω₀ ω known t W') := by
    obtain ⟨hlookup, hlawful, hmatches⟩ := hlaws hsat
    have hlaw := hlawful.slots hlookup
    have hlength : slot.preimage.length = 1 + 5 * arity := by
      have := hlaw.length
      change (slot.preimage.length : Int) = preimageSize (arity : Int) at this
      rw [preimageSize] at this
      omega
    obtain ⟨first, rest, hpreimage⟩ : ∃ first rest, slot.preimage = first :: rest :=
      List.exists_cons_of_length_pos (by omega)
    have hrestlength : rest.length = 5 * arity := by
      rw [hpreimage, List.length_cons] at hlength
      omega
    have faithful : ∀ y ∈ rest, y.Faithful ω₀ := fun y hy =>
      hlaw.faithful y (hpreimage ▸ List.mem_cons_of_mem _ hy)
    by_cases hadmits : c.Admits d
    swap
    · simp [MarkM.unhash, hadmits] at hy
    cases hon : c.on d with
    | false =>
      simp only [MarkM.unhash, hadmits, hon, if_true, Bool.false_eq_true, if_false] at hy
      split at hy
      swap
      · cases hy
      rename_i hfill
      cases hy
      obtain ⟨hkeep, hpost⟩ := tells_bindChildren hjudges hk hadmits slot w (by simp [hon]) s₁ _ ws t
        hlawful hmatches hrest hlater.fits
      refine ⟨fun hc => hkeep hc hsat, fun hsat => ?_⟩
      obtain ⟨⟨rfl, _⟩, hlawful, hmatches⟩ := hpost hsat
      refine ⟨?_, hlawful, hmatches⟩
      rw [hpreimage, List.tail_cons]
      refine forall₂_ofElements faithful (by omega) (fun p hp => hjudges.canonical hp)
        (fun hc => ?_) fun {i x q} hsealed hx hq => ?_
      · -- Honest witnesses hold what the setting supposes.
        have hdecodes : Decodes (Synthesis.content s₁.preimages (W.key arity))
            (c.fill (W.key arity)) := by
          rw [← hext.preimages]
          refine (hlater.settled hc).leftOver (Int.natCast_nonneg arity) fun hgate => ⟨⟨rfl, ?_⟩, ?_⟩
          · simp [MarkWorld.skip, MarkWorld.key, SlotCursor.next]
          · exact hfree hgate (W.ahead_key arity)
        obtain ⟨v, hv⟩ := hdecodes
        have hworth := hlaw.worth_eq (hjudges.honest hc)
        rw [hv, hpreimage] at hworth
        simp only [worth, classes, List.map_cons, List.cons.injEq] at hworth
        exact hworth.2
      · refine ⟨hlater.sealed (hext.slots hlookup) hsealed ?_, hjudges.sealed hq hsealed⟩
        rw [hpreimage, Nat.add_comm, List.getElem?_cons_succ, hx]
    | true =>
      simp only [MarkM.unhash, hadmits, hon, if_true] at hy
      split at hy
      swap
      · cases hy
      rename_i hsure
      split at hy
      swap
      · cases hy
      rename_i cs hfetch
      cases hy
      obtain ⟨hnode, n, harity, hn⟩ := Store.fetch_ok hfetch
      obtain ⟨hcount, hpointer, hholds⟩ := hmatches.sound.node hnode
      have hcs : ∀ q ∈ cs, q.Canonical := fun q hq => (hholds q hq).canonical
      have hcslength : cs.length = arity := by
        rw [harity, Option.some.injEq] at hcount
        omega
      set tag := p.value.tag with htag
      have hworth := hw.worth_eq hsure
      simp only [worth, classes, Wire.elements, Pointer.elements, List.map_cons,
        List.cons.injEq] at hworth
      obtain ⟨htagw, hdigestw⟩ := hworth
      have hsize : (List.take 1 (first :: rest)).length = [w.tag].length := rfl
      have hsizes : slot.image.toList.length = w.digest.toList.length := rfl
      have hdigestp : p.value.digest = (nodeDigest tag cs).toList := congrArg Pointer.digest hpointer
      -- Once the slot reads the node, both its ends agree with the pointer.
      have agree (hreading : slot.reading ω = nodePreimage tag cs) :
          Gadget.Agree ω (slot.preimage.take 1) [w.tag] ∧
          Gadget.Agree ω slot.image.toList w.digest.toList := by
        have hclasses := classes_reading (ω := ω) slot
        rw [hreading, hpreimage] at hclasses
        simp only [classes, worth, nodePreimage, List.map_cons, List.cons.injEq] at hclasses
        refine ⟨?_, (agree_iff hsizes).2 ?_⟩
        · rw [hpreimage, agree_iff hsize]
          simp only [worth, List.take_succ_cons, List.take_zero, List.map_cons, List.map_nil,
            ← hclasses.1, htagw, htag]
        · rw [hlaw.worth_image, hreading]
          change classes (nodeDigest tag cs).toList = _
          rw [← hdigestp]
          exact hdigestw.symm
      have recorded (hc : c.honest = true) : slot.reading ω = nodePreimage tag cs := by
        refine reading_eq (canonical_nodePreimage tag hcs)
          (recorded_content hjudges hlater rfl hc (gate_of_on hon) ?_)
        rw [hext.preimages]
        exact hlaw
      obtain ⟨hkeep, hpost⟩ := tells_bindChildren hjudges hk hadmits slot w
        (fun hc _ => agree (recorded hc)) s₁ _ ws t hlawful hmatches hrest hlater.fits
      refine ⟨fun hc => hkeep hc hsat, fun hsat => ?_⟩
      obtain ⟨⟨rfl, hbound⟩, hlawful, hmatches⟩ := hpost hsat
      have hreading : slot.reading ω = nodePreimage tag cs := by
        cases hc : c.honest with
        | true => exact recorded hc
        | false =>
          obtain ⟨hfirst, himage⟩ := hbound hon
          have hhash : Sponge.hash (slot.reading ω) = nodeDigest tag cs := by
            refine digest_inj (Sponge.hash_canonical _) (Sponge.hash_canonical _) ?_
            rw [← hlaw.worth_image, (agree_iff hsizes).1 himage]
            exact hdigestw.trans (congrArg classes hdigestp)
          refine hjudges.binding hc ?_ (hmatches.nodes hc hnode) hhash
          refine (hlater.known hc (hext.slots hlookup)).resolve_right fun hzero => ?_
          -- The first element is the tag of a node, which is not zero.
          rw [hpreimage] at hfirst
          have hfirst := (agree_iff hsize).1 hfirst
          simp only [worth, List.take_succ_cons, List.take_zero, List.map_cons, List.map_nil,
            List.cons.injEq, and_true, htagw] at hfirst
          rw [HashSlot.reading, hpreimage, List.map_cons, List.head?_cons, Option.some.injEq, hfirst,
            Field.representative_cast, Field.reduce_eq_self (Tag.value_canonical _)] at hzero
          have : tag = .nil := Tag.value_injective hzero
          rw [this] at harity
          simp [Tag.arity?] at harity
      refine ⟨?_, hlawful, matches_record hmatches _ hmatches.sound hmatches.nodes⟩
      have hclasses := classes_reading (ω := ω) slot
      rw [hreading, hpreimage] at hclasses
      simp only [classes, worth, nodePreimage, List.map_cons, List.cons.injEq] at hclasses
      have hmarks : cs.map MarkedPointer.certain =
          cs.mapIdx fun i q => (⟨q, true, false⟩ : MarkedPointer) := by
        refine List.ext_getElem (by simp) fun i _ _ => ?_
        simp [MarkedPointer.certain]
      rw [hmarks, hpreimage, List.tail_cons]
      exact forall₂_ofElements faithful (by omega) hcs (fun _ => hclasses.2.symm) (by simp)
  exact ⟨fun hc hsat => (main (hkeep hc hsat)).1 hc,
    fun hsat => (main (hext.circuit.satisfied hsat)).2 hsat⟩

/-! ## The simulation -/

/-- Rules that are built track rules that are run in the marked model. -/
def Setting.Judges.tracking (hjudges : c.Judges ω₀ ω known) :
    Simulation BuildM (MarkM c) Combination (Marked Int) Wire MarkedPointer where
  elem := ElementTracks ω₀ ω
  pointer := WireTracks ω₀ ω
  run := Tracks c ω₀ ω known
  pure := .pure
  bind := .bind
  lit := elementTracks_lit
  add := .add
  sub := .sub
  ptr := wireTracks_ptr
  makePointer tag h := by
    rw [MarkM.makePointer_eq]
    exact .pure (wireTracks_makePointer tag h)
  payload h := .pure h.payload
  mul := tracks_mul hjudges
  div := tracks_div hjudges
  isZero := tracks_isZero hjudges
  isNegative := tracks_isNegative hjudges
  less := tracks_less hjudges
  divRem := tracks_divRem hjudges
  select := tracks_select hjudges
  selectPointer := tracks_selectPointer hjudges
  tagIs := tracks_tagIs hjudges
  pointerEq := tracks_pointerEq hjudges
  hash := tracks_hash hjudges
  unhash := tracks_unhash hjudges
  emit _ _ := .pure trivial

end

end FieldLisp
