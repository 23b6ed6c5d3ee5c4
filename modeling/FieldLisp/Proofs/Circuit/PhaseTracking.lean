import FieldLisp.Proofs.Circuit.FrameBuilding
import FieldLisp.Proofs.Circuit.SlotTracking

/-!
# Phases track the marked model

The rules of a phase are built one after the other, each from where the rules begin. The selected
one is in step with the marked model; all others are run with their slots switched off, and bind
nothing.

* `Leads`: an operation between a condition on the synthesis before and one on the synthesis after;
* `meets_selectRule`: exactly the selector of the rule whose guard holds is set;
* `leads_runRule`: a rule that is built under its selector;
* `leads_build`: in a satisfied circuit the target of a phase is worth its outcome.
-/

namespace FieldLisp

open FieldLisp.Field (Element)
open EStateM (bind_eq_ok pure_eq_ok)

section
variable {c c' : Setting} {ω₀ ω : Valuation} {known : List Int → Prop} {preimages : SlotTable}
  {honest : Prop} {α β : Type}

/-! ## Conditions before and after -/

/-- In a circuit that is satisfied in the end, the operation leads from one condition to another; and
if it is used honestly, it keeps the circuit satisfied. -/
def Leads (c : Setting) (ω₀ ω : Valuation) (known : List Int → Prop) (preimages : SlotTable)
    (honest : Prop) (pre : Synthesis → Prop) (x : BuildM α) (post : α → Synthesis → Prop) : Prop :=
  ∀ s a t, Lawful ω₀ ω s → pre s → x.run s = .ok a t → Final c ω₀ ω known t →
    t.preimages = preimages →
    (honest → s.circuit.Satisfied ω → t.circuit.Satisfied ω) ∧
    (t.circuit.Satisfied ω → post a t ∧ Lawful ω₀ ω t)

namespace Leads
variable {pre pre' : Synthesis → Prop} {post post' mid : α → Synthesis → Prop} {x : BuildM α}

theorem pure {a : α} : Leads c ω₀ ω known preimages honest (post a) (Pure.pure a) post := by
  intro s b t hlawful hpre hx _ _
  obtain ⟨rfl, rfl⟩ := pure_eq_ok.1 hx
  exact ⟨fun _ => id, fun _ => ⟨hpre, hlawful⟩⟩

theorem bind {f : α → BuildM β} {post : β → Synthesis → Prop}
    (hx : Leads c ω₀ ω known preimages honest pre x mid)
    (hf : ∀ a, Leads c ω₀ ω known preimages honest (mid a) (f a) post) :
    Leads c ω₀ ω known preimages honest pre (x >>= f) post := by
  intro s b u hlawful hpre h hfinal hpreimages
  obtain ⟨a, t, hxs, hft⟩ := bind_eq_ok.1 h
  have hst := x.grows.extends_ hlawful.limit hxs
  have htu := (f a).grows.extends_ (hst.limit hlawful.limit) hft
  obtain ⟨hkeep, hmid⟩ :=
    hx _ _ _ hlawful hpre hxs (hfinal.earlier htu) (htu.preimages.symm.trans hpreimages)
  refine ⟨fun hhonest hsat => ?_, fun hsat => ?_⟩
  · have hsat := hkeep hhonest hsat
    obtain ⟨ha, hlawful⟩ := hmid hsat
    exact (hf a _ _ _ hlawful ha hft hfinal hpreimages).1 hhonest hsat
  · obtain ⟨ha, hlawful⟩ := hmid (htu.circuit.satisfied hsat)
    exact (hf a _ _ _ hlawful ha hft hfinal hpreimages).2 hsat

theorem mono (hx : Leads c ω₀ ω known preimages honest pre x post) (hpre : ∀ s, pre' s → pre s)
    (hpost : ∀ a s, post a s → post' a s) :
    Leads c ω₀ ω known preimages honest pre' x post' := by
  intro s a t hlawful hs hxs hfinal hpreimages
  obtain ⟨hkeep, hmid⟩ := hx _ _ _ hlawful (hpre s hs) hxs hfinal hpreimages
  exact ⟨hkeep, fun hsat => ⟨hpost a t (hmid hsat).1, (hmid hsat).2⟩⟩

theorem imp {honest' : Prop} (hx : Leads c ω₀ ω known preimages honest pre x post)
    (h : honest' → honest) : Leads c ω₀ ω known preimages honest' pre x post := by
  intro s a t hlawful hs hxs hfinal hpreimages
  obtain ⟨hkeep, hmid⟩ := hx _ _ _ hlawful hs hxs hfinal hpreimages
  exact ⟨hkeep ∘ h, hmid⟩

/-- A condition that does not look at the circuit is not touched by labels. -/
theorem within (hx : Leads c ω₀ ω known preimages honest pre x post) (name : String)
    (hpre : ∀ (s : Synthesis) circuit, pre s → pre { s with circuit })
    (hpost : ∀ a (s : Synthesis) circuit, post a s → post a { s with circuit }) :
    Leads c ω₀ ω known preimages honest pre (BuildM.within name x) post := by
  intro s a t hlawful hs hxs hfinal hpreimages
  obtain ⟨u, hrun, rfl⟩ := Synthesis.within_eq_ok.1 hxs
  obtain ⟨hkeep, hmid⟩ := hx { s with circuit := s.circuit.enter name } a u
    ⟨hlawful.limit, hlawful.zeroTests, hlawful.slots⟩ (hpre s _ hs) hrun
    ⟨hfinal.fits, hfinal.known, hfinal.sealed⟩ hpreimages
  refine ⟨hkeep, fun hsat => ?_⟩
  obtain ⟨ha, hlawful⟩ := hmid hsat
  exact ⟨hpost a u _ ha, hlawful.limit, hlawful.zeroTests, hlawful.slots⟩

theorem ofCircuit {y : CircuitM α} {h : Prop} {prop : α → Prop}
    (hy : Circuit.Meets ω₀ ω h y prop) (grows : Circuit.Grows y) (hhonest : honest → h)
    (hpre : ∀ (s : Synthesis) circuit, pre s → pre { s with circuit }) :
    Leads c ω₀ ω known preimages honest pre (.ofCircuit y grows) fun a s => prop a ∧ pre s := by
  intro s a t hlawful hs hx hfinal _
  obtain ⟨circuit, hcircuit, rfl⟩ := Synthesis.onCircuit_eq_ok.1 hx
  obtain ⟨hkeep, hprop⟩ := hy s.circuit a circuit hlawful.limit hcircuit hfinal.fits
  exact ⟨fun h => hkeep (hhonest h), fun hsat => ⟨⟨hprop hsat, hpre s circuit hs⟩,
    grows.limit_of_ok hlawful.limit hcircuit, hlawful.zeroTests, hlawful.slots⟩⟩

theorem onCursor (change : SlotCursor → SlotCursor) {post : Unit → Synthesis → Prop}
    (h : ∀ s, pre s → post () { s with cursor := change s.cursor }) :
    Leads c ω₀ ω known preimages honest pre (.onCursor change) post := by
  intro s a t hlawful hs hx _ _
  cases hx
  exact ⟨fun _ => id, fun _ => ⟨h s hs, hlawful.limit, hlawful.zeroTests, hlawful.slots⟩⟩

theorem setGate (gate : Option Combination) {post : Unit → Synthesis → Prop}
    (h : ∀ s, pre s → post () { s with gate }) :
    Leads c ω₀ ω known preimages honest pre (.setGate gate) post := by
  intro s a t hlawful hs hx _ _
  cases hx
  exact ⟨fun _ => id, fun _ => ⟨h s hs, hlawful.limit, hlawful.zeroTests, hlawful.slots⟩⟩

theorem forM {f : α → BuildM Unit} {inv : Synthesis → Prop} {prop : α → Prop} {as : List α}
    (hf : ∀ a ∈ as, Leads c ω₀ ω known preimages honest inv (f a) fun _ s => inv s ∧ prop a) :
    Leads c ω₀ ω known preimages honest inv (as.forM f) fun _ s => inv s ∧ ∀ a ∈ as, prop a := by
  induction as with
  | nil => exact Leads.pure.mono (fun s hs => ⟨hs, by simp⟩) fun _ _ => id
  | cons a as ih =>
    refine bind (hf a List.mem_cons_self) fun _ => ?_
    intro s b t hlawful ⟨hs, ha⟩ hx hfinal hpreimages
    obtain ⟨hkeep, hrest⟩ := ih (fun a' ha' => hf a' (List.mem_cons_of_mem _ ha')) _ _ _ hlawful hs hx
      hfinal hpreimages
    refine ⟨hkeep, fun hsat => ?_⟩
    obtain ⟨⟨ht, hprops⟩, hlawful⟩ := hrest hsat
    exact ⟨⟨ht, List.forall_mem_cons.2 ⟨ha, hprops⟩⟩, hlawful⟩

/-- A condition on no synthesis can be assumed. -/
theorem assume {p : Prop} (h : p → Leads c ω₀ ω known preimages honest pre x post) :
    Leads c ω₀ ω known preimages honest (fun s => p ∧ pre s) x post :=
  fun s a t hlawful hs => h hs.1 s a t hlawful hs.2

/-- What runs in step with the marked model leads to where that model goes. -/
theorem tracks {rel : α → β → Prop} {y : MarkM c' β} (hxy : Tracks c' ω₀ ω known rel x y)
    (hhonest : c'.honest = c.honest) (hsealed : c'.sealed = c.sealed) {W W' : MarkWorld} {b : β}
    (hy : y.run W = some (b, W')) (hsettled : c'.honest = true → Settled c' preimages W')
    (hused : honest → c.honest = true) :
    Leads c ω₀ ω known preimages honest (Matches c' ω₀ ω known · W) x
      fun a s => rel a b ∧ Matches c' ω₀ ω known s W' := by
  intro s a t hlawful hs hx hfinal hpreimages
  have hlater : Later c' ω₀ ω known t W' :=
    ⟨⟨hfinal.fits, hhonest ▸ hfinal.known, hsealed ▸ hfinal.sealed⟩,
      fun h => hpreimages ▸ hsettled h⟩
  obtain ⟨hkeep, hpost⟩ := hxy _ _ _ _ _ _ hlawful hs hx hy hlater
  refine ⟨fun h => hkeep (hhonest.trans (hused h)), fun hsat => ?_⟩
  obtain ⟨hab, hlawful, hmatches⟩ := hpost hsat
  exact ⟨⟨hab, hmatches⟩, hlawful⟩

end Leads

theorem Matches.withCircuit {s : Synthesis} {W : MarkWorld} (h : Matches c ω₀ ω known s W)
    (circuit : Circuit) : Matches c ω₀ ω known { s with circuit } W :=
  ⟨h.cursor, h.sound, h.ungated, h.gated, h.nodes, h.free⟩

/-- What a world has to be for a rule to run in it. -/
structure Ready (c : Setting) (known : List Int → Prop) (W : MarkWorld) : Prop where
  sound : W.store.Sound
  nodes : c.honest = false → ∀ {p : Pointer} {cs : List Pointer}, W.store.nodes[p]? = some cs →
    known (nodePreimage p.tag cs)
  free : ∀ {key}, W.Ahead key → W.slots.get? key = none

theorem Matches.ready {s : Synthesis} {W : MarkWorld} (h : Matches c ω₀ ω known s W)
    (hgate : c.gate = true) : Ready c known W := ⟨h.sound, h.nodes, h.free hgate⟩

/-! ## Selectors -/

variable {κ : Type} [DecidableEq κ]

/-- A selector is set if its rule is the live one. -/
def Selects (ω₀ ω : Valuation) (live : κ) (p : κ × Combination) : Prop :=
  p.2.Faithful ω₀ ∧ p.2.under ω = if p.1 = live then 1 else 0

theorem meets_selectRule {rules : List κ} (hnodup : rules.Nodup) {live : κ} (hlive : live ∈ rules)
    {guards : List (κ × Combination)} (hguards : FlagsRelated (ElementTracks ω₀ ω) guards
      (rules.map fun rule => (rule, .bit true (rule == live)))) (fired : κ) :
    Circuit.Meets ω₀ ω (ω = ω₀ ∧ fired = live) (FrameCircuit.selectRule guards fired)
      fun selectors => selectors.map (·.1) = rules ∧ (∀ p ∈ selectors, Selects ω₀ ω live p) ∧
        (ω = ω₀ → fired = live) := by
  have hlength : guards.length = rules.length := by simpa using hguards.length_eq
  have hguard {i : ℕ} (hi : i < guards.length) : guards[i].1 = rules[i] ∧
      guards[i].2.under ω = if rules[i] = live then 1 else 0 := by
    obtain ⟨hrule, hworth⟩ := hguards.get hi (by simpa [hlength] using hi)
    simp only [List.get_eq_getElem, List.getElem_map] at hrule hworth
    refine ⟨hrule, (hworth.under_eq rfl).trans ?_⟩
    by_cases h : rules[i] = live <;> simp [Marked.bit, Workspace.bit, h]
  have hrules : guards.map (·.1) = rules :=
    List.ext_getElem (by simpa using hlength) fun i h₁ _ => by
      rw [List.getElem_map]
      exact (hguard (by simpa using h₁)).1
  have hindex : rules.idxOf live < rules.length := List.idxOf_lt_length_of_mem hlive
  have hat : rules[rules.idxOf live] = live := List.getElem_idxOf hindex
  have hunique {i : ℕ} (hi : i < rules.length) : rules[i] = live ↔ i = rules.idxOf live :=
    (Iff.of_eq (congrArg (rules[i] = ·) hat.symm)).trans hnodup.getElem_inj_iff
  unfold FrameCircuit.selectRule
  rw [hrules]
  refine (Gadget.meets_oneHot.mono ?_ fun _ => id).bind (Gadget.grows_oneHot _ _)
    (fun _ => (Circuit.Grows.forM (fun _ => Gadget.grows_impliesEqual _ _ _) _).bind
      fun _ => .pure _) fun flags hmade => ?_
  · rintro ⟨hown, rfl⟩
    exact ⟨hown, by omega, by exact_mod_cast hindex⟩
  obtain ⟨hflags, hhot⟩ := hmade
  -- Each flag stands beside its rule and its guard.
  have hentry {e : (κ × Combination) × κ × Combination} (he : e ∈ (rules.zip flags).zip guards) :
      ∃ (i : ℕ) (_ : i < flags.length) (_ : i < rules.length),
        e.1 = (rules[i], flags[i]) ∧ e.2.2.under ω = if rules[i] = live then 1 else 0 := by
    obtain ⟨i, hi, rfl⟩ := List.getElem_of_mem he
    simp only [List.length_zip] at hi
    refine ⟨i, by omega, by omega, by simp, ?_⟩
    rw [List.getElem_zip]
    exact (hguard (by omega)).2
  refine ((Circuit.Meets.forM (P := fun e : (κ × Combination) × κ × Combination =>
    e.1.2.under ω = 0 ∨ e.2.2.under ω = (1 : Combination).under ω)
    (fun _ => Gadget.grows_impliesEqual _ _ _)
    fun e he => (Gadget.meets_impliesEqual e.1.2 e.2.2 1).mono ?_ fun _ => id).bind
    (.forM (fun _ => Gadget.grows_impliesEqual _ _ _) _) (fun _ => .pure _)
    fun _ hforced => .pure ?_)
  · rintro ⟨rfl, rfl⟩
    obtain ⟨i, hi, hi', hfirst, hsecond⟩ := hentry he
    rw [hfirst, hsecond]
    by_cases h : rules[i] = fired
    · rw [if_pos h, Combination.under_one]
      exact .inr rfl
    · left
      have hne : (Int.ofNat i == (rules.idxOf fired : Int)) = false := by
        rw [hunique hi'] at h
        simpa using h
      rw [(hhot.isFlag i hi).faithful.under_eq, (hhot.isFlag i hi).value_eq, hne]
      simp
  -- Flags of rules whose guards do not hold are zero, so the remaining one is the sum.
  have hzero {i : ℕ} (hi : i < flags.length) (hi' : i < rules.length) (h : rules[i] ≠ live) :
      flags[i].under ω = 0 := by
    have hi'' : i < guards.length := hlength ▸ hi'
    have hmem : ((rules[i], flags[i]), guards[i]) ∈ (rules.zip flags).zip guards := by
      refine List.mem_iff_getElem.2 ⟨i, by simp [hi, hi', hi''], by simp⟩
    refine (hforced _ hmem).resolve_right ?_
    rw [(hguard hi'').2, if_neg h, Combination.under_one]
    exact zero_ne_one
  have hone : flags[rules.idxOf live].under ω = 1 := by
    have hworths : flags.map (·.under ω) =
        rules.map fun rule => if rule = live then flags[rules.idxOf live].under ω else 0 := by
      refine List.ext_getElem (by simp [hflags]) fun i h₁ h₂ => ?_
      simp only [List.length_map] at h₁ h₂
      rw [List.getElem_map, List.getElem_map]
      split
      · rename_i h
        simp only [(hunique h₂).1 h]
      · rename_i h
        exact hzero h₁ h₂ h
    have hsum := hhot.sum
    rw [hworths, List.sum_map_ite_eq, List.count_eq_one_of_mem hnodup hlive] at hsum
    simpa using hsum
  refine ⟨List.map_fst_zip (by omega), fun p hp => ?_, fun hown => ?_⟩
  · obtain ⟨i, hi, rfl⟩ := List.getElem_of_mem hp
    simp only [List.length_zip] at hi
    rw [List.getElem_zip]
    refine ⟨(hhot.isFlag i (by omega)).faithful, ?_⟩
    split
    · rename_i h
      simp only [(hunique (by omega)).1 h]
      exact hone
    · rename_i h
      exact hzero (by omega) (by omega) h
  · subst hown
    have hflag := hhot.isFlag (rules.idxOf live) (by omega)
    have hvalue := hflag.faithful.value_eq Field.canonical_one (hone.trans Int.cast_one.symm)
    rw [hflag.value_eq] at hvalue
    have hsame : rules.idxOf live = rules.idxOf fired := by
      by_contra hne
      have : (Int.ofNat (rules.idxOf live) == (rules.idxOf fired : Int)) = false := by
        simpa using hne
      rw [this] at hvalue
      simp at hvalue
    have hfired : rules.idxOf fired < rules.length := hsame ▸ hindex
    calc fired = rules[rules.idxOf fired] := (List.getElem_idxOf hfired).symm
      _ = rules[rules.idxOf live] := by simp only [hsame]
      _ = live := hat

/-! ## Rules -/

/-- The synthesis stands where the rules of the phase can be resumed, which began in a world. -/
def Resumes (W : MarkWorld) (s : Synthesis) : Prop :=
  s.cursor.phase = W.cursor.phase ∧ s.cursor.base = W.cursor.used

/-- Outcomes in a circuit that are worth outcomes of the marked model. -/
abbrev StepTracks (ω₀ ω : Valuation) : Step Combination Wire → Step (Marked Int) MarkedPointer → Prop :=
  Step.Related (ElementTracks ω₀ ω) (WireTracks ω₀ ω)

/-- A rule is built from where the rules begin. If it is the selected one, its outcome is bound to the
target. -/
theorem leads_runRule (hhonest : c'.honest = c.honest) (hsealed : c'.sealed = c.sealed)
    {W W' : MarkWorld} (hready : Ready c' known W) {selector : Combination}
    (hfaithful : selector.Faithful ω₀) (hworth : selector.under ω = if c'.gate then 1 else 0)
    {body : BuildM (Step Combination Wire)} {y : MarkM c' (Step (Marked Int) MarkedPointer)}
    {out : Step (Marked Int) MarkedPointer}
    (hbody : Tracks c' ω₀ ω known (StepTracks ω₀ ω) body y)
    (hrun : y.run W.beginRules = some (out, W'))
    (hsettled : c'.honest = true → Settled c' preimages W') (label : String)
    (produced : Step Combination Wire → List Combination) (target : List Combination)
    (hused : honest → c.honest = true ∧ (c'.gate = true → ∀ o, StepTracks ω₀ ω o out →
      Gadget.Agree ω (produced o) target)) :
    Leads c ω₀ ω known preimages honest (Resumes W)
      (BuildM.runRule label selector body produced target) fun _ s => Resumes W s ∧
        (c'.gate = true → (∃ o, StepTracks ω₀ ω o out ∧ Gadget.Agree ω (produced o) target) ∧
          Ready c' known W') := by
  refine Leads.within ?_ label (fun _ _ h => h) (fun _ _ _ h => h)
  have rewound : Leads c ω₀ ω known preimages honest (Resumes W) (.onCursor (·.rewind))
      fun _ s => s.cursor = W.beginRules.cursor := by
    refine .onCursor _ fun s hs => ?_
    obtain ⟨hphase, hbase⟩ := hs
    simp only [SlotCursor.rewind, MarkWorld.beginRules, SlotCursor.beginRules, hphase, hbase]
  have gated : Leads c ω₀ ω known preimages honest (fun s => s.cursor = W.beginRules.cursor)
      (.setGate (some selector)) fun _ s => Matches c' ω₀ ω known s W.beginRules := by
    refine .setGate _ fun s hs => ⟨hs, hready.sound, nofun, fun hg => ?_, hready.nodes,
      fun _ => hready.free⟩
    obtain rfl := Option.some.inj hg
    exact ⟨hfaithful, hworth⟩
  refine rewound.bind fun _ => gated.bind fun _ =>
    (Leads.tracks hbody hhonest hsealed hrun hsettled fun h => (hused h).1).bind fun o =>
      .assume fun ho => ?_
  refine (Leads.ofCircuit (Gadget.meets_bindAll selector (produced o) target)
    (Gadget.grows_bindAll _ _ _) (fun h => ?_) fun s circuit hs => hs.withCircuit circuit).mono
    (fun _ => id) fun _ s ⟨hbound, hmatches⟩ => ⟨?_, fun hgate => ⟨⟨o, ho, ?_⟩, ?_⟩⟩
  · cases hgate : c'.gate with
    | true => exact .inr ((hused h).2 hgate o ho)
    | false => exact .inl (by rw [hworth, hgate, if_neg Bool.false_ne_true])
  · have hpasses := y.passes hrun
    exact ⟨(congrArg SlotCursor.phase hmatches.cursor).trans hpasses.phase,
      (congrArg SlotCursor.base hmatches.cursor).trans hpasses.base⟩
  · refine hbound.resolve_left ?_
    rw [hworth, hgate, if_pos rfl]
    exact one_ne_zero
  · exact hmatches.ready hgate

/-! ## Phases -/

/-- A state that is read in step with the marked model selects the rule whose guard holds. -/
theorem leads_select {σ₁ σ : Type} {rules : List κ} (hnodup : rules.Nodup) {live : κ}
    (hlive : live ∈ rules) (hjudges : c.Judges ω₀ ω known) {x : Course BuildM Combination Wire κ σ₁}
    {y : Course (MarkM c) (Marked Int) MarkedPointer κ σ} {rel : σ₁ → σ → Prop}
    (hxy : Course.Related hjudges.tracking rel x y) {W W₁ W₂ : MarkWorld} {scope : σ}
    {out : Step (Marked Int) MarkedPointer} (hfollows : y.Follows rules W scope W₁ live out W₂)
    (hsettled : c.honest = true → Settled c preimages W₁) (fired : κ)
    (hused : honest → c.honest = true ∧ fired = live) :
    Leads c ω₀ ω known preimages honest (Matches c ω₀ ω known · W) (x.select fired) fun p s =>
      (rel p.1 scope ∧ p.2.map (·.1) = rules ∧ (∀ q ∈ p.2, Selects ω₀ ω live q) ∧
        (ω = ω₀ → fired = live)) ∧ Matches c ω₀ ω known s W₁ := by
  refine (Leads.tracks hxy.read rfl rfl hfollows.read hsettled fun h => (hused h).1).bind fun s₁ =>
    .assume fun hscope => ?_
  have hguards : (y.guards scope).run W₁ =
      some (rules.map fun rule => (rule, .bit true (rule == live)), W₁) := by
    rw [hfollows.guards]
    rfl
  refine (Leads.tracks (hxy.guards hscope) rfl rfl hguards hsettled fun h => (hused h).1).bind
    fun guards => .assume fun hflags => ?_
  refine (Leads.ofCircuit (meets_selectRule hnodup hlive hflags fired) (FrameCircuit.grows_selectRule _ _)
    (fun h => ⟨hjudges.honest (hused h).1, (hused h).2⟩) fun s circuit hs =>
      hs.withCircuit circuit).bind fun selectors => ?_
  refine Leads.pure.mono (fun s hs => ⟨⟨hscope, hs.1⟩, hs.2⟩) fun _ _ => id

/-- A phase that is built in step with the marked model: its target is worth the outcome. -/
theorem leads_build {σ₁ σ : Type} {rules : List κ} (hnodup : rules.Nodup) {live : κ}
    (hlive : live ∈ rules) (hgate : c.gate = true) {fill : SlotKey → List Pointer}
    (hjudges : c.Judges ω₀ ω known) (hjudges' : (c.idle fill).Judges ω₀ ω known)
    {x : Course BuildM Combination Wire κ σ₁}
    {y : Course (MarkM c) (Marked Int) MarkedPointer κ σ}
    {y' : Course (MarkM (c.idle fill)) (Marked Int) MarkedPointer κ σ} {rel : σ₁ → σ → Prop}
    (hxy : Course.Related hjudges.tracking rel x y)
    (hxy' : Course.Related hjudges'.tracking rel x y') {phase : Phase} {W W₁ W₂ : MarkWorld}
    {scope : σ} {out : Step (Marked Int) MarkedPointer} (hready : Ready c known (W.beginPhase phase))
    (hfollows : y.Follows rules (W.beginPhase phase) scope W₁ live out W₂)
    (hidle : ∀ rule, ∃ o W', (y'.run rule scope).run W₁.beginRules = some (o, W'))
    (hsettled : c.honest = true → Settled c preimages W₁ ∧ Settled c preimages W₂ ∧
      ∀ W, Settled (c.idle fill) preimages W)
    {produced : Step Combination Wire → List Combination} {result : List Element}
    (hproduced : ∀ o, StepTracks ω₀ ω o out → worth ω (produced o) = result)
    {target : List Combination} (htarget : target.length = result.length) (reading : String)
    (label : κ → String) (fired : κ) :
    Leads c ω₀ ω known preimages (c.honest = true ∧ fired = live ∧ worth ω target = result)
      (fun s => s.cursor.base = W.cursor.base ∧ s.gate = none)
      (x.build reading label phase produced fired target) fun _ s =>
        s.cursor.base = W₂.cursor.base ∧ s.gate = none ∧ (ω = ω₀ → fired = live) ∧
          worth ω target = result ∧ Ready c known W₂ := by
  have hagree {o : Step Combination Wire} (ho : StepTracks ω₀ ω o out) :
      Gadget.Agree ω (produced o) target ↔ worth ω target = result := by
    have hlength : (produced o).length = target.length := by
      rw [htarget, ← hproduced o ho, worth, List.length_map]
    rw [agree_iff hlength, hproduced o ho, eq_comm]
  have begun : Leads c ω₀ ω known preimages (c.honest = true ∧ fired = live ∧ worth ω target = result)
      (fun s => s.cursor.base = W.cursor.base ∧ s.gate = none) (.onCursor (·.beginPhase phase))
      fun _ s => Matches c ω₀ ω known s (W.beginPhase phase) := by
    refine .onCursor _ fun s hs => ⟨?_, hready.sound, fun _ => hgate, fun hg => ?_,
      hready.nodes, fun _ => hready.free⟩
    · simp only [SlotCursor.beginPhase, MarkWorld.beginPhase, hs.1]
    · rw [hs.2] at hg
      cases hg
  refine begun.bind fun _ => ?_
  refine ((leads_select hnodup hlive hjudges hxy hfollows (fun h => (hsettled h).1) fired
    fun h => ⟨h.1, h.2.1⟩).within reading (fun _ circuit hs => hs.withCircuit circuit)
    fun _ _ circuit hs => ⟨hs.1, hs.2.withCircuit circuit⟩).bind fun selected =>
      .assume fun hselected => ?_
  obtain ⟨s₁, selectors⟩ := selected
  obtain ⟨hscope, hselectors, hselects, hfired⟩ := hselected
  have started : Leads c ω₀ ω known preimages (c.honest = true ∧ fired = live ∧ worth ω target = result)
      (Matches c ω₀ ω known · W₁) (.onCursor (·.beginRules)) fun _ s =>
        Ready c known W₁ ∧ Resumes W₁ s :=
    .onCursor _ fun s hs => ⟨hs.ready hgate, (congrArg SlotCursor.phase hs.cursor :),
      (congrArg SlotCursor.used hs.cursor :)⟩
  refine started.bind fun _ => .assume fun hready₁ => ?_
  have rule (p : κ × Combination) (hp : p ∈ selectors) : Leads c ω₀ ω known preimages
      (c.honest = true ∧ fired = live ∧ worth ω target = result) (Resumes W₁)
      (BuildM.runRule (label p.1) p.2 (x.run p.1 s₁) produced target) fun _ s => Resumes W₁ s ∧
        (p.1 = live → worth ω target = result ∧ Ready c known W₂) := by
    obtain ⟨hfaithful, hworth⟩ := hselects p hp
    by_cases h : p.1 = live
    · rw [if_pos h] at hworth
      refine (leads_runRule rfl rfl hready₁ hfaithful (by rw [hworth, hgate, if_pos rfl])
        (hxy.run p.1 hscope) (by rw [h]; exact hfollows.run) (fun h => (hsettled h).2.1) (label p.1)
        produced target fun h => ⟨h.1, fun _ o ho => (hagree ho).2 h.2.2⟩).mono (fun _ => id)
        fun _ s hs => ⟨hs.1, fun _ => ?_⟩
      obtain ⟨⟨o, ho, hagrees⟩, hready₂⟩ := hs.2 hgate
      exact ⟨(hagree ho).1 hagrees, hready₂⟩
    · rw [if_neg h] at hworth
      obtain ⟨o, W', hrun⟩ := hidle p.1
      have hready' : Ready (c.idle fill) known W₁ := ⟨hready₁.sound, hready₁.nodes, hready₁.free⟩
      have hworth' : p.2.under ω = if (c.idle fill).gate then 1 else 0 := hworth
      have hhonest : (c.idle fill).honest = c.honest := rfl
      have hsealed : (c.idle fill).sealed = c.sealed := rfl
      refine (leads_runRule hhonest hsealed hready' hfaithful hworth' (hxy'.run p.1 hscope) hrun
        (fun h => (hsettled h).2.2 W') (label p.1) produced target fun h =>
          ⟨h.1, fun hon => absurd hon Bool.false_ne_true⟩).mono
        (fun _ => id) fun _ s hs => ⟨hs.1, fun h' => absurd h' h⟩
  refine (Leads.forM rule).bind fun _ => .setGate none fun s hall => ?_
  obtain ⟨hs, hrules⟩ := hall
  obtain ⟨p, hp, rfl⟩ : ∃ p ∈ selectors, p.1 = live := by
    simpa using (hselectors ▸ hlive : live ∈ selectors.map (·.1))
  obtain ⟨hbound, hready₂⟩ := hrules p hp rfl
  refine ⟨?_, rfl, hfired, hbound, hready₂⟩
  exact hs.2.trans ((y.run _ scope).passes hfollows.run).base.symm

end

end FieldLisp
