import FieldLisp.Proofs.Circuit.Building
import FieldLisp.Proofs.Circuit.Sponge
import FieldLisp.Proofs.Machine.Marked

/-!
# Circuits track the marked model

While a circuit is built, the marked model says what the combinations are worth under a valuation
that satisfies the circuit:

* `ElementTracks`, `WireTracks`: a sure value is what a combination is worth;
* `Lawful`: what has been built for later use obeys its laws;
* `Matches`: a synthesis and a marked world are at the same place;
* `Tracks`: an operation that is run in step with one of the marked model keeps all this, and where
  the witness is honest it keeps the circuit satisfied.
-/

namespace FieldLisp

open FieldLisp.Field (Element)
open EStateM (bind_eq_ok pure_eq_ok)

/-! ## Values -/

/-- A combination is worth a marked value, if that is sure. -/
structure ElementTracks (ω₀ ω : Valuation) (x : Combination) (a : Marked Int) : Prop where
  faithful : x.Faithful ω₀
  canonical : Field.Canonical a.value
  under_eq : a.sure = true → x.under ω = a.value

/-- What lists of combinations are worth. -/
def worth (ω : Valuation) (xs : List Combination) : List Element := xs.map (·.under ω)

/-- Numbers as elements of the field. -/
def classes (numbers : List Int) : List Element := numbers.map (↑)

/-- A pointer inside a circuit is worth a marked pointer, as far as that is sure. -/
structure WireTracks (ω₀ ω : Valuation) (w : Wire) (p : MarkedPointer) : Prop where
  faithful : ∀ x ∈ w.elements, x.Faithful ω₀
  canonical : p.value.Canonical
  worth_eq : p.sure = true → worth ω w.elements = classes p.value.elements
  notPair : p.notPair = true → w.tag.under ω ≠ 1 ∧ p.value.tag ≠ .cons

/-- Canonical numbers of equal classes are equal. -/
theorem classes_inj {xs ys : List Int} (hx : ∀ x ∈ xs, Field.Canonical x)
    (hy : ∀ y ∈ ys, Field.Canonical y) (h : classes xs = classes ys) : xs = ys := by
  induction xs generalizing ys with
  | nil => simpa [classes, eq_comm] using h
  | cons x xs ih =>
    cases ys with
    | nil => simp [classes] at h
    | cons y ys =>
      simp only [classes, List.map_cons, List.cons.injEq] at h
      simp only [List.mem_cons, forall_eq_or_imp] at hx hy
      rw [(Field.cast_inj hx.1 hy.1).1 h.1, ih hx.2 hy.2 h.2]

theorem cast_tag_inj {a b : Tag} : (a.value : Element) = b.value ↔ a = b := by
  rw [Field.cast_inj (a.value_canonical) (b.value_canonical)]
  exact ⟨Tag.value_injective, fun h => h ▸ rfl⟩

/-- What the parts of a pointer are worth. -/
theorem WireTracks.parts {ω₀ ω : Valuation} {w : Wire} {p : MarkedPointer}
    (h : WireTracks ω₀ ω w p) (hsure : p.sure = true) : ∃ d0 d1 d2 d3 : Int,
      p.value.digest = [d0, d1, d2, d3] ∧ w.tag.under ω = p.value.tag.value ∧
      w.digest.d0.under ω = d0 ∧ w.digest.d1.under ω = d1 ∧ w.digest.d2.under ω = d2 ∧
      w.digest.d3.under ω = d3 := by
  obtain ⟨d0, d1, d2, d3, hdigest⟩ := h.canonical.exists_digest
  have hworth := h.worth_eq hsure
  rw [Pointer.elements, hdigest] at hworth
  simp only [worth, classes, Wire.elements, Digest.toList, List.map_cons, List.map_nil,
    List.cons.injEq, and_true] at hworth
  exact ⟨d0, d1, d2, d3, hdigest, hworth⟩

/-! ## What is kept -/

/-- What the variables of a slot read under a valuation. -/
def HashSlot.reading (ω : Valuation) (slot : HashSlot) : List Int :=
  slot.preimage.map fun x => Field.representative (x.under ω)

/-- A slot carries its witness, and hashes what its variables read. -/
structure SlotLaw (ω₀ ω : Valuation) (preimages : SlotTable) (key : SlotKey) (slot : HashSlot) :
    Prop where
  length : (slot.preimage.length : Int) = preimageSize key.arity
  values : slot.preimage.map (·.value) = (Synthesis.content preimages key).map Field.reduce
  faithful : ∀ x ∈ slot.preimage, x.Faithful ω₀
  image : List.Forall₂ (Combination.Reads ω₀ ω) slot.image.toList
    (Sponge.hash (slot.reading ω)).toList

/-- Zero tests and slots that were built obey their laws. -/
structure Lawful (ω₀ ω : Valuation) (s : Synthesis) : Prop where
  limit : s.circuit.limit = none
  zeroTests : ∀ {x : Combination} {test : Combination × Combination},
    s.zeroTests.lookup x.terms = some test → x.Faithful ω₀ → Gadget.ZeroTest ω₀ ω x test.1 test.2
  slots : ∀ {key slot}, s.slots.lookup key = some slot → SlotLaw ω₀ ω s.preimages key slot

/-- Elements of a slot that hold pointers. -/
def Decodes (preimage : List Int) (children : List Pointer) : Prop :=
  ∃ first : Int, preimage = first :: children.flatMap Pointer.elements

/-- The slot is one that the phase has left behind. -/
def MarkWorld.Behind (W : MarkWorld) (key : SlotKey) : Prop :=
  key.phase = W.cursor.phase ∧ key.index < W.cursor.used key.arity

/-- Witnesses for slots are what the marked model recorded, and elsewhere what it supposes. -/
structure Settled (c : Setting) (preimages : SlotTable) (W : MarkWorld) : Prop where
  recorded : c.gate = true → ∀ {key preimage}, W.Behind key →
    W.slots.get? key = some preimage → preimages.get? key = some preimage
  leftOver : ∀ {key}, 0 ≤ key.arity →
    (c.gate = true → W.Behind key ∧ W.slots.get? key = none) →
    Decodes (Synthesis.content preimages key) (c.fill key)

/-- What a setting asks of two valuations: honest witnesses are the own one, and other witnesses
open no digest in two ways. -/
structure Setting.Judges (c : Setting) (ω₀ ω : Valuation) (known : List Int → Prop) : Prop where
  honest : c.honest = true → ω = ω₀
  signs : c.signs = true → ω = ω₀
  binding : c.honest = false → ∀ {xs ys}, known xs → known ys → Sponge.hash xs = Sponge.hash ys →
    xs = ys
  canonical : ∀ {key p}, p ∈ c.fill key → p.Canonical
  sealed : ∀ {key i p}, (c.fill key)[i]? = some p → c.sealed key i = true → p.tag ≠ .cons

/-- What must hold of the circuit in the end, wherever the marked model is. -/
structure Final (c : Setting) (ω₀ ω : Valuation) (known : List Int → Prop) (t : Synthesis) :
    Prop where
  fits : t.circuit.Fits ω₀
  known : c.honest = false → ∀ {key slot}, t.slots.lookup key = some slot →
    known (slot.reading ω) ∨ (slot.reading ω).head? = some 0
  sealed : ∀ {key slot i x}, t.slots.lookup key = some slot → c.sealed key i = true →
    slot.preimage[1 + 5 * i]? = some x → x.under ω ≠ 1

/-- What must hold of the circuit in the end, where the marked model has come to a world. -/
structure Later (c : Setting) (ω₀ ω : Valuation) (known : List Int → Prop) (t : Synthesis)
    (W : MarkWorld) : Prop extends Final c ω₀ ω known t where
  settled : c.honest = true → Settled c t.preimages W

/-- A synthesis and a marked world are at the same place. -/
structure Matches (c : Setting) (ω₀ ω : Valuation) (known : List Int → Prop) (s : Synthesis)
    (W : MarkWorld) : Prop where
  cursor : s.cursor = W.cursor
  sound : W.store.Sound
  ungated : s.gate = none → c.gate = true
  gated : ∀ {g}, s.gate = some g → g.Faithful ω₀ ∧ g.under ω = if c.gate then 1 else 0
  nodes : c.honest = false → ∀ {p : Pointer} {cs : List Pointer}, W.store.nodes[p]? = some cs →
    known (nodePreimage p.tag cs)
  free : c.gate = true → ∀ {key}, W.Ahead key → W.slots.get? key = none

theorem Settled.passes {c : Setting} {preimages : SlotTable} {W W' : MarkWorld}
    (h : Settled c preimages W') (hpasses : W.Passes W') : Settled c preimages W := by
  have behind {key} (hkey : W.Behind key) :
      W'.Behind key ∧ W'.slots.get? key = W.slots.get? key := by
    refine ⟨⟨hkey.1.trans hpasses.phase.symm, hkey.2.trans_le (hpasses.used _)⟩,
      hpasses.slots key fun hahead => ?_⟩
    have := hkey.2
    have := hahead.2
    omega
  refine ⟨fun hgate _ _ hkey hget => ?_, fun harity hkey => h.leftOver harity fun hgate => ?_⟩
  · obtain ⟨hbehind, hsame⟩ := behind hkey
    exact h.recorded hgate hbehind (hsame.trans hget)
  · obtain ⟨hkey, hget⟩ := hkey hgate
    obtain ⟨hbehind, hsame⟩ := behind hkey
    exact ⟨hbehind, hsame.trans hget⟩

theorem Final.earlier {c : Setting} {ω₀ ω : Valuation} {known : List Int → Prop}
    {s t : Synthesis} (h : Final c ω₀ ω known t) (hext : s.Extends t) : Final c ω₀ ω known s where
  fits := hext.circuit.fits h.fits
  known hhonest _ _ hslot := h.known hhonest (hext.slots hslot)
  sealed hslot := h.sealed (hext.slots hslot)

theorem Later.earlier {c : Setting} {ω₀ ω : Valuation} {known : List Int → Prop}
    {s t : Synthesis} {W W' : MarkWorld} (h : Later c ω₀ ω known t W') (hext : s.Extends t)
    (hpasses : W.Passes W') : Later c ω₀ ω known s W where
  toFinal := h.toFinal.earlier hext
  settled hhonest := (hext.preimages ▸ h.settled hhonest).passes hpasses

/-! ## Operations that leave the marked world alone -/

section
variable {c : Setting} {ω₀ ω : Valuation} {known : List Int → Prop}

/-- In a satisfied circuit the result of an operation has a property; an operation that is used
honestly keeps the circuit satisfied; and all laws are kept. -/
def Tells (c : Setting) (ω₀ ω : Valuation) (known : List Int → Prop) (x : BuildM α)
    (post : α → Prop) : Prop :=
  ∀ s W a t, Lawful ω₀ ω s → Matches c ω₀ ω known s W → x.run s = .ok a t →
    t.circuit.Fits ω₀ →
    (c.honest = true → s.circuit.Satisfied ω → t.circuit.Satisfied ω) ∧
    (t.circuit.Satisfied ω → post a ∧ Lawful ω₀ ω t ∧ Matches c ω₀ ω known t W)

/-- Operations that are run in step, one on a synthesis and one on a marked world, lead to related
results. -/
def Tracks (c : Setting) (ω₀ ω : Valuation) (known : List Int → Prop) (rel : α → β → Prop)
    (x : BuildM α) (y : MarkM c β) : Prop :=
  ∀ s W a t b W', Lawful ω₀ ω s → Matches c ω₀ ω known s W → x.run s = .ok a t →
    y.run W = some (b, W') → Later c ω₀ ω known t W' →
    (c.honest = true → s.circuit.Satisfied ω → t.circuit.Satisfied ω) ∧
    (t.circuit.Satisfied ω → rel a b ∧ Lawful ω₀ ω t ∧ Matches c ω₀ ω known t W')

theorem Tells.pure {a : α} {post : α → Prop} (h : post a) :
    Tells c ω₀ ω known (Pure.pure a) post := by
  intro s W b t hlawful hmatches hx _
  obtain ⟨rfl, rfl⟩ := pure_eq_ok.1 hx
  exact ⟨fun _ => id, fun _ => ⟨h, hlawful, hmatches⟩⟩

theorem Tells.bind {x : BuildM α} {f : α → BuildM β} {mid : α → Prop} {post : β → Prop}
    (hx : Tells c ω₀ ω known x mid) (hf : ∀ a, mid a → Tells c ω₀ ω known (f a) post) :
    Tells c ω₀ ω known (x >>= f) post := by
  intro s W b u hlawful hmatches h hfits
  obtain ⟨a, t, hxs, hft⟩ := bind_eq_ok.1 h
  have hst := x.grows.extends_ hlawful.limit hxs
  have htu := (f a).grows.extends_ (hst.limit hlawful.limit) hft
  obtain ⟨hkeep, hmid⟩ := hx _ _ _ _ hlawful hmatches hxs (htu.circuit.fits hfits)
  refine ⟨fun hhonest hsat => ?_, fun hsat => ?_⟩
  · have hsat := hkeep hhonest hsat
    obtain ⟨ha, hlawful, hmatches⟩ := hmid hsat
    exact (hf a ha _ _ _ _ hlawful hmatches hft hfits).1 hhonest hsat
  · obtain ⟨ha, hlawful, hmatches⟩ := hmid (htu.circuit.satisfied hsat)
    exact (hf a ha _ _ _ _ hlawful hmatches hft hfits).2 hsat

theorem Tells.mono {x : BuildM α} {post post' : α → Prop} (hx : Tells c ω₀ ω known x post)
    (h : ∀ a, post a → post' a) : Tells c ω₀ ω known x post' := by
  intro s W a t hlawful hmatches hxs hfits
  obtain ⟨hkeep, hpost⟩ := hx _ _ _ _ hlawful hmatches hxs hfits
  exact ⟨hkeep, fun hsat => ⟨h a (hpost hsat).1, (hpost hsat).2⟩⟩

theorem Tells.tracks {x : BuildM α} {post : α → Prop} {rel : α → β → Prop} {b : β}
    (hx : Tells c ω₀ ω known x post) (h : ∀ a, post a → rel a b) :
    Tracks c ω₀ ω known rel x (Pure.pure b) := by
  intro s W a t b' W' hlawful hmatches hxs hy hlater
  cases hy
  obtain ⟨hkeep, hpost⟩ := hx _ _ _ _ hlawful hmatches hxs hlater.fits
  exact ⟨hkeep, fun hsat => ⟨h a (hpost hsat).1, (hpost hsat).2⟩⟩

theorem Tracks.pure {rel : α → β → Prop} {a : α} {b : β} (h : rel a b) :
    Tracks c ω₀ ω known rel (Pure.pure a) (Pure.pure b) := by
  have tells : Tells c ω₀ ω known (Pure.pure a) (rel · b) := .pure h
  exact tells.tracks fun _ => id

theorem Tracks.require {rel : α → β → Prop} {x : BuildM α} {p : Prop} [Decidable p] {b : β}
    (h : p → Tracks c ω₀ ω known rel x (Pure.pure b)) :
    Tracks c ω₀ ω known rel x (MarkM.require p b) := by
  intro s W a t b' W' hlawful hmatches hxs hy
  by_cases hp : p
  · rw [MarkM.require_eq hp] at hy
    exact h hp _ _ _ _ _ _ hlawful hmatches hxs hy
  · simp [MarkM.require, hp] at hy

theorem Tracks.bind {rel : α → β → Prop} {rel' : γ → δ → Prop} {x : BuildM α} {y : MarkM c β}
    {f : α → BuildM γ} {g : β → MarkM c δ} (hxy : Tracks c ω₀ ω known rel x y)
    (hfg : ∀ a b, rel a b → Tracks c ω₀ ω known rel' (f a) (g b)) :
    Tracks c ω₀ ω known rel' (x >>= f) (y >>= g) := by
  intro s W b u d W' hlawful hmatches h hy hlater
  obtain ⟨a, t, hxs, hft⟩ := bind_eq_ok.1 h
  obtain ⟨⟨e, W₁⟩, hyW, hgW⟩ := Option.bind_eq_some_iff.1 hy
  have hst := x.grows.extends_ hlawful.limit hxs
  have htu := (f a).grows.extends_ (hst.limit hlawful.limit) hft
  have hlater₁ := hlater.earlier htu ((g e).passes hgW)
  obtain ⟨hkeep, hmid⟩ := hxy _ _ _ _ _ _ hlawful hmatches hxs hyW hlater₁
  refine ⟨fun hhonest hsat => ?_, fun hsat => ?_⟩
  · have hsat := hkeep hhonest hsat
    obtain ⟨ha, hlawful, hmatches⟩ := hmid hsat
    exact (hfg a e ha _ _ _ _ _ _ hlawful hmatches hft hgW hlater).1 hhonest hsat
  · obtain ⟨ha, hlawful, hmatches⟩ := hmid (htu.circuit.satisfied hsat)
    exact (hfg a e ha _ _ _ _ _ _ hlawful hmatches hft hgW hlater).2 hsat

end

end FieldLisp
