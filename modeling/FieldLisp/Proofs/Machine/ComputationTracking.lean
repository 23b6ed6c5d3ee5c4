import FieldLisp.Proofs.Machine.Marked
import FieldLisp.Proofs.Machine.Simulation
import FieldLisp.Proofs.PrimeField
import FieldLisp.Proofs.Runs

/-!
# The computation tracks the marked model

Where a rule that is selected is not stuck in the marked model, computing it on the store gives the
same values, the same store and the same slots. One thing only may fail: a value that the program
reports may have no written form.
-/

namespace FieldLisp

open EStateM (bind_of_ok bind_of_error)

/-- The node is in the store, or was taken in and has the pointer of another one. -/
def Store.Remembers (s : Store) (tag : Tag) (cs : List Pointer) : Prop :=
  s.nodes[Store.nodePointer tag cs]? = some cs ∨ ∃ p, s.interned[(tag, cs)]? = some p

namespace Workspace

/-- A preimage that a step records is one of a node that the store remembers, with as many children as the
slot has. -/
def Records (s : Store) (key : SlotKey) (preimage : List Int) : Prop :=
  ∃ (tag : Tag) (cs : List Pointer), preimage = nodePreimage tag cs ∧ (cs.length : Int) = key.arity ∧
    (∀ p ∈ cs, p.Canonical) ∧ s.Remembers tag cs

/-- A workspace and a marked world are at the same place. -/
structure Mirrors (w : Workspace) (W : MarkWorld) : Prop where
  store : w.store = W.store
  cursor : w.cursor = W.cursor
  slots : w.slots = W.slots
  sound : W.store.Sound
  records : ∀ {key preimage}, W.slots.get? key = some preimage → Records W.store key preimage

/-- The same element. -/
structure SameElement (a : Int) (b : Marked Int) : Prop where
  eq : a = b.value
  canonical : Field.Canonical b.value

/-- The same pointer. -/
structure SamePointer (p : Pointer) (q : MarkedPointer) : Prop where
  eq : p = q.value
  canonical : q.value.Canonical

/-- A run fails because a value has no written form. -/
def Unwritten (r : EStateM.Result Fault Workspace α) : Prop :=
  ∃ fault w p, r = .error fault w ∧ w.store.render p = .error fault

variable {c : Setting}

/-- What is not stuck in the marked model is computed with the same result. If it `reports` values, it
may also fail for want of a written form. -/
def Computed (c : Setting) (reports : Prop) (rel : α → β → Prop) (x : ComputeM α) (y : MarkM c β) :
    Prop :=
  ∀ w W b W', Mirrors w W → y.run W = some (b, W') →
    (∃ a w', x w = .ok a w' ∧ rel a b ∧ Mirrors w' W') ∨ (reports ∧ Unwritten (x w))

variable {reports : Prop}

theorem Computed.pure {rel : α → β → Prop} {a : α} {b : β} (h : rel a b) :
    Computed c reports rel (Pure.pure a) (Pure.pure b) := by
  intro w W b' W' hw hy
  cases hy
  exact .inl ⟨a, w, rfl, h, hw⟩

theorem Computed.bind {rel : α → β → Prop} {rel' : γ → δ → Prop} {x : ComputeM α} {y : MarkM c β}
    {f : α → ComputeM γ} {g : β → MarkM c δ} (hxy : Computed c reports rel x y)
    (hfg : ∀ a b, rel a b → Computed c reports rel' (f a) (g b)) :
    Computed c reports rel' (x >>= f) (y >>= g) := by
  intro w W d W' hw hy
  obtain ⟨⟨b, W₁⟩, hyW, hgW⟩ := Option.bind_eq_some_iff.1 hy
  rcases hxy w W b W₁ hw hyW with ⟨a, w₁, hx, hab, hw₁⟩ | ⟨hreports, fault, w₁, p, hx, hp⟩
  · rw [bind_of_ok hx]
    exact hfg a b hab w₁ W₁ d W' hw₁ hgW
  · exact .inr ⟨hreports, fault, w₁, p, bind_of_error hx _, hp⟩

theorem Computed.require {rel : α → β → Prop} {x : ComputeM α} {p : Prop} [Decidable p] {b : β}
    (h : p → Computed c reports rel x (Pure.pure b)) : Computed c reports rel x (MarkM.require p b) := by
  intro w W b' W' hw hy
  by_cases hp : p
  · rw [MarkM.require_eq hp] at hy
    exact h hp w W b' W' hw hy
  · simp [MarkM.require, hp] at hy

/-! ## Operations -/

theorem sameElement_bit (sure value : Bool) : SameElement (bit value) (.bit sure value) where
  eq := rfl
  canonical := by
    cases value
    · exact Field.canonical_zero
    · exact Field.canonical_one

/-- A condition is zero in both models or in neither. -/
theorem enabled_eq (hcomputes : c.Computes) {k : Option Int} {d : Option (Marked Int)}
    (h : Option.Rel SameElement k d) : enabled k = c.on d := by
  cases h with
  | none => simp [enabled, Setting.on, hcomputes.gate]
  | some h => simp [enabled, Setting.on, hcomputes.gate, h.eq]

theorem computed_div {a b : Int} {a' b' : Marked Int} (ha : SameElement a a')
    (hb : SameElement b b') :
    Computed c reports (fun x y => SameElement x.1 y.1 ∧ SameElement x.2 y.2) (div a b)
      (Pure.pure (MarkM.quotient c a' b')) := by
  obtain rfl := ha.eq
  obtain rfl := hb.eq
  unfold div MarkM.quotient
  by_cases hzero : b'.value = 0
  · rw [if_pos hzero, if_pos hzero]
    exact .pure ⟨⟨rfl, Field.canonical_zero⟩, sameElement_bit _ true⟩
  · rw [if_neg hzero, if_neg hzero, if_neg (by rwa [Field.reduce_eq_self hb.canonical])]
    exact .pure ⟨⟨rfl, Field.reduce_canonical _⟩, sameElement_bit _ false⟩

theorem computed_divRem (hcomputes : c.Computes) {a b : Int} {a' b' : Marked Int} {k : Option Int}
    {d : Option (Marked Int)} (ha : SameElement a a') (hb : SameElement b b')
    (hk : Option.Rel SameElement k d) :
    Computed c reports (fun x y => SameElement x.1 y.1 ∧ SameElement x.2 y.2) (divRem a b k)
      (MarkM.require (MarkM.MayDivide c a' b' d) (MarkM.divided c a' b' d)) := by
  refine .require fun ⟨_, hoperands⟩ => ?_
  obtain rfl := ha.eq
  obtain rfl := hb.eq
  unfold divRem MarkM.divided
  rw [enabled_eq hcomputes hk]
  cases hon : c.on d with
  | false => exact .pure ⟨⟨rfl, Field.canonical_zero⟩, ⟨rfl, Field.canonical_zero⟩⟩
  | true =>
    obtain ⟨_, _, _, hlt, hpos, hlt'⟩ := hoperands hon
    have hnonneg := ha.canonical.1
    have hbits : (2 : Int) ^ divisionBits < Field.order := by decide
    have hquotient : Field.Canonical (a'.value.fdiv b'.value) := by
      rw [Int.fdiv_eq_ediv_of_nonneg _ hpos.le]
      exact ⟨Int.ediv_nonneg hnonneg hpos.le,
        ((Int.ediv_le_self _ hnonneg).trans_lt hlt).trans hbits⟩
    have hremainder : Field.Canonical (a'.value.fmod b'.value) := by
      rw [Int.fmod_eq_emod_of_nonneg _ hpos.le]
      exact ⟨Int.emod_nonneg _ hpos.ne',
        ((Int.emod_lt_of_pos _ hpos).trans hlt').trans hbits⟩
    rw [if_pos rfl, if_pos rfl, if_neg hpos.ne']
    exact .pure ⟨⟨rfl, hquotient⟩, ⟨rfl, hremainder⟩⟩

theorem mirrors_record {w : Workspace} {W : MarkWorld} (hw : Mirrors w W) {arity : ℕ} {store : Store}
    (hsound : store.Sound) {tag : Tag} {cs : List Pointer} (hlength : cs.length = arity)
    (hcs : ∀ p ∈ cs, p.Canonical) (hnew : store.Remembers tag cs)
    (hold : ∀ {tag cs}, W.store.Remembers tag cs → store.Remembers tag cs) :
    Mirrors ⟨store, (w.cursor.next arity).2, w.slots.set (w.cursor.next arity).1
      (nodePreimage tag cs), w.emitted⟩ (W.record arity store (nodePreimage tag cs)) := by
  refine ⟨rfl, by rw [hw.cursor]; rfl, by rw [hw.cursor, hw.slots]; rfl, hsound,
    fun {key preimage} hget => ?_⟩
  by_cases hkey : key = W.key arity
  · subst hkey
    rw [MarkWorld.record, Table.get?_set_self, Option.some.injEq] at hget
    exact ⟨tag, cs, hget.symm, congrArg Nat.cast hlength, hcs, hnew⟩
  · rw [MarkWorld.record, Table.get?_set_of_ne _ _ hkey] at hget
    obtain ⟨tag', cs', hpreimage, hlength', hcs', hremembers⟩ := hw.records hget
    exact ⟨tag', cs', hpreimage, hlength', hcs', hold hremembers⟩

theorem mirrors_skip {w : Workspace} {W : MarkWorld} (hw : Mirrors w W) (arity : Int) :
    Mirrors { w with cursor := (w.cursor.next arity).2 } (W.skip arity) :=
  ⟨hw.store, by rw [hw.cursor]; rfl, hw.slots, hw.sound, hw.records⟩

theorem map_value_eq {ps : List Pointer} {qs : List MarkedPointer}
    (h : List.Forall₂ SamePointer ps qs) : qs.map (·.value) = ps := by
  induction h with
  | nil => rfl
  | cons h _ ih => rw [List.map_cons, ih, h.eq]

theorem computed_hash (hcomputes : c.Computes) {a : Int} {a' : Marked Int} {ps : List Pointer}
    {qs : List MarkedPointer} {k : Option Int} {d : Option (Marked Int)} (ha : SameElement a a')
    (hps : List.Forall₂ SamePointer ps qs) (hk : Option.Rel SameElement k d) :
    Computed c reports SamePointer (hash a ps k) (MarkM.hash a' qs d) := by
  intro w W q W' hw hy
  have hlength := hps.length_eq
  have hvalues : qs.map (·.value) = ps := map_value_eq hps
  have hcanonical : ∀ p ∈ ps, p.Canonical := by
    intro p hp
    obtain ⟨i, hi, rfl⟩ := List.getElem_of_mem hp
    have h := hps.get hi (hlength ▸ hi)
    rw [List.get_eq_getElem] at h
    rw [h.eq]
    exact h.canonical
  have hclaim : hash a ps k w = (match enabled k with
      | true => do
        let tag ← tagOf a
        let p ← onStore (Store.internNode tag ps)
        recordSlot (w.cursor.next ps.length).1 (nodePreimage p.tag ps)
        Pure.pure p
      | false => Pure.pure .nil : ComputeM Pointer) { w with cursor := (w.cursor.next ps.length).2 } := by
    unfold hash claim
    cases enabled k <;> rfl
  by_cases hadmits : c.Admits d
  swap
  · simp [MarkM.hash, hadmits] at hy
  rw [hclaim, enabled_eq hcomputes hk]
  cases hon : c.on d with
  | false =>
    simp only [MarkM.hash, hadmits, hon, if_true, Bool.false_eq_true, if_false,
      Option.some.injEq, Prod.mk.injEq] at hy
    obtain ⟨rfl, rfl⟩ := hy
    rw [← hlength]
    exact .inl ⟨.nil, _, rfl, ⟨rfl, Pointer.immediate_canonical .nil 0⟩, mirrors_skip hw _⟩
  | true =>
    simp only [MarkM.hash, hadmits, hon, if_true, hvalues] at hy
    split at hy
    · cases hy
    rename_i tag htag
    split at hy
    swap
    · cases hy
    split at hy
    swap
    · cases hy
    rename_i p store hintern
    cases hy
    obtain ⟨rfl, htakes⟩ := Store.internNode_ok hw.sound hcanonical hintern
    obtain ⟨hnew, hold⟩ := Store.internNode_remembers hintern
    refine .inl ⟨Store.nodePointer tag ps, ⟨store, (w.cursor.next ps.length).2, w.slots.set
      (w.cursor.next ps.length).1 (nodePreimage tag ps), w.emitted⟩, ?_,
      ⟨rfl, Store.nodePointer_canonical tag ps⟩, ?_⟩
    · rw [ha.eq]
      simp only [tagOf, htag]
      change (onStore (Store.internNode tag ps) >>= _) _ = _
      refine bind_of_ok (t := { w with store := store, cursor := (w.cursor.next ps.length).2 }) ?_ _
      simp only [onStore, hw.store, hintern]
    · rw [← hlength]
      exact mirrors_record hw htakes.sound rfl hcanonical (.inr ⟨_, hnew⟩)
        (.imp htakes.extends_.node (Exists.imp fun _ => hold))

theorem computed_unhash (hcomputes : c.Computes) {p : Pointer} {q : MarkedPointer} (arity : ℕ)
    {k : Option Int} {d : Option (Marked Int)} (hp : SamePointer p q)
    (hk : Option.Rel SameElement k d) :
    Computed c reports (List.Forall₂ SamePointer) (unhash p arity k) (MarkM.unhash q arity d) := by
  intro w W qs W' hw hy
  have hclaim : unhash p arity k w = (match enabled k with
      | true => do
        let children ← ask (·.fetch p (some (arity : Int)))
        recordSlot (w.cursor.next arity).1 (nodePreimage p.tag children)
        Pure.pure children
      | false => Pure.pure (List.replicate (arity : Int).toNat .nil) : ComputeM (List Pointer))
      { w with cursor := (w.cursor.next arity).2 } := by
    unfold unhash claim
    cases enabled k <;> rfl
  by_cases hadmits : c.Admits d
  swap
  · simp [MarkM.unhash, hadmits] at hy
  rw [hclaim, enabled_eq hcomputes hk]
  cases hon : c.on d with
  | false =>
    simp only [MarkM.unhash, hadmits, hon, if_true, Bool.false_eq_true, if_false] at hy
    split at hy
    swap
    · cases hy
    cases hy
    refine .inl ⟨List.replicate arity .nil, _, rfl, ?_, mirrors_skip hw _⟩
    have hkey : (W.key (arity : Int)).arity.toNat = arity := rfl
    rw [MarkM.leftOver, hcomputes.fill, hkey]
    refine List.forall₂_iff_get.2 ⟨by simp, fun i h₁ h₂ => ?_⟩
    simp only [List.get_eq_getElem, List.getElem_mapIdx, List.getElem_replicate]
    exact ⟨rfl, Pointer.immediate_canonical .nil 0⟩
  | true =>
    simp only [MarkM.unhash, hadmits, hon, if_true] at hy
    split at hy
    swap
    · cases hy
    split at hy
    swap
    · cases hy
    rename_i cs hfetch
    cases hy
    obtain ⟨hnode, n, harity, hn⟩ := Store.fetch_ok hfetch
    obtain ⟨hcount, hpointer, hholds⟩ := hw.sound.node hnode
    have hcs : ∀ p ∈ cs, p.Canonical := fun p hp => (hholds p hp).canonical
    have hlength : cs.length = arity := by
      rw [harity, Option.some.injEq] at hcount
      omega
    obtain rfl := hp.eq
    refine .inl ⟨cs, ⟨w.store, (w.cursor.next arity).2, w.slots.set (w.cursor.next arity).1
      (nodePreimage q.value.tag cs), w.emitted⟩, ?_, ?_, ?_⟩
    · refine bind_of_ok (t := { w with cursor := (w.cursor.next arity).2 }) ?_ _
      simp only [ask, hw.store, hfetch]
    · refine List.forall₂_map_right_iff.2 (List.forall₂_same.2 fun p hp => ⟨rfl, hcs p hp⟩)
    · rw [hw.store]
      exact mirrors_record hw hw.sound hlength hcs (.inl (by rwa [← hpointer])) id

theorem computed_emit {p : Pointer} {q : MarkedPointer} {k : Option Int} {d : Option (Marked Int)} :
    Computed c True (fun _ _ => True) (emit p k) (StepModel.emit q d) := by
  intro w W b W' hw hy
  cases hy
  cases hon : enabled k with
  | false => exact .inl ⟨(), w, by simp only [emit, hon, Bool.false_eq_true, if_false]; rfl, trivial, hw⟩
  | true =>
    have hemit : emit p k w = (do
        let _ ← ask (·.render p)
        Pure.pure () : ComputeM Unit) { w with emitted := p :: w.emitted } := by
      simp only [emit, hon, if_true]
      rfl
    rw [hemit]
    cases hrender : w.store.render p with
    | ok text =>
      refine .inl ⟨(), { w with emitted := p :: w.emitted }, ?_, trivial, hw.store, hw.cursor,
        hw.slots, hw.sound, hw.records⟩
      change EStateM.bind _ _ _ = _
      simp only [EStateM.bind, ask, hrender]
      rfl
    | error fault =>
      refine .inr ⟨trivial, fault, { w with emitted := p :: w.emitted }, p, ?_, hrender⟩
      change EStateM.bind _ _ _ = _
      simp only [EStateM.bind, ask, hrender]

theorem computed_makePointer {a : Int} {b : Marked Int} (tag : Tag) (h : SameElement a b) :
    Computed c reports SamePointer
      (StepModel.makePointer (StepModel.lit tag.value)
        [a, StepModel.lit 0, StepModel.lit 0, StepModel.lit 0])
      (StepModel.makePointer (StepModel.lit tag.value)
        [b, StepModel.lit 0, StepModel.lit 0, StepModel.lit 0]) := by
  obtain rfl := h.eq
  rw [MarkM.makePointer_eq]
  have htag : (StepModel.makePointer (StepModel.lit tag.value : Int)
      [b.value, StepModel.lit 0, StepModel.lit 0, StepModel.lit 0] : ComputeM Pointer) =
      Pure.pure ⟨tag, [b.value, 0, 0, 0]⟩ := by
    change (tagOf (Field.reduce tag.value) >>= fun t =>
      Pure.pure (⟨t, _⟩ : Pointer) : ComputeM Pointer) = _
    rw [Field.reduce_eq_self tag.value_canonical, tagOf, Tag.ofValue?_value]
    rfl
  rw [htag]
  refine .pure ⟨rfl, rfl, ?_⟩
  simpa [Field.canonical_zero] using h.canonical

theorem computed_payload {p : Pointer} {q : MarkedPointer} (h : SamePointer p q) :
    Computed c reports SameElement (StepModel.payload p) (StepModel.payload q) := by
  obtain rfl := h.eq
  have hpayload : q.value.payload = .ok (q.value.digest.headD 0) := by
    obtain ⟨d0, d1, d2, d3, hdigest⟩ := h.canonical.exists_digest
    rw [Pointer.payload, hdigest]
    rfl
  intro w W b W' hw hy
  cases hy
  refine .inl ⟨q.value.digest.headD 0, w, ?_, ⟨rfl, h.canonical.payload⟩, hw⟩
  change ask (fun _ => q.value.payload) w = _
  simp only [ask, hpayload]

/-- The operations of a step, with another way to report a value. -/
abbrev reporting (report : Pointer → Option Int → ComputeM Unit) : StepModel ComputeM Int Pointer :=
  { (inferInstance : StepModel ComputeM Int Pointer) with emit := report }

/-- Computing a rule that is selected tracks running it in the marked model, however values are
reported. -/
def computingWith (hcomputes : c.Computes) (report : Pointer → Option Int → ComputeM Unit)
    (hreport : ∀ {p : Pointer} {q : MarkedPointer} {k : Option Int} {d : Option (Marked Int)},
      Computed c reports (fun _ _ => True) (report p k) (StepModel.emit q d)) :
    @Simulation ComputeM (MarkM c) Int (Marked Int) Pointer MarkedPointer _ _ _ _ _ _
      (reporting report) _ :=
  letI := reporting report
  { elem := SameElement
    pointer := SamePointer
    run := Computed c reports
    pure := .pure
    bind := .bind
    lit n := ⟨rfl, Field.reduce_canonical n⟩
    add h h' := ⟨by rw [h.eq, h'.eq]; rfl, Field.reduce_canonical _⟩
    sub h h' := ⟨by rw [h.eq, h'.eq]; rfl, Field.reduce_canonical _⟩
    ptr hp := ⟨rfl, hp⟩
    makePointer := computed_makePointer
    payload := computed_payload
    mul h h' := .pure ⟨by rw [h.eq, h'.eq]; rfl, Field.reduce_canonical _⟩
    div := computed_div
    isZero h := by
      obtain rfl := h.eq
      exact .pure (sameElement_bit _ _)
    isNegative h := by
      obtain rfl := h.eq
      exact .pure (sameElement_bit _ _)
    less h h' := by
      obtain rfl := h.eq
      obtain rfl := h'.eq
      exact .pure (sameElement_bit _ _)
    divRem := computed_divRem hcomputes
    select {a b x x' y y'} h hx hy := .require fun _ => .pure <| by
      obtain rfl := h.eq
      unfold MarkM.chosen
      split
      · exact ⟨hy.eq, hy.canonical⟩
      · exact ⟨hx.eq, hx.canonical⟩
    selectPointer {a b p p' q q'} h hp hq := .require fun _ => .pure <| by
      obtain rfl := h.eq
      unfold MarkM.chosenPointer
      split
      · exact ⟨hq.eq, hq.canonical⟩
      · exact ⟨hp.eq, hp.canonical⟩
    tagIs tag h := by
      obtain rfl := h.eq
      exact .pure (sameElement_bit _ _)
    pointerEq h h' := by
      obtain rfl := h.eq
      obtain rfl := h'.eq
      exact .pure (sameElement_bit _ _)
    hash := computed_hash hcomputes
    unhash := computed_unhash hcomputes
    emit _ _ := hreport }

/-- Computing a rule that is selected tracks running it in the marked model. -/
def computing (hcomputes : c.Computes) :
    Simulation ComputeM (MarkM c) Int (Marked Int) Pointer MarkedPointer :=
  computingWith hcomputes emit computed_emit

/-- What reports nothing is computed without fail. -/
def computingSilently (hcomputes : c.Computes) :
    @Simulation ComputeM (MarkM c) Int (Marked Int) Pointer MarkedPointer _ _ _ _ _ _
      (reporting fun _ _ => Pure.pure ()) _ :=
  @computingWith _ False hcomputes (fun _ _ => Pure.pure ()) fun w W _ _ hw hy =>
    .inl ⟨(), w, rfl, trivial, by cases hy; exact hw⟩

end Workspace

end FieldLisp
