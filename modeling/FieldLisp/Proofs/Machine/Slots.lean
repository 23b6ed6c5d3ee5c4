import FieldLisp.Proofs.Machine.Flags

/-!
# Slots of the marked model

Nodes go in and out of a store through slots. An operation that is on asks for pointers that are
sure and in the store; one that is off asks for nothing:

* `Reliable`: a pointer is sure, and in the store;
* `Opened`: what a slot gives for a child, reliable if it is on and left over if it is off;
* `yields_hashTag`, `yields_buildList`: nodes that go in;
* `yields_unhash`, `yields_unhash2`, `yields_unhash3`: nodes that are taken apart.
-/

namespace FieldLisp

open StepModel

/-- A setting that fits the slots, and is complete where it is honest. -/
structure Setting.Proper (c : Setting) : Prop where
  length : ∀ key : SlotKey, 0 ≤ key.arity → ((c.fill key).length : Int) = key.arity
  signs : c.honest = true → c.signs = true
  sealed : ∀ {key i p}, (c.fill key)[i]? = some p → c.sealed key i = true → p.tag ≠ .cons

/-- What is left over in a sealed place is no pair. -/
theorem Setting.Proper.getD_sealed {c : Setting} (h : c.Proper) {key : SlotKey} {i : ℕ}
    (hsealed : c.sealed key i = true) : ((c.fill key).getD i .nil).tag ≠ .cons := by
  rw [List.getD_eq_getElem?_getD]
  cases hget : (c.fill key)[i]? with
  | none => nofun
  | some p => exact h.sealed hget hsealed

namespace MarkM

variable {c : Setting}

/-- A pointer that all admitted witnesses agree on, and that is in the store. -/
structure Reliable (s : Store) (p : MarkedPointer) : Prop where
  sure : p.sure = true
  holds : s.Holds p.value

theorem Reliable.extends {s t : Store} {p : MarkedPointer} (h : Reliable s p) (hst : s.Extends t) :
    Reliable t p := ⟨h.sure, hst.holds h.holds⟩

theorem reliable_certain {s : Store} {p : Pointer} (h : s.Holds p) : Reliable s (.certain p) :=
  ⟨rfl, h⟩

theorem reliable_immediate (s : Store) (tag : Tag) (value : Int) (h : tag.isImmediate = true) :
    Reliable s (.certain (.immediate tag value)) :=
  reliable_certain (s.holds_immediate (Pointer.immediate_canonical tag value) h)

theorem reliable_nil (s : Store) : Reliable s (.certain .nil) := reliable_certain s.holds_nil

/-- A child that a slot gives. -/
structure Opened (c : Setting) (s : Store) (enabled : Bool) (key : SlotKey) (i : ℕ)
    (p : MarkedPointer) : Prop where
  reliable : enabled = true → Reliable s p
  eq : enabled = false → p = ⟨(c.fill key).getD i .nil, c.honest, c.sealed key i⟩

theorem Opened.sure_of_honest {s : Store} {enabled : Bool} {key : SlotKey} {i : ℕ}
    {p : MarkedPointer} (h : Opened c s enabled key i p) (hhonest : c.honest = true) :
    p.sure = true := by
  cases henabled : enabled with
  | true => exact (h.reliable henabled).sure
  | false => rw [h.eq henabled, hhonest]

/-! ## Nodes that go in -/

/-- Taking in a node succeeds if its tag and children are reliable where it is on. -/
theorem yields_hash (tag : Tag) {number : Marked Int} {children : List MarkedPointer}
    {condition : Option (Marked Int)} {W : MarkWorld} {post : MarkedPointer → MarkWorld → Prop}
    (hsound : W.store.Sound) (hadmits : c.Admits condition)
    (hon : c.on condition = true → number.sure = true ∧ number.value = tag.value ∧
      tag.arity? = some children.length ∧ ∀ p ∈ children, Reliable W.store p)
    (hpost : ∀ p W', W'.store.Sound → W.store.Extends W'.store →
      (c.on condition = true → Reliable W'.store p) → post p W') :
    (StepModel.hash number children condition : MarkM c MarkedPointer).Yields W post := by
  cases hcondition : c.on condition with
  | false =>
    refine ⟨⟨.nil, false, false⟩, W.skip children.length, ?_, hpost _ _ hsound (.refl _) ?_⟩
    · change (hash number children condition).run W = _
      simp [hash, hadmits, hcondition]
    · simp [hcondition]
  | true =>
    obtain ⟨hsure, hvalue, harity, hchildren⟩ := hon hcondition
    obtain ⟨cs, hcs⟩ : ∃ cs, cs = children.map (·.value) := ⟨_, rfl⟩
    have hheld : ∀ p ∈ cs, W.store.Holds p := by
      intro p hp
      rw [hcs] at hp
      obtain ⟨q, hq, rfl⟩ := List.mem_map.1 hp
      exact (hchildren q hq).holds
    obtain ⟨t, hintern, htakes⟩ := Store.internNode_takes hsound
      (by rw [hcs, List.length_map]; exact harity) hheld
    refine ⟨.certain (Store.nodePointer tag cs), W.record children.length t (nodePreimage tag cs),
      ?_, hpost _ _ htakes.sound htakes.extends_ fun _ => reliable_certain htakes.holds⟩
    change (hash number children condition).run W = _
    have hall : number.sure = true ∧ ∀ p ∈ children, p.sure = true :=
      ⟨hsure, fun p hp => (hchildren p hp).sure⟩
    simp only [hash, hadmits, hcondition, hvalue, Tag.ofValue?_value, if_pos hall, ← hcs, hintern,
      if_true]
    rfl

theorem yields_hashTag {tag : Tag} {children : List MarkedPointer}
    {condition : Option (Marked Int)} {W : MarkWorld} {post : MarkedPointer → MarkWorld → Prop}
    (hsound : W.store.Sound) (harity : tag.arity? = some children.length)
    (hadmits : c.Admits condition)
    (hon : c.on condition = true → ∀ p ∈ children, Reliable W.store p)
    (hpost : ∀ p W', W'.store.Sound → W.store.Extends W'.store →
      (c.on condition = true → Reliable W'.store p) → post p W') :
    (hashTag tag children condition : MarkM c MarkedPointer).Yields W post :=
  yields_hash tag hsound hadmits
    (fun h => ⟨rfl, Field.reduce_eq_self tag.value_canonical, harity, hon h⟩) hpost

/-- Taking in a list succeeds if its items are reliable where it is on. -/
theorem yields_buildList {items : List MarkedPointer} {condition : Option (Marked Int)}
    {W : MarkWorld} {post : MarkedPointer → MarkWorld → Prop} (hsound : W.store.Sound)
    (hadmits : c.Admits condition)
    (hon : c.on condition = true → ∀ p ∈ items, Reliable W.store p)
    (hpost : ∀ p W', W'.store.Sound → W.store.Extends W'.store →
      (c.on condition = true → Reliable W'.store p) → post p W') :
    (buildList items condition : MarkM c MarkedPointer).Yields W post := by
  unfold buildList
  have hrest : c.on condition = true → Reliable W.store (.certain .nil) :=
    fun _ => reliable_nil W.store
  have hitems : c.on condition = true → ∀ p ∈ items.reverse, Reliable W.store p :=
    fun h p hp => hon h p (List.mem_reverse.1 hp)
  rw [ptr_eq]
  generalize items.reverse = items at hitems
  generalize MarkedPointer.certain .nil = rest at hrest
  clear hon
  induction items generalizing rest W with
  | nil => exact yields_pure.2 (hpost rest W hsound (.refl _) hrest)
  | cons item items ih =>
    rw [List.foldlM_cons, yields_bind]
    refine yields_hashTag hsound rfl hadmits (fun h p hp => ?_) fun p W' hsound' hext hp => ?_
    · rcases List.mem_pair.1 hp with rfl | rfl
      · exact hitems h _ List.mem_cons_self
      · exact hrest h
    · exact ih hsound' (fun q V hV hext' hq => hpost q V hV (hext.trans hext') hq)
        (fun h q hq => (hitems h q (List.mem_cons_of_mem _ hq)).extends hext) p hp

/-! ## Nodes that are taken apart -/

/-- A slot is passed by, and nothing is taken in. -/
structure Reads (W : MarkWorld) (arity : Int) (W' : MarkWorld) : Prop where
  store : W'.store = W.store
  cursor : W'.cursor = (W.cursor.next arity).2

theorem yields_unhash (arity : ℕ) {p : MarkedPointer} {condition : Option (Marked Int)}
    {W : MarkWorld} {post : List MarkedPointer → MarkWorld → Prop} (hproper : c.Proper)
    (hsound : W.store.Sound) (hadmits : c.Admits condition)
    (hon : c.on condition = true → Reliable W.store p ∧ p.value.tag.arity? = some arity)
    (hpost : ∀ children W', Reads W arity W' →
      (c.on condition = true → W.store.nodes[p.value]? =
        some ((List.range arity).map fun i => (child children i).value)) →
      (∀ i < arity, Opened c W.store (c.on condition) (W.key arity) i (child children i)) →
      post children W') :
    (StepModel.unhash p arity condition : MarkM c (List MarkedPointer)).Yields W post := by
  cases hcondition : c.on condition with
  | false =>
    have hlength : ((c.fill (W.key arity)).length : Int) = arity :=
      hproper.length _ (Int.natCast_nonneg arity)
    refine ⟨leftOver c (W.key arity), W.skip arity, ?_, hpost _ _ ⟨rfl, rfl⟩ (by simp [hcondition])
      fun i hi => ?_⟩
    · change (unhash p arity condition).run W = _
      simp only [unhash, hadmits, hcondition, hlength, if_true, Bool.false_eq_true, if_false]
    · rw [hcondition]
      refine ⟨nofun, fun _ => ?_⟩
      have hlt : i < (c.fill (W.key arity)).length := by omega
      simp [child, leftOver, List.getD_eq_getElem?_getD, List.getElem?_eq_getElem hlt]
  | true =>
    obtain ⟨hp, harity⟩ := hon hcondition
    obtain ⟨cs, hcs, hlength, hheld⟩ := hsound.children_of_contains harity hp.holds.contains
    have hfetch := Store.fetch_eq harity hcs
    have hchild {i : ℕ} (hi : i < cs.length) :
        child (cs.map MarkedPointer.certain) i = .certain cs[i] := by
      rw [child, List.getD_eq_getElem _ _ (by simpa using hi), List.getElem_map]
    refine ⟨cs.map .certain, W.record arity W.store (nodePreimage p.value.tag cs), ?_,
      hpost _ _ ⟨rfl, rfl⟩ (fun _ => ?_) fun i hi => ?_⟩
    · change (unhash p arity condition).run W = _
      simp only [unhash, hadmits, hcondition, hp.sure, hfetch, if_true]
    · rw [hcs, Option.some.injEq]
      refine List.ext_getElem (by simp [hlength]) fun i h₁ _ => ?_
      rw [List.getElem_map, List.getElem_range, hchild h₁]
      rfl
    · rw [hcondition]
      refine ⟨fun _ => ?_, nofun⟩
      rw [hchild (by omega)]
      exact reliable_certain (hheld _ (List.getElem_mem _))

theorem yields_unhash2 {p : MarkedPointer} {condition : Option (Marked Int)} {W : MarkWorld}
    {post : MarkedPointer × MarkedPointer → MarkWorld → Prop} (hproper : c.Proper)
    (hsound : W.store.Sound) (hadmits : c.Admits condition)
    (hon : c.on condition = true → Reliable W.store p ∧ p.value.tag.arity? = some 2)
    (hpost : ∀ a b W', Reads W 2 W' →
      (c.on condition = true → W.store.nodes[p.value]? = some [a.value, b.value]) →
      Opened c W.store (c.on condition) (W.key 2) 0 a →
      Opened c W.store (c.on condition) (W.key 2) 1 b → post (a, b) W') :
    (unhash2 p condition : MarkM c _).Yields W post := by
  refine yields_bind.2 (yields_unhash 2 hproper hsound hadmits hon ?_)
  intro children W' hreads hnode hchildren
  exact yields_pure.2 (hpost _ _ W' hreads hnode (hchildren 0 (by omega)) (hchildren 1 (by omega)))

theorem yields_unhash3 {p : MarkedPointer} {condition : Option (Marked Int)} {W : MarkWorld}
    {post : MarkedPointer × MarkedPointer × MarkedPointer → MarkWorld → Prop} (hproper : c.Proper)
    (hsound : W.store.Sound) (hadmits : c.Admits condition)
    (hon : c.on condition = true → Reliable W.store p ∧ p.value.tag.arity? = some 3)
    (hpost : ∀ a b d W', W'.store = W.store →
      Opened c W.store (c.on condition) (W.key 3) 0 a →
      Opened c W.store (c.on condition) (W.key 3) 1 b →
      Opened c W.store (c.on condition) (W.key 3) 2 d → post (a, b, d) W') :
    (unhash3 p condition : MarkM c _).Yields W post := by
  refine yields_bind.2 (yields_unhash 3 hproper hsound hadmits hon ?_)
  intro children W' hreads _ hchildren
  exact yields_pure.2 (hpost _ _ _ W' hreads.store (hchildren 0 (by omega)) (hchildren 1 (by omega))
    (hchildren 2 (by omega)))

end MarkM

end FieldLisp
