import FieldLisp.Datum
import FieldLisp.Proofs.Canonical

/-!
# Stores hold what they hand out

A store that was built by its operations is hereditarily whole: behind every node stand as many
children as its tag has, canonical and in the store, and the pointer is the hash of them.

* `Sound`: this invariant;
* `internNode_sound`: taking in a node whose children are there succeeds, keeps the invariant, and
  forgets nothing;
* `Sound.children_of_contains`: a node in the store can be taken apart;
* `Reachable`, `reachable_sound`: every store that operations build is sound.
-/

namespace FieldLisp

theorem Tag.arity_of_isEnv {tag : Tag} (h : tag.isEnv = true) : tag.arity? = some 3 := by
  cases tag <;> first | rfl | cases h

namespace Store

/-- Pointer of the node with this tag and these children. -/
def nodePointer (tag : Tag) (children : List Pointer) : Pointer :=
  .ofDigest tag (nodeDigest tag children)

theorem nodePointer_canonical (tag : Tag) (children : List Pointer) :
    (nodePointer tag children).Canonical := Pointer.ofDigest_canonical (Sponge.hash_canonical _)

@[simp] theorem nodePointer_tag (tag : Tag) (children : List Pointer) :
    (nodePointer tag children).tag = tag := rfl

/-- A canonical pointer that is in the store. -/
structure Holds (s : Store) (p : Pointer) : Prop where
  canonical : p.Canonical
  contains : s.contains p = true

/-- The children of a node are what its tag asks for, and are in the store. -/
structure Sound (s : Store) : Prop where
  node : ∀ {p : Pointer} {cs : List Pointer}, s.nodes[p]? = some cs →
    p.tag.arity? = some cs.length ∧ p = nodePointer p.tag cs ∧ ∀ c ∈ cs, s.Holds c
  interned : ∀ {tag : Tag} {cs : List Pointer} {p : Pointer}, s.interned[(tag, cs)]? = some p →
    p = nodePointer tag cs ∧ s.nodes.contains p = true
  name : ∀ {p : Pointer}, s.names.contains p = true → ∃ name, p = symbolPointer name
  builtin : ∀ name ∈ Builtin.names, s.names.contains (symbolPointer name) = true

/-- The second store knows all that the first one knows. -/
structure Extends (s t : Store) : Prop where
  node : ∀ {p : Pointer} {cs : List Pointer}, s.nodes[p]? = some cs → t.nodes[p]? = some cs
  name : ∀ {p : Pointer}, s.names.contains p = true → t.names.contains p = true

theorem contains_of_getElem? {s : Store} {p : Pointer} {cs : List Pointer}
    (h : s.nodes[p]? = some cs) : s.contains p = true := by
  have : s.nodes.contains p = true := by
    rw [Std.HashMap.contains_eq_isSome_getElem?, h]
    rfl
  simp [Store.contains, this]

namespace Extends
variable {s t u : Store}

theorem refl (s : Store) : Extends s s := ⟨id, id⟩

theorem trans (h : Extends s t) (h' : Extends t u) : Extends s u :=
  ⟨h'.node ∘ h.node, h'.name ∘ h.name⟩

theorem contains (h : Extends s t) {p : Pointer} (hp : s.contains p = true) :
    t.contains p = true := by
  simp only [Store.contains, Bool.or_eq_true] at hp ⊢
  rcases hp with (hp | hp) | hp
  · exact .inl (.inl hp)
  · refine .inl (.inr ?_)
    rw [Std.HashMap.contains_eq_isSome_getElem?, Option.isSome_iff_exists] at hp ⊢
    obtain ⟨cs, hcs⟩ := hp
    exact ⟨cs, h.node hcs⟩
  · exact .inr (h.name hp)

theorem holds (h : Extends s t) {p : Pointer} (hp : s.Holds p) : t.Holds p :=
  ⟨hp.canonical, h.contains hp.contains⟩

end Extends

theorem holds_immediate (s : Store) {p : Pointer} (hp : p.Canonical)
    (h : p.tag.isImmediate = true) : s.Holds p :=
  ⟨hp, by simp [Store.contains, h]⟩

theorem holds_nil (s : Store) : s.Holds .nil :=
  s.holds_immediate (Pointer.immediate_canonical .nil 0) rfl

/-! ## Taking nodes apart -/

namespace Sound
variable {s : Store}

/-- Behind every node in the store stand its children. -/
theorem children_of_contains (hs : s.Sound) {p : Pointer} {n : ℕ} (hn : p.tag.arity? = some n)
    (hp : s.contains p = true) :
    ∃ cs, s.nodes[p]? = some cs ∧ cs.length = n ∧ ∀ c ∈ cs, s.Holds c := by
  have himmediate : p.tag.isImmediate = false := by
    cases htag : p.tag <;> rw [htag] at hn <;> simp_all [Tag.arity?, Tag.isImmediate]
  have hname : s.names.contains p = false := by
    refine Bool.eq_false_iff.2 fun h => ?_
    obtain ⟨name, rfl⟩ := hs.name h
    simp [symbolPointer, Pointer.ofDigest, Tag.arity?] at hn
  rw [Store.contains, himmediate, hname, Bool.false_or, Bool.or_false,
    Std.HashMap.contains_eq_isSome_getElem?, Option.isSome_iff_exists] at hp
  obtain ⟨cs, hcs⟩ := hp
  obtain ⟨harity, _, hchildren⟩ := hs.node hcs
  exact ⟨cs, hcs, by simpa [hn] using harity.symm, hchildren⟩

theorem contains_of_node (hs : s.Sound) {p : Pointer} {cs : List Pointer}
    (h : s.nodes[p]? = some cs) : s.Holds p := by
  refine ⟨?_, contains_of_getElem? h⟩
  rw [(hs.node h).2.1]
  exact nodePointer_canonical _ _

/-- Builtin symbols are in every store. -/
theorem holds_builtin (hs : s.Sound) {name : String} (hname : name ∈ Builtin.names) :
    s.Holds (symbolPointer name) :=
  ⟨symbolPointer_canonical name, by simp [Store.contains, hs.builtin name hname]⟩

theorem holds_symbol (hs : s.Sound) (form : Form) : s.Holds form.symbol := by
  rw [Form.symbol_eq]
  refine hs.holds_builtin (List.mem_cons_of_mem _ (List.mem_cons_of_mem _ ?_))
  exact List.mem_map.2 ⟨form, form.mem_all, rfl⟩

end Sound

theorem fetch_eq {s : Store} {p : Pointer} {n : ℕ} {cs : List Pointer}
    (hn : p.tag.arity? = some n) (h : s.nodes[p]? = some cs) :
    s.fetch p (some (n : Int)) = .ok cs := by
  simp [fetch, hn, h]

theorem fetch_ok {s : Store} {p : Pointer} {n : Int} {cs : List Pointer}
    (h : s.fetch p (some n) = .ok cs) :
    s.nodes[p]? = some cs ∧ ∃ k : ℕ, p.tag.arity? = some k ∧ n = k := by
  unfold fetch at h
  split at h
  · cases h
  · rename_i k hk
    split at h
    · rename_i harity
      split at h
      · rename_i children hchildren
        cases h
        exact ⟨hchildren, k, hk, by simpa using harity⟩
      · cases h
    · cases h

theorem node_of_fetch {s : Store} {p : Pointer} {cs : List Pointer} (h : s.fetch p none = .ok cs) :
    s.nodes[p]? = some cs := by
  unfold fetch at h
  cases harity : p.tag.arity? with
  | none => simp [harity] at h
  | some n =>
    cases hnode : s.nodes[p]? with
    | none => simp [harity, hnode] at h
    | some ds => simpa [harity, hnode] using h

/-! ## Taking nodes in -/

/-- What has become of a store when a node was taken in. -/
structure Takes (s : Store) (tag : Tag) (cs : List Pointer) (t : Store) : Prop where
  sound : t.Sound
  extends_ : s.Extends t
  holds : t.Holds (nodePointer tag cs)
  /-- Nothing else is new. -/
  fresh : ∀ {p : Pointer} {ds : List Pointer}, t.nodes[p]? = some ds →
    s.nodes[p]? = some ds ∨ p = nodePointer tag cs ∧ ds = cs

/-- A node that is new is found with its children. -/
theorem Takes.node {s t : Store} {tag : Tag} {cs : List Pointer} (h : s.Takes tag cs t)
    (htag : tag.arity? = some cs.length) (hnew : ∀ ds, s.nodes[nodePointer tag cs]? ≠ some ds) :
    t.nodes[nodePointer tag cs]? = some cs := by
  obtain ⟨ds, hds, -, -⟩ := h.sound.children_of_contains htag h.holds.contains
  rcases h.fresh hds with hold | ⟨-, rfl⟩
  · exact absurd hold (hnew ds)
  · exact hds

theorem checkNode_ok {s : Store} {tag : Tag} {cs : List Pointer}
    (htag : tag.arity? = some cs.length) (hcs : ∀ c ∈ cs, s.Holds c) :
    s.checkNode tag cs = .ok () := by
  have hfind : cs.find? (!s.contains ·) = none :=
    List.find?_eq_none.2 fun c hc => by simp [(hcs c hc).contains]
  simp [checkNode, htag, hfind]

theorem record_takes {s : Store} (hs : s.Sound) {tag : Tag} {cs : List Pointer}
    (htag : tag.arity? = some cs.length) (hcs : ∀ c ∈ cs, s.Holds c)
    (hnew : s.internedAs? tag cs = none) :
    (s.record tag cs).1 = nodePointer tag cs ∧ s.Takes tag cs (s.record tag cs).2 := by
  have hpointer : s.interned.getD (tag, cs) (nodePointer tag cs) = nodePointer tag cs := by
    rw [Std.HashMap.getD_eq_getD_getElem?]
    simp only [internedAs?] at hnew
    rw [hnew, Option.getD_none]
  have hrecord : s.record tag cs = (nodePointer tag cs, { s with
      interned := s.interned.insertIfNew (tag, cs) (nodePointer tag cs)
      nodes := s.nodes.insertIfNew (nodePointer tag cs) cs }) := by
    change (s.interned.getD (tag, cs) (nodePointer tag cs), ({ s with
      interned := s.interned.insertIfNew (tag, cs) (nodePointer tag cs)
      nodes := s.nodes.insertIfNew (s.interned.getD (tag, cs) (nodePointer tag cs)) cs
        } : Store)) = _
    rw [hpointer]
  rw [hrecord]
  refine ⟨rfl, ?_⟩
  generalize ht : ({ s with
    interned := s.interned.insertIfNew (tag, cs) (nodePointer tag cs)
    nodes := s.nodes.insertIfNew (nodePointer tag cs) cs } : Store) = t
  have hnodes : t.nodes = s.nodes.insertIfNew (nodePointer tag cs) cs := by rw [← ht]
  have hinterned : t.interned = s.interned.insertIfNew (tag, cs) (nodePointer tag cs) := by
    rw [← ht]
  have hnames : t.names = s.names := by rw [← ht]
  have fresh {p ds} (h : t.nodes[p]? = some ds) :
      s.nodes[p]? = some ds ∨ p = nodePointer tag cs ∧ ds = cs := by
    rw [hnodes, Std.HashMap.getElem?_insertIfNew] at h
    split at h
    · rename_i hp
      exact .inr ⟨(beq_iff_eq.1 hp.1).symm, (Option.some.inj h).symm⟩
    · exact .inl h
  have extends_ : s.Extends t := by
    refine ⟨fun {p ds} h => ?_, fun h => hnames ▸ h⟩
    rw [hnodes, Std.HashMap.getElem?_insertIfNew, if_neg, h]
    rintro ⟨hp, habsent⟩
    refine habsent ?_
    rw [beq_iff_eq.1 hp, Std.HashMap.mem_iff_isSome_getElem?, h]
    rfl
  have hself : t.nodes.contains (nodePointer tag cs) = true := by
    rw [hnodes]
    exact Std.HashMap.contains_insertIfNew_self
  refine ⟨⟨fun {p ds} h => ?_, fun {tag' ds p} h => ?_, fun {p} h => ?_,
    fun name hname => extends_.name (hs.builtin name hname)⟩, extends_,
    ⟨nodePointer_canonical tag cs, by simp [Store.contains, hself]⟩, fresh⟩
  · rcases fresh h with h | ⟨rfl, rfl⟩
    · obtain ⟨harity, hpointer, hchildren⟩ := hs.node h
      exact ⟨harity, hpointer, fun c hc => extends_.holds (hchildren c hc)⟩
    · exact ⟨htag, rfl, fun c hc => extends_.holds (hcs c hc)⟩
  · rw [hinterned, Std.HashMap.getElem?_insertIfNew] at h
    split at h
    · rename_i hkey
      have hkey := beq_iff_eq.1 hkey.1
      rw [Prod.mk.injEq] at hkey
      obtain ⟨rfl, rfl⟩ := hkey
      obtain rfl := Option.some.inj h
      exact ⟨rfl, hself⟩
    · obtain ⟨hp, hcontains⟩ := hs.interned h
      refine ⟨hp, ?_⟩
      rw [Std.HashMap.contains_eq_isSome_getElem?, Option.isSome_iff_exists] at hcontains ⊢
      obtain ⟨ds', hds'⟩ := hcontains
      exact ⟨ds', extends_.node hds'⟩
  · exact hs.name (hnames ▸ h)

/-- Taking in a node whose children are in the store succeeds and hands out its hash. -/
theorem internNode_takes {s : Store} (hs : s.Sound) {tag : Tag} {cs : List Pointer}
    (htag : tag.arity? = some cs.length) (hcs : ∀ c ∈ cs, s.Holds c) :
    ∃ t, internNode tag cs s = .ok (nodePointer tag cs) t ∧ s.Takes tag cs t := by
  rw [internNode, checkNode_ok htag hcs]
  dsimp only
  cases hfound : s.internedAs? tag cs with
  | some p =>
    obtain ⟨rfl, hcontains⟩ := hs.interned hfound
    refine ⟨s, rfl, hs, .refl s, ⟨nodePointer_canonical tag cs, ?_⟩, .inl⟩
    simp [Store.contains, hcontains]
  | none =>
    obtain ⟨hpointer, htakes⟩ := record_takes hs htag hcs hfound
    exact ⟨(s.record tag cs).2, by rw [← hpointer], htakes⟩

/-- A node that is there is never replaced. -/
theorem internNode_keeps {s t : Store} {tag : Tag} {cs : List Pointer} {p : Pointer}
    (h : internNode tag cs s = .ok p t) {q : Pointer} {ds : List Pointer}
    (hq : s.nodes[q]? = some ds) : t.nodes[q]? = some ds := by
  unfold internNode at h
  split at h
  · cases h
  · split at h
    · cases h
      exact hq
    · cases h
      change (s.nodes.insertIfNew _ cs)[q]? = _
      rw [Std.HashMap.getElem?_insertIfNew, if_neg, hq]
      rintro ⟨hkey, habsent⟩
      refine habsent ?_
      rw [beq_iff_eq.1 hkey, Std.HashMap.mem_iff_isSome_getElem?, hq]
      rfl

/-- A node that was taken in is remembered, and so are all others. -/
theorem internNode_remembers {s t : Store} {tag : Tag} {cs : List Pointer} {p : Pointer}
    (h : internNode tag cs s = .ok p t) : t.interned[(tag, cs)]? = some p ∧
      ∀ {tag' : Tag} {ds : List Pointer} {q : Pointer}, s.interned[(tag', ds)]? = some q →
        t.interned[(tag', ds)]? = some q := by
  unfold internNode at h
  split at h
  · cases h
  · split at h
    · rename_i hfound
      cases h
      exact ⟨hfound, id⟩
    · rename_i hfresh
      cases h
      unfold internedAs? at hfresh
      have habsent : (tag, cs) ∉ s.interned := by
        rw [Std.HashMap.mem_iff_isSome_getElem?, hfresh]
        exact Bool.false_ne_true
      constructor
      · change (s.interned.insertIfNew (tag, cs) _)[(tag, cs)]? = _
        rw [Std.HashMap.getElem?_insertIfNew, if_pos ⟨beq_self_eq_true _, habsent⟩,
          Std.HashMap.getD_eq_fallback habsent]
      · intro tag' ds q hq
        change (s.interned.insertIfNew (tag, cs) _)[(tag', ds)]? = _
        rw [Std.HashMap.getElem?_insertIfNew, if_neg, hq]
        rintro ⟨hkey, -⟩
        rw [← beq_iff_eq.1 hkey, hfresh] at hq
        cases hq

/-- A node is refused only where its children are wrong, and then nothing changes. -/
theorem internNode_error {s : Store} {tag : Tag} {cs : List Pointer} {fault : Fault} {t : Store}
    (h : internNode tag cs s = .error fault t) : t = s := by
  unfold internNode at h
  split at h
  · cases h
    rfl
  · split at h
    · cases h
    · cases h

theorem internNode_ok {s : Store} (hs : s.Sound) {tag : Tag} {cs : List Pointer}
    (hcs : ∀ c ∈ cs, c.Canonical) {p : Pointer} {t : Store}
    (h : internNode tag cs s = .ok p t) : p = nodePointer tag cs ∧ s.Takes tag cs t := by
  have hcheck : s.checkNode tag cs = .ok () := by
    unfold internNode at h
    split at h
    · cases h
    · assumption
  unfold checkNode at hcheck
  split at hcheck
  · rename_i htag
    split at hcheck
    · cases hcheck
    · rename_i hfind
      have hheld (c) (hc : c ∈ cs) : s.Holds c :=
        ⟨hcs c hc, by simpa using List.find?_eq_none.1 hfind c hc⟩
      obtain ⟨t', ht', htakes⟩ := internNode_takes hs htag hheld
      rw [ht'] at h
      cases h
      exact ⟨rfl, htakes⟩
  · cases hcheck

/-! ## Stores that operations build -/

/-- The store that an operation leaves, whether it succeeds or fails. -/
def after (operation : StoreM α) (s : Store) : Store :=
  match operation s with
  | .ok _ t => t
  | .error _ t => t

/-- A store that is built from an empty one. All operations come down to taking in nodes and
symbols; the pointers that they are given are canonical, as are all that they hand out. -/
inductive Reachable : Store → Prop where
  | empty (shared : Bool) : Reachable (.empty shared)
  | node {s : Store} (tag : Tag) {children : List Pointer} (h : Reachable s)
      (hcanonical : ∀ c ∈ children, c.Canonical) : Reachable (after (internNode tag children) s)
  | symbol {s : Store} (name : String) (h : Reachable s) :
      Reachable (after (internSymbol name) s)

theorem empty_sound (shared : Bool) : (empty shared).Sound := by
  refine ⟨fun h => ?_, fun h => ?_, fun {p} h => ?_, fun name hname => ?_⟩
  · simp [empty] at h
  · simp [empty] at h
  · rw [empty, Std.HashMap.contains_ofList, List.contains_iff_mem] at h
    simp only [Builtin.table, List.map_map, List.mem_map] at h
    obtain ⟨name, _, rfl⟩ := h
    exact ⟨name, rfl⟩
  · rw [empty, Std.HashMap.contains_ofList, List.contains_iff_mem, Builtin.table, List.map_map]
    exact List.mem_map.2 ⟨name, hname, rfl⟩

theorem recordName_sound {s : Store} (hs : s.Sound) (name : String) :
    (s.recordName (symbolPointer name) name).Sound := by
  have hextends : s.Extends (s.recordName (symbolPointer name) name) :=
    ⟨id, fun {p} h => by simp [recordName, Std.HashMap.contains_insertIfNew, h]⟩
  refine ⟨fun h => ?_, hs.interned, fun {p} h => ?_,
    fun builtin hbuiltin => hextends.name (hs.builtin builtin hbuiltin)⟩
  · obtain ⟨harity, hpointer, hchildren⟩ := hs.node h
    exact ⟨harity, hpointer, fun c hc => hextends.holds (hchildren c hc)⟩
  · rw [recordName, Std.HashMap.contains_insertIfNew, Bool.or_eq_true] at h
    rcases h with h | h
    · exact ⟨name, (beq_iff_eq.1 h).symm⟩
    · exact hs.name h

theorem reachable_sound {s : Store} (h : Reachable s) : s.Sound := by
  induction h with
  | empty shared => exact empty_sound shared
  | @node s tag children _ hcanonical ih =>
    unfold after
    split
    · rename_i p t h
      exact (internNode_ok ih hcanonical h).2.sound
    · rename_i fault t h
      rw [internNode_error h]
      exact ih
  | @symbol s name _ ih =>
    unfold after internSymbol
    split
    · rename_i p t h
      split at h
      · cases h
        exact ih
      · cases h
        exact recordName_sound ih name
    · rename_i fault t h
      split at h <;> cases h

end Store

end FieldLisp
