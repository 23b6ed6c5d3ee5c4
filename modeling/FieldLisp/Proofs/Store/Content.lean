import FieldLisp.Proofs.Store.Preimages
import FieldLisp.Proofs.Store.Rendering
import Std.Data.HashMap

/-!
# What is in a store

A store grows by one entry at a time. Where no two preimages that it took in share a digest, all it
knows is the set of these preimages:

* `Store.Enters`, `Store.Builds`: one more entry, and any number of them;
* `Store.reachable_iff_builds`: the stores that operations build are built entry by entry;
* `Store.Indexed`: nodes and their index have the same entries, as far as preimages do not collide;
* `Store.content`, `Store.retains_of_content`: a store with less content knows less.
-/

namespace Std.HashMap

variable {κ υ : Type} [BEq κ] [Hashable κ]

/-- A key that is there is not inserted again. -/
theorem insertIfNew_of_contains {m : Std.HashMap κ υ} {k : κ} (v : υ) (h : m.contains k = true) :
    m.insertIfNew k v = m := by
  obtain ⟨⟨⟨raw, hsize⟩, hwf⟩⟩ := m
  have hfound : DHashMap.Internal.Raw₀.contains ⟨⟨raw, hsize⟩, hwf.size_buckets_pos⟩ k = true := h
  unfold DHashMap.Internal.Raw₀.contains at hfound
  unfold insertIfNew DHashMap.insertIfNew DHashMap.Internal.Raw₀.insertIfNew
  dsimp only at hfound ⊢
  simp only [if_pos hfound]

end Std.HashMap

namespace FieldLisp.Store

variable {s t u : Store} {p : Pointer} {tag : Tag} {cs : List Pointer}

/-! ## One entry -/

theorem record_of_fresh (hnew : s.internedAs? tag cs = none) :
    s.record tag cs = (nodePointer tag cs, { s with
      interned := s.interned.insertIfNew (tag, cs) (nodePointer tag cs)
      nodes := s.nodes.insertIfNew (nodePointer tag cs) cs }) := by
  have hpointer : s.interned.getD (tag, cs) (nodePointer tag cs) = nodePointer tag cs := by
    rw [Std.HashMap.getD_eq_getD_getElem?]
    rw [internedAs?] at hnew
    rw [hnew, Option.getD_none]
  change (s.interned.getD (tag, cs) (nodePointer tag cs), ({ s with
    interned := s.interned.insertIfNew (tag, cs) (nodePointer tag cs)
    nodes := s.nodes.insertIfNew (s.interned.getD (tag, cs) (nodePointer tag cs)) cs
      } : Store)) = _
  rw [hpointer]

/-- A node that was taken in before is not kept twice. -/
theorem record_of_interned (hs : s.Sound) (h : s.internedAs? tag cs = some p) :
    s.record tag cs = (p, s) := by
  have hfound : s.interned[(tag, cs)]? = some p := h
  have hkey : s.interned.contains (tag, cs) = true := by
    rw [Std.HashMap.contains_eq_isSome_getElem?, hfound]
    rfl
  have hpointer : s.interned.getD (tag, cs) (nodePointer tag cs) = p := by
    rw [Std.HashMap.getD_eq_getD_getElem?, hfound, Option.getD_some]
  change (s.interned.getD (tag, cs) (nodePointer tag cs), ({ s with
    interned := s.interned.insertIfNew (tag, cs) (nodePointer tag cs)
    nodes := s.nodes.insertIfNew (s.interned.getD (tag, cs) (nodePointer tag cs)) cs
      } : Store)) = _
  rw [hpointer, Std.HashMap.insertIfNew_of_contains _ hkey,
    Std.HashMap.insertIfNew_of_contains _ (hs.interned hfound).2]

theorem record_pointer (hs : s.Sound) : (s.record tag cs).1 = nodePointer tag cs := by
  cases hfound : s.internedAs? tag cs with
  | none => rw [record_of_fresh hfound]
  | some p =>
    rw [record_of_interned hs hfound]
    exact (hs.interned hfound).1

/-- To look a node up first changes nothing. -/
theorem internNode_eq (hs : s.Sound) : internNode tag cs s =
    match s.checkNode tag cs with
    | .error fault => .error fault s
    | .ok () => .ok (nodePointer tag cs) (s.record tag cs).2 := by
  unfold internNode
  cases s.checkNode tag cs with
  | error fault => rfl
  | ok _ =>
    dsimp only
    rw [record_pointer hs]
    cases hfound : s.internedAs? tag cs with
    | none => rfl
    | some p =>
      rw [record_of_interned hs hfound]
      exact congrArg (EStateM.Result.ok · s) (hs.interned hfound).1

/-- One more entry: a node with its children there, or the name of a symbol. -/
inductive Enters (s : Store) : Store → Prop
  | node {tag : Tag} {cs : List Pointer} (canonical : ∀ c ∈ cs, c.Canonical)
      (check : s.checkNode tag cs = .ok ()) (fresh : s.internedAs? tag cs = none) :
      Enters s (s.record tag cs).2
  | name {name : String} (notNil : name ≠ "nil") :
      Enters s (s.recordName (symbolPointer name) name)

/-- Any number of entries, one after the other. -/
abbrev Builds : Store → Store → Prop := Relation.ReflTransGen Enters

/-- The second store has all entries of the first one. -/
structure Retains (s t : Store) : Prop where
  node : ∀ {p : Pointer} {cs : List Pointer}, s.nodes[p]? = some cs → t.nodes[p]? = some cs
  interned : ∀ {tag : Tag} {cs : List Pointer} {p : Pointer}, s.interned[(tag, cs)]? = some p →
    t.interned[(tag, cs)]? = some p
  name : ∀ {p : Pointer} {name : String}, s.names[p]? = some name → t.names[p]? = some name

namespace Retains

theorem refl (s : Store) : s.Retains s := ⟨id, id, id⟩

theorem trans (h : s.Retains t) (h' : t.Retains u) : s.Retains u :=
  ⟨h'.node ∘ h.node, h'.interned ∘ h.interned, h'.name ∘ h.name⟩

theorem extends_ (h : s.Retains t) : s.Extends t := by
  constructor
  · exact h.node
  · intro p hp
    rw [Std.HashMap.contains_eq_isSome_getElem?, Option.isSome_iff_exists] at hp ⊢
    obtain ⟨name, hname⟩ := hp
    exact ⟨name, h.name hname⟩

end Retains

theorem retains_insertIfNew {κ υ : Type} [BEq κ] [Hashable κ] [LawfulBEq κ] [LawfulHashable κ]
    {m : Std.HashMap κ υ} (k : κ) (v : υ) {k' : κ} {v' : υ} (h : m[k']? = some v') :
    (m.insertIfNew k v)[k']? = some v' := by
  rw [Std.HashMap.getElem?_insertIfNew, if_neg, h]
  rintro ⟨hk, habsent⟩
  apply habsent
  rw [beq_iff_eq.1 hk, Std.HashMap.mem_iff_isSome_getElem?, h]
  rfl

theorem retains_recordName (p : Pointer) (name : String) : s.Retains (s.recordName p name) :=
  ⟨id, id, retains_insertIfNew p name⟩

theorem Enters.retains (h : s.Enters t) : s.Retains t := by
  cases h with
  | node canonical check fresh =>
    rw [record_of_fresh fresh]
    exact ⟨retains_insertIfNew _ _, retains_insertIfNew _ _, id⟩
  | name notNil => exact retains_recordName _ _

theorem Builds.retains (h : s.Builds t) : s.Retains t := by
  induction h with
  | refl => exact .refl s
  | tail _ hstep ih => exact ih.trans hstep.retains

/-! ## The stores that operations build -/

theorem Enters.reachable (h : s.Enters t) (hs : Reachable s) : Reachable t := by
  cases h with
  | @node tag cs canonical check fresh =>
    have hafter : after (internNode tag cs) s = (s.record tag cs).2 := by
      rw [after, internNode_eq (reachable_sound hs), check]
    rw [← hafter]
    exact .node tag hs canonical
  | @name name notNil =>
    have hafter : after (internSymbol name) s = s.recordName (symbolPointer name) name := by
      rw [after, internSymbol, if_neg notNil]
    rw [← hafter]
    exact .symbol name hs

theorem Builds.reachable (h : s.Builds t) (hs : Reachable s) : Reachable t := by
  induction h with
  | refl => exact hs
  | tail _ hstep ih => exact hstep.reachable ih

theorem builds_internNode (hs : s.Sound) (tag : Tag) (hcs : ∀ c ∈ cs, c.Canonical) :
    s.Builds (after (internNode tag cs) s) := by
  rw [after, internNode_eq hs]
  cases hcheck : s.checkNode tag cs with
  | error fault => exact .refl
  | ok _ =>
    cases hfound : s.internedAs? tag cs with
    | none => exact .single (.node hcs hcheck hfound)
    | some p =>
      rw [record_of_interned hs hfound]

theorem builds_internSymbol (s : Store) (name : String) : s.Builds (after (internSymbol name) s) := by
  rw [after, internSymbol]
  by_cases hnil : name = "nil"
  · rw [if_pos hnil]
  · rw [if_neg hnil]
    exact .single (.name hnil)

theorem reachable_iff_builds : Reachable s ↔ ∃ shared, (empty shared).Builds s := by
  constructor
  · intro h
    induction h with
    | empty shared => exact ⟨shared, .refl⟩
    | node tag hs hcs ih =>
      obtain ⟨shared, hbuilt⟩ := ih
      exact ⟨shared, hbuilt.trans (builds_internNode (reachable_sound hs) tag hcs)⟩
    | symbol name _ ih =>
      obtain ⟨shared, hbuilt⟩ := ih
      exact ⟨shared, hbuilt.trans (builds_internSymbol _ name)⟩
  · rintro ⟨shared, hbuilt⟩
    exact hbuilt.reachable (.empty shared)

/-- Nodes stand in the index, and what stands in the index was checked; symbols have their names. -/
structure Indexed (s : Store) : Prop where
  node : ∀ {p : Pointer} {cs : List Pointer}, s.nodes[p]? = some cs →
    s.interned[(p.tag, cs)]? = some p
  interned : ∀ {tag : Tag} {cs : List Pointer} {p : Pointer}, s.interned[(tag, cs)]? = some p →
    tag.arity? = some cs.length ∧ ∀ c ∈ cs, s.Holds c
  name : ∀ {p : Pointer} {name : String}, s.names[p]? = some name → p = symbolPointer name

theorem getElem?_insertIfNew_cases {κ υ : Type} [BEq κ] [Hashable κ] [LawfulBEq κ]
    [LawfulHashable κ] {m : Std.HashMap κ υ} {k k' : κ} {v v' : υ}
    (h : (m.insertIfNew k v)[k']? = some v') : m[k']? = some v' ∨ k' = k ∧ v' = v := by
  rw [Std.HashMap.getElem?_insertIfNew] at h
  split at h
  · rename_i hnew
    exact .inr ⟨(beq_iff_eq.1 hnew.1).symm, (Option.some.inj h).symm⟩
  · exact .inl h

theorem getElem?_insertIfNew_self {κ υ : Type} [BEq κ] [Hashable κ] [LawfulBEq κ]
    [LawfulHashable κ] {m : Std.HashMap κ υ} {k : κ} (v : υ) (h : m[k]? = none) :
    (m.insertIfNew k v)[k]? = some v := by
  rw [Std.HashMap.getElem?_insertIfNew, if_pos]
  refine ⟨beq_self_eq_true k, ?_⟩
  rw [Std.HashMap.mem_iff_isSome_getElem?, h]
  exact Bool.false_ne_true

theorem Enters.indexed (h : s.Enters t) (hi : s.Indexed) : t.Indexed := by
  have hkept := h.retains
  cases h with
  | @node tag cs canonical check fresh =>
    rw [record_of_fresh fresh] at hkept ⊢
    obtain ⟨harity, hcontains⟩ := of_checkNode check
    constructor
    · intro p ds hp
      rcases getElem?_insertIfNew_cases hp with hp | ⟨rfl, rfl⟩
      · exact hkept.interned (hi.node hp)
      · exact getElem?_insertIfNew_self _ fresh
    · intro tag' ds p hp
      rcases getElem?_insertIfNew_cases hp with hp | ⟨hkey, -⟩
      · obtain ⟨harity', hheld⟩ := hi.interned hp
        exact ⟨harity', fun c hc => hkept.extends_.holds (hheld c hc)⟩
      · obtain ⟨rfl, rfl⟩ := Prod.mk.inj hkey
        exact ⟨harity, fun c hc => hkept.extends_.holds ⟨canonical c hc, hcontains c hc⟩⟩
    · exact hi.name
  | @name name notNil =>
    constructor
    · exact hi.node
    · intro tag' ds p hp
      obtain ⟨harity', hheld⟩ := hi.interned hp
      exact ⟨harity', fun c hc => hkept.extends_.holds (hheld c hc)⟩
    · intro p name' hp
      rcases getElem?_insertIfNew_cases hp with hp | ⟨rfl, rfl⟩
      · exact hi.name hp
      · rfl

theorem mem_of_getElem?_insertMany {κ υ : Type} [BEq κ] [Hashable κ] [LawfulBEq κ]
    [LawfulHashable κ] {entries : List (κ × υ)} {m : Std.HashMap κ υ} {k : κ} {v : υ}
    (h : (m.insertMany entries)[k]? = some v) : m[k]? = some v ∨ (k, v) ∈ entries := by
  induction entries generalizing m with
  | nil =>
    rw [Std.HashMap.insertMany_nil] at h
    exact .inl h
  | cons entry entries ih =>
    rw [Std.HashMap.insertMany_cons] at h
    rcases ih h with h | h
    · rw [Std.HashMap.getElem?_insert] at h
      split at h
      · rename_i hk
        rw [← beq_iff_eq.1 hk, ← Option.some.inj h]
        exact .inr (List.mem_cons_self ..)
      · exact .inl h
    · exact .inr (List.mem_cons_of_mem _ h)

theorem empty_indexed (shared : Bool) : (empty shared).Indexed := by
  constructor
  · intro p cs hp
    simp [empty] at hp
  · intro tag cs p hp
    simp [empty] at hp
  · intro p name hp
    rw [empty, Std.HashMap.ofList_eq_insertMany_empty] at hp
    rcases mem_of_getElem?_insertMany hp with hp | hmem
    · simp at hp
    · rw [Builtin.table, List.mem_map] at hmem
      obtain ⟨builtin, -, hentry⟩ := hmem
      obtain ⟨rfl, rfl⟩ := Prod.mk.inj hentry
      rfl

theorem reachable_indexed (h : Reachable s) : s.Indexed := by
  obtain ⟨shared, hbuilt⟩ := reachable_iff_builds.1 h
  clear h
  induction hbuilt with
  | refl => exact empty_indexed shared
  | tail _ hstep ih => exact hstep.indexed ih

/-! ## Looking up -/

/-- What is in a store is looked up alike in all that the store becomes. -/
theorem Retains.fetch_eq (h : s.Retains t) (hs : s.Sound) (hp : s.contains p = true)
    (arity : Option Int) : t.fetch p arity = s.fetch p arity := by
  unfold fetch
  cases hn : p.tag.arity? with
  | none => rfl
  | some n =>
    obtain ⟨cs, hcs, -⟩ := hs.children_of_contains hn hp
    rw [hcs, h.node hcs]

theorem Retains.resolve_eq (h : s.Retains t) (hs : s.Sound) (hp : s.contains p = true) :
    t.resolve p = s.resolve p := by
  unfold resolve
  by_cases himmediate : p.tag.isImmediate = true
  · rw [if_pos himmediate, if_pos himmediate]
  · rw [if_neg himmediate, if_neg himmediate]
    by_cases htag : p.tag = .symbol
    · obtain ⟨name, hname⟩ := exists_name_of_contains hs htag hp
      rw [if_pos htag, if_pos htag, nameOf, nameOf, hname, h.name hname]
    · rw [if_neg htag, if_neg htag, h.fetch_eq hs hp]

/-! ## Content -/

/-- What was hashed for the nodes and the symbols of a store. -/
def content (s : Store) : Set (List Int) :=
  {xs | (∃ tag cs p, s.interned[((tag : Tag), (cs : List Pointer))]? = some p ∧
      xs = nodePreimage tag cs) ∨
    ∃ p name, s.names[(p : Pointer)]? = some name ∧ xs = symbolPreimage name}

theorem mem_content_of_interned (h : s.interned[(tag, cs)]? = some p) :
    nodePreimage tag cs ∈ s.content := .inl ⟨tag, cs, p, h, rfl⟩

theorem mem_content_of_name {name : String} (h : s.names[p]? = some name) :
    symbolPreimage name ∈ s.content := .inr ⟨p, name, h, rfl⟩

theorem Retains.content_subset (h : s.Retains t) : s.content ⊆ t.content := by
  rintro xs (⟨tag, cs, p, hp, rfl⟩ | ⟨p, name, hp, rfl⟩)
  · exact mem_content_of_interned (h.interned hp)
  · exact mem_content_of_name (h.name hp)

theorem mem_content_of_node (hs : Reachable s) (h : s.nodes[p]? = some cs) :
    nodePreimage p.tag cs ∈ s.content := mem_content_of_interned ((reachable_indexed hs).node h)

/-- A node whose preimage was hashed was taken in. -/
theorem interned_of_mem_content (hs : Reachable s) {n : ℕ} (htag : tag.arity? = some n)
    (hcs : ∀ c ∈ cs, c.Canonical) (h : nodePreimage tag cs ∈ s.content) :
    s.interned[(tag, cs)]? = some (nodePointer tag cs) := by
  rcases h with ⟨tag', ds, p, hp, hpreimage⟩ | ⟨p, name, -, hpreimage⟩
  · obtain ⟨-, hheld⟩ := (reachable_indexed hs).interned hp
    obtain ⟨rfl, rfl⟩ := nodePreimage_injective hcs (fun d hd => (hheld d hd).canonical) hpreimage
    rwa [← ((reachable_sound hs).interned hp).1]
  · exact absurd hpreimage (nodePreimage_ne_symbolPreimage htag cs name)

/-- A name whose preimage was hashed was taken in. -/
theorem name_of_mem_content (hs : Reachable s) {name : String}
    (h : symbolPreimage name ∈ s.content) : s.names[symbolPointer name]? = some name := by
  have hi := reachable_indexed hs
  rcases h with ⟨tag, cs, p, hp, hpreimage⟩ | ⟨p, name', hp, hpreimage⟩
  · exact absurd hpreimage.symm (nodePreimage_ne_symbolPreimage (hi.interned hp).1 cs name)
  · obtain rfl := symbolPreimage_injective hpreimage
    rwa [← hi.name hp]

theorem content_record_subset (s : Store) (tag : Tag) (cs : List Pointer) :
    (s.record tag cs).2.content ⊆ insert (nodePreimage tag cs) s.content := by
  rintro xs (⟨tag', ds, p, hp, rfl⟩ | ⟨p, name, hp, rfl⟩)
  · rcases getElem?_insertIfNew_cases hp with hp | ⟨hkey, -⟩
    · exact .inr (mem_content_of_interned hp)
    · obtain ⟨rfl, rfl⟩ := Prod.mk.inj hkey
      exact .inl rfl
  · exact .inr (mem_content_of_name hp)

theorem mem_content_record (hs : s.Sound) (tag : Tag) (cs : List Pointer) :
    nodePreimage tag cs ∈ (s.record tag cs).2.content := by
  cases hfound : s.internedAs? tag cs with
  | none =>
    rw [record_of_fresh hfound]
    exact mem_content_of_interned (getElem?_insertIfNew_self _ hfound)
  | some p =>
    rw [record_of_interned hs hfound]
    exact mem_content_of_interned hfound

theorem content_recordName (s : Store) (name : String) :
    (s.recordName (symbolPointer name) name).content ⊆ insert (symbolPreimage name) s.content := by
  rintro xs (⟨tag, cs, p, hp, rfl⟩ | ⟨p, name', hp, rfl⟩)
  · exact .inr (mem_content_of_interned hp)
  · rcases getElem?_insertIfNew_cases hp with hp | ⟨-, rfl⟩
    · exact .inr (mem_content_of_name hp)
    · exact .inl rfl

/-! ## Content without collisions -/

theorem hash_eq_of_nodePointer_eq {tag tag' : Tag} {cs ds : List Pointer}
    (h : nodePointer tag cs = nodePointer tag' ds) :
    Sponge.hash (nodePreimage tag cs) = Sponge.hash (nodePreimage tag' ds) :=
  Digest.toList_inj.1 (congrArg Pointer.digest h)

theorem hash_eq_of_symbolPointer_eq {name name' : String}
    (h : symbolPointer name = symbolPointer name') :
    Sponge.hash (symbolPreimage name) = Sponge.hash (symbolPreimage name') :=
  Digest.toList_inj.1 (congrArg Pointer.digest h)

section
variable {known : Set (List Int)} (hinjective : Set.InjOn Sponge.hash known)
include hinjective

/-- A pointer stands for the same node in all stores. -/
theorem node_unique (hs : Reachable s) (ht : Reachable t) (hsknown : s.content ⊆ known)
    (htknown : t.content ⊆ known) {ds : List Pointer} (hcs : s.nodes[p]? = some cs)
    (hds : t.nodes[p]? = some ds) : cs = ds := by
  obtain ⟨-, hp, hheld⟩ := (reachable_sound hs).node hcs
  obtain ⟨-, hp', hheld'⟩ := (reachable_sound ht).node hds
  have hhash := hash_eq_of_nodePointer_eq (hp.symm.trans hp')
  have hpreimage := hinjective (hsknown (mem_content_of_node hs hcs))
    (htknown (mem_content_of_node ht hds)) hhash
  exact (nodePreimage_injective (fun c hc => (hheld c hc).canonical)
    (fun d hd => (hheld' d hd).canonical) hpreimage).2

/-- A pointer stands for the same symbol in all stores. -/
theorem name_unique (hs : Reachable s) (ht : Reachable t) (hsknown : s.content ⊆ known)
    (htknown : t.content ⊆ known) {name name' : String} (h : s.names[p]? = some name)
    (h' : t.names[p]? = some name') : name = name' := by
  have hp := (reachable_indexed hs).name h
  have hhash := hash_eq_of_symbolPointer_eq (hp.symm.trans ((reachable_indexed ht).name h'))
  exact symbolPreimage_injective (hinjective (hsknown (mem_content_of_name h))
    (htknown (mem_content_of_name h')) hhash)

end

/-- Nodes and their index have the same entries. -/
theorem interned_iff_node (hs : Reachable s) (hinjective : Set.InjOn Sponge.hash s.content) :
    s.interned[(tag, cs)]? = some p ↔ p.tag = tag ∧ s.nodes[p]? = some cs := by
  have hsound := reachable_sound hs
  have hi := reachable_indexed hs
  constructor
  · intro h
    obtain ⟨rfl, hcontains⟩ := hsound.interned h
    rw [Std.HashMap.contains_eq_isSome_getElem?, Option.isSome_iff_exists] at hcontains
    obtain ⟨ds, hds⟩ := hcontains
    obtain ⟨-, hp, hheld⟩ := hsound.node hds
    have hpreimage := hinjective (mem_content_of_interned h) (mem_content_of_node hs hds)
      (hash_eq_of_nodePointer_eq hp)
    obtain ⟨-, rfl⟩ := nodePreimage_injective (fun c hc => ((hi.interned h).2 c hc).canonical)
      (fun d hd => (hheld d hd).canonical) hpreimage
    exact ⟨rfl, hds⟩
  · rintro ⟨rfl, h⟩
    exact hi.node h

/-- A store with less content knows less. -/
theorem retains_of_content (hs : Reachable s) (ht : Reachable t)
    (hinjective : Set.InjOn Sponge.hash t.content) (h : s.content ⊆ t.content) : s.Retains t := by
  have hi := reachable_indexed hs
  have interned {tag : Tag} {cs : List Pointer} {p : Pointer}
      (hp : s.interned[(tag, cs)]? = some p) : t.interned[(tag, cs)]? = some p := by
    obtain ⟨harity, hheld⟩ := hi.interned hp
    rw [((reachable_sound hs).interned hp).1]
    exact interned_of_mem_content ht harity (fun c hc => (hheld c hc).canonical)
      (h (mem_content_of_interned hp))
  constructor
  · intro p cs hp
    exact ((interned_iff_node ht hinjective).1 (interned (hi.node hp))).2
  · exact interned
  · intro p name hp
    rw [hi.name hp]
    exact name_of_mem_content ht (h (mem_content_of_name hp))

end FieldLisp.Store
