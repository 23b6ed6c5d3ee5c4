import FieldLisp.Proofs.Operations

/-!
# Histories of a store

Whatever operations a store has been through, also such that failed midway:

* `Store.afterAll`: the store that a history leaves;
* `Represented`, `represented`: what its entries are, that none of them is ever changed, and that nodes
  and their index have the same entries unless preimages collide.
-/

namespace FieldLisp

open Store

namespace Store

variable {s t : Store} {p : Pointer}

/-- What operations leave, one after the other. -/
def afterAll (operations : List Operation) (s : Store) : Store :=
  operations.foldl (fun s operation => after operation.perform s) s

theorem builds_perform {operation : Operation} (hs : Reachable s) (h : operation.Canonical) :
    s.Builds (after operation.perform s) := by
  obtain ⟨P, hrun, hP⟩ := operation.programmed
  rw [← hrun]
  exact (Program.run_builds (hP h) hs).1

theorem builds_afterAll {operations : List Operation} (hs : Reachable s)
    (h : ∀ operation ∈ operations, operation.Canonical) : s.Builds (afterAll operations s) := by
  induction operations generalizing s with
  | nil => exact .refl
  | cons operation operations ih =>
    obtain ⟨hfirst, hrest⟩ := List.forall_mem_cons.1 h
    have hbuilds := builds_perform hs hfirst
    exact hbuilds.trans (ih (hbuilds.reachable hs) hrest)

theorem reachable_afterAll {operations : List Operation} (shared : Bool)
    (h : ∀ operation ∈ operations, operation.Canonical) :
    Reachable (afterAll operations (.empty shared)) :=
  (builds_afterAll (.empty shared) h).reachable (.empty shared)

/-! ## Nodes -/

/-- A pointer to a node that has no entry is not in the store. -/
theorem not_contains_of_node (hs : s.Sound) {n : ℕ} (hn : p.tag.arity? = some n)
    (hnode : s.nodes[p]? = none) : s.contains p = false := by
  refine Bool.eq_false_iff.2 fun hp => ?_
  obtain ⟨cs, hcs, -⟩ := hs.children_of_contains hn hp
  rw [hnode] at hcs
  cases hcs

/-- A node enters where its children are. -/
theorem Enters.of_new {cs : List Pointer} (h : s.Enters t) (hnew : s.nodes[p]? = none)
    (hp : t.nodes[p]? = some cs) : ∀ c ∈ cs, s.contains c = true := by
  cases h with
  | @node tag ds canonical check fresh =>
    rw [record_of_fresh fresh] at hp
    rcases getElem?_insertIfNew_cases hp with hp | ⟨-, rfl⟩
    · rw [hnew] at hp
      cases hp
    · exact (of_checkNode check).2
  | name notNil =>
    change s.nodes[p]? = some cs at hp
    rw [hnew] at hp
    cases hp

/-- When a node entered a store, its children were there and it was not. -/
theorem exists_entry (hs : Reachable s) (hbuilds : s.Builds t) {cs : List Pointer}
    (hnew : s.nodes[p]? = none) (hp : t.nodes[p]? = some cs) :
    ∃ u v, s.Builds u ∧ u.Enters v ∧ v.Builds t ∧ u.contains p = false ∧ v.nodes[p]? = some cs ∧
      ∀ c ∈ cs, u.contains c = true := by
  induction hbuilds with
  | refl =>
    rw [hnew] at hp
    cases hp
  | @tail m t hbuilds hstep ih =>
    cases hm : m.nodes[p]? with
    | some ds =>
      obtain rfl : ds = cs := by
        have hkept := hstep.retains.node hm
        rw [hp] at hkept
        exact (Option.some.inj hkept).symm
      obtain ⟨u, v, hu, huv, hv, hentry⟩ := ih hm
      exact ⟨u, v, hu, huv, hv.tail hstep, hentry⟩
    | none =>
      have hreachable := Builds.reachable hbuilds hs
      have harity := ((reachable_sound (hstep.reachable hreachable)).node hp).1
      have habsent := not_contains_of_node (reachable_sound hreachable) harity hm
      exact ⟨m, t, hbuilds, hstep, .refl, habsent, hp, hstep.of_new hm hp⟩

/-- What an operation in a history did. -/
theorem exists_entry_of_history {operations : List Operation} (hs : Reachable s)
    (hcanonical : ∀ operation ∈ operations, operation.Canonical) {cs : List Pointer}
    (hnew : s.nodes[p]? = none) (hp : (afterAll operations s).nodes[p]? = some cs) :
    ∃ earlier operation later, operations = earlier ++ operation :: later ∧
      ∃ u v, (afterAll earlier s).Builds u ∧ u.Enters v ∧
        v.Builds (after operation.perform (afterAll earlier s)) ∧ u.contains p = false ∧
        v.nodes[p]? = some cs ∧ ∀ c ∈ cs, u.contains c = true := by
  induction operations generalizing s with
  | nil =>
    change s.nodes[p]? = some cs at hp
    rw [hnew] at hp
    cases hp
  | cons operation operations ih =>
    obtain ⟨hfirst, hrest⟩ := List.forall_mem_cons.1 hcanonical
    have hbuilds := builds_perform hs hfirst
    have hreachable := hbuilds.reachable hs
    cases hafter : (after operation.perform s).nodes[p]? with
    | none =>
      obtain ⟨earlier, found, later, rfl, hentry⟩ := ih hreachable hrest hafter hp
      exact ⟨operation :: earlier, found, later, rfl, hentry⟩
    | some ds =>
      obtain rfl : ds = cs := by
        have hkept := (builds_afterAll hreachable hrest).retains.node hafter
        change (afterAll operations (after operation.perform s)).nodes[p]? = some cs at hp
        rw [hp] at hkept
        exact (Option.some.inj hkept).symm
      exact ⟨[], operation, operations, rfl, exists_entry hs hbuilds hnew hafter⟩

/-- A node that is taken in is taken apart into the same, unless preimages collide. -/
theorem fetch_internNode (hs : Reachable s) {tag : Tag} {cs : List Pointer}
    (hcs : ∀ c ∈ cs, c.Canonical) (h : internNode tag cs s = .ok p t)
    (hinjective : Set.InjOn Sponge.hash t.content) : t.fetch p none = .ok cs := by
  have hsound := reachable_sound hs
  have ht : Reachable t := by
    have hbuilds := builds_internNode hsound tag hcs
    rw [(eq_ok_iff.1 h).2] at hbuilds
    exact hbuilds.reachable hs
  rw [internNode_eq hsound] at h
  cases hcheck : s.checkNode tag cs with
  | error fault =>
    rw [hcheck] at h
    cases h
  | ok _ =>
    rw [hcheck] at h
    cases h
    have harity := (of_checkNode hcheck).1
    have hfound := interned_of_mem_content ht harity hcs (mem_content_record hsound tag cs)
    have hnode := ((interned_iff_node ht hinjective).1 hfound).2
    unfold fetch
    rw [nodePointer_tag, harity, hnode]
    rfl

end Store

/-! ## The invariant -/

/-- What is true of a store after a history of operations, of which some may have failed. -/
structure Represented (shared : Bool) (operations : List Operation) (s : Store) : Prop where
  /-- A node is the hash of its tag and children, and has as many as its tag asks for. -/
  node : ∀ (p : Pointer) (cs : List Pointer), s.nodes[p]? = some cs →
    p.digest = (nodeDigest p.tag cs).toList ∧ p.tag.arity? = some cs.length
  /-- One of the operations let it in, when its children were there and it was not. -/
  entry : ∀ (p : Pointer) (cs : List Pointer), s.nodes[p]? = some cs →
    ∃ earlier operation later, operations = earlier ++ operation :: later ∧
      ∃ u v, (afterAll earlier (.empty shared)).Builds u ∧ u.Enters v ∧
        v.Builds (after operation.perform (afterAll earlier (.empty shared))) ∧
        u.contains p = false ∧ v.nodes[p]? = some cs ∧ ∀ c ∈ cs, u.contains c = true
  acyclic : ∀ p, ¬Relation.TransGen s.Child p p
  name : ∀ (p : Pointer) (name : String), s.names[p]? = some name → p = symbolPointer name
  /-- No operation removes or changes an entry. -/
  kept : ∀ operation : Operation, operation.Canonical → s.Retains (after operation.perform s)
  /-- So what was there is there, and is looked up as before. -/
  lookup : ∀ operation : Operation, operation.Canonical → ∀ p, s.contains p = true →
    (after operation.perform s).contains p = true ∧
      (∀ arity, (after operation.perform s).fetch p arity = s.fetch p arity) ∧
      (after operation.perform s).resolve p = s.resolve p
  /-- Unless two preimages share a digest, nodes and their index have the same entries. -/
  index : Set.InjOn Sponge.hash s.content → ∀ (tag : Tag) (cs : List Pointer) (p : Pointer),
    s.interned[(tag, cs)]? = some p ↔ p.tag = tag ∧ s.nodes[p]? = some cs
  /-- Unless two preimages share a digest, a node that is taken in is taken apart into the same. -/
  fetch : ∀ (tag : Tag) (cs : List Pointer), (∀ c ∈ cs, c.Canonical) → ∀ p t,
    internNode tag cs s = .ok p t → Set.InjOn Sponge.hash t.content → t.fetch p none = .ok cs

theorem represented (shared : Bool) {operations : List Operation}
    (hcanonical : ∀ operation ∈ operations, operation.Canonical) :
    Represented shared operations (afterAll operations (.empty shared)) := by
  have hs := reachable_afterAll shared hcanonical
  have hsound := reachable_sound hs
  constructor
  · intro p cs hp
    obtain ⟨harity, hpointer, -⟩ := hsound.node hp
    exact ⟨congrArg Pointer.digest hpointer, harity⟩
  · intro p cs hp
    exact exists_entry_of_history (.empty shared) hcanonical (by simp [Store.empty]) hp
  · exact Store.acyclic hs
  · intro p name hp
    exact (reachable_indexed hs).name hp
  · intro operation hoperation
    exact (builds_perform hs hoperation).retains
  · intro operation hoperation p hp
    have hkept := (builds_perform hs hoperation).retains
    exact ⟨hkept.extends_.contains hp, hkept.fetch_eq hsound hp, hkept.resolve_eq hsound hp⟩
  · intro hinjective tag cs p
    exact interned_iff_node hs hinjective
  · intro tag cs hcs p t hintern hinjective
    exact fetch_internNode hs hcs hintern hinjective

/-- A history in which every operation but the last one fails, two of them midway. -/
def interrupted : List Operation :=
  [.intern (.items [.text "x", .integer 5, .boolean true]), .cons (symbolPointer "y") .nil,
    .read "(f (g 1)", .hide 3 .nil]

theorem represented_interrupted : (∀ operation ∈ interrupted, operation.Canonical) ∧
    Represented false interrupted (afterAll interrupted (.empty false)) := by
  have hcanonical : ∀ operation ∈ interrupted, operation.Canonical := by
    have hnil : Pointer.nil.Canonical := Pointer.immediate_canonical .nil 0
    simp [interrupted, Operation.Canonical, Operation.pointers, Datum.pointers, Datum.allPointers,
      symbolPointer_canonical, hnil]
  exact ⟨hcanonical, represented false hcanonical⟩

end FieldLisp
