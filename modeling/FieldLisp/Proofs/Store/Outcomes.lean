import FieldLisp.Proofs.Store.Requests

/-!
# Outcomes that do not depend on the store

What only takes content in comes out alike in every store that has what it is given: a node is handed
out as the hash of its content, whether it is new or not, and a symbol as the hash of its name.

* `Settles`: the outcome of an operation, in all stores that hold certain pointers;
* `Determined`: there is such an outcome;
* `settles_list`: a list is handed out as the pair of its first item and of the others;
* `Determined.bind`: what is put together from such operations has one, too.
-/

namespace FieldLisp.Store

variable {α β : Type} {given given' : List Pointer} {x : StoreM α} {outcome : Except Fault α}
  {pointers : α → List Pointer}

/-- In every store that holds the given pointers, an operation has this outcome. It adds entries only,
and the store holds the pointers of the result. -/
def Settles (given : List Pointer) (x : StoreM α) (outcome : Except Fault α)
    (pointers : α → List Pointer) : Prop :=
  ∀ s, Reachable s → (∀ p ∈ given, s.Holds p) →
    answer x s = outcome ∧ s.Builds (after x s) ∧
      ∀ a, outcome = .ok a → ∀ p ∈ pointers a, (after x s).Holds p

namespace Settles

theorem pure {a : α} (h : pointers a ⊆ given) : Settles given (Pure.pure a) (.ok a) pointers := by
  refine fun s _ hgiven => ⟨rfl, .refl, fun b hb p hp => ?_⟩
  obtain rfl := Except.ok.inj hb
  exact hgiven p (h hp)

theorem throw (fault : Fault) :
    Settles given (MonadExcept.throw fault : StoreM α) (.error fault) pointers :=
  fun _ _ _ => ⟨rfl, .refl, fun _ h => by cases h⟩

/-- More may be given. -/
theorem of_subset (h : Settles given x outcome pointers) (hsubset : given ⊆ given') :
    Settles given' x outcome pointers :=
  fun s hs hgiven => h s hs fun p hp => hgiven p (hsubset hp)

/-- What is in every store need not be given. -/
theorem of_immediate (tag : Tag) (n : ℤ) (htag : tag.isImmediate = true)
    (h : Settles (.immediate tag n :: given) x outcome pointers) : Settles given x outcome pointers := by
  intro s hs hgiven
  refine h s hs (List.forall_mem_cons.2 ⟨?_, hgiven⟩)
  exact s.holds_immediate (Pointer.immediate_canonical tag n) htag

/-- What comes next is given the pointers of the result, and all that was given before. -/
theorem bind {f : α → StoreM β} {a : α} {outcome : Except Fault β} {pointers' : β → List Pointer}
    (hx : Settles given x (.ok a) pointers)
    (hf : Settles (given ++ pointers a) (f a) outcome pointers') :
    Settles given (x >>= f) outcome pointers' := by
  intro s hs hgiven
  obtain ⟨hanswer, hbuilds, hholds⟩ := hx s hs hgiven
  have hrun := bind_of_answer hanswer f
  have hheld (p : Pointer) (hp : p ∈ given ++ pointers a) : (after x s).Holds p := by
    rcases List.mem_append.1 hp with hp | hp
    · exact hbuilds.retains.extends_.holds (hgiven p hp)
    · exact hholds a rfl p hp
  obtain ⟨hanswer', hbuilds', hholds'⟩ := hf _ (hbuilds.reachable hs) hheld
  have hlast : answer (x >>= f) s = answer (f a) (after x s) := by simp only [answer, hrun]
  have hafter : after (x >>= f) s = after (f a) (after x s) := by
    unfold after at hrun ⊢
    rw [hrun]
  rw [hlast, hafter]
  exact ⟨hanswer', hbuilds.trans hbuilds', hholds'⟩

theorem bind_error {f : α → StoreM β} {fault : Fault} {pointers' : β → List Pointer}
    (hx : Settles given x (.error fault) pointers) :
    Settles given (x >>= f) (.error fault) pointers' := by
  intro s hs hgiven
  obtain ⟨hanswer, hbuilds, -⟩ := hx s hs hgiven
  obtain ⟨hfault, hafter⟩ := eq_error_iff.1 (bind_of_fault hanswer f)
  rw [hfault, hafter]
  exact ⟨rfl, hbuilds, fun _ h => by cases h⟩

theorem run_eq_ok {a : α} (h : Settles given x (.ok a) pointers) {s : Store} (hs : Reachable s)
    (hgiven : ∀ p ∈ given, s.Holds p) : ∃ t, x s = .ok a t ∧ Reachable t ∧ s.Retains t := by
  obtain ⟨hanswer, hbuilds, -⟩ := h s hs hgiven
  exact ⟨after x s, eq_ok_iff.2 ⟨hanswer, rfl⟩, hbuilds.reachable hs, hbuilds.retains⟩

end Settles

/-! ## Nodes, symbols and lists -/

theorem settles_cons (car cdr : Pointer) :
    Settles [car, cdr] (cons car cdr) (.ok (nodePointer .cons [car, cdr])) ([·]) := by
  intro s hs hgiven
  have hsound := reachable_sound hs
  have harity : Tag.cons.arity? = some [car, cdr].length := rfl
  obtain ⟨t, ht, htakes⟩ := internNode_takes hsound harity hgiven
  obtain ⟨hanswer, hafter⟩ := eq_ok_iff.1 ht
  have hbuilds := builds_internNode hsound .cons fun c hc => (hgiven c hc).canonical
  refine ⟨hanswer, hbuilds, fun p hp q hq => ?_⟩
  obtain rfl := Except.ok.inj hp
  obtain rfl := List.mem_singleton.1 hq
  exact hafter.symm ▸ htakes.holds

theorem settles_internSymbol (name : String) : Settles given (internSymbol name)
    (.ok (if name = "nil" then .nil else symbolPointer name)) ([·]) := by
  intro s _ _
  refine ⟨answer_internSymbol name s, builds_internSymbol s name, fun p hp q hq => ?_⟩
  obtain rfl := Except.ok.inj hp
  obtain rfl := List.mem_singleton.1 hq
  by_cases hname : name = "nil"
  · rw [if_pos hname]
    exact holds_nil _
  · have hafter : after (internSymbol name) s = s.recordName (symbolPointer name) name := by
      rw [after, internSymbol, if_neg hname]
    rw [if_neg hname, hafter]
    exact ⟨symbolPointer_canonical name, by simp [contains, recordName]⟩

/-- A list is built from its end. -/
theorem settles_list (items : List Pointer) (tail : Pointer) :
    Settles (tail :: items) (list items tail)
      (.ok (items.foldr (fun item rest => nodePointer .cons [item, rest]) tail)) ([·]) := by
  induction items with
  | nil => exact .pure (List.Subset.refl _)
  | cons item items ih =>
    have hrest : Settles (tail :: item :: items) (list items tail) _ _ :=
      ih.of_subset (List.cons_subset_cons _ (List.subset_cons_self _ _))
    exact hrest.bind ((settles_cons item _).of_subset fun p hp => by grind)

/-! ## Determined operations -/

/-- An operation comes out alike in all stores that hold the given pointers. -/
def Determined (given : List Pointer) (x : StoreM α) (pointers : α → List Pointer) : Prop :=
  ∃ outcome, Settles given x outcome pointers

namespace Determined

theorem pure {a : α} (h : pointers a ⊆ given) : Determined given (Pure.pure a) pointers :=
  ⟨_, .pure h⟩

theorem throw (fault : Fault) : Determined given (MonadExcept.throw fault : StoreM α) pointers :=
  ⟨_, .throw fault⟩

theorem bind {f : α → StoreM β} {pointers' : β → List Pointer} (hx : Determined given x pointers)
    (hf : ∀ a, Determined (given ++ pointers a) (f a) pointers') :
    Determined given (x >>= f) pointers' := by
  obtain ⟨fault | a, hx⟩ := hx
  · exact ⟨_, hx.bind_error⟩
  · obtain ⟨outcome, hf⟩ := hf a
    exact ⟨outcome, hx.bind hf⟩

theorem of_subset (h : Determined given x pointers) (hsubset : given ⊆ given') :
    Determined given' x pointers :=
  h.imp fun _ h => h.of_subset hsubset

theorem of_immediate (tag : Tag) (n : ℤ) (htag : tag.isImmediate = true)
    (h : Determined (.immediate tag n :: given) x pointers) : Determined given x pointers :=
  h.imp fun _ h => h.of_immediate tag n htag

theorem list (items : List Pointer) (tail : Pointer) :
    Determined (tail :: items) (list items tail) ([·]) :=
  ⟨_, settles_list items tail⟩

theorem internSymbol (name : String) : Determined given (internSymbol name) ([·]) :=
  ⟨_, settles_internSymbol name⟩

/-- What succeeds in one store has the same result in all others. -/
theorem run_eq_ok (h : Determined [] x pointers) {s t u : Store} {a : α} (hs : Reachable s)
    (hrun : x s = .ok a t) (hu : Reachable u) : ∃ v, x u = .ok a v ∧ Reachable v := by
  obtain ⟨outcome, h⟩ := h
  obtain ⟨hanswer, -⟩ := h s hs (List.forall_mem_nil _)
  rw [(eq_ok_iff.1 hrun).1] at hanswer
  subst hanswer
  obtain ⟨v, hv, hreachable, -⟩ := h.run_eq_ok hu (List.forall_mem_nil _)
  exact ⟨v, hv, hreachable⟩

end Determined

end FieldLisp.Store
