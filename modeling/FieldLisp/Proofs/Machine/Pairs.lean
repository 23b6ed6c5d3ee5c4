import FieldLisp.Proofs.Machine.EvalReduct

/-!
# Expressions in a store

What the machine takes a pair for, from the parts that the pair has in a store:

* `Store.IsPair`: a pair and its parts;
* `Store.items_cons`: the items of a proper list, one by one;
* `Store.IsLambda`, `Store.IsBind`: functions with one parameter and forms with one binding, and what they are.
-/

namespace FieldLisp.Store

variable {s t : Store} {p a b e list head body x : Pointer} {ps : List Pointer} {n : ℕ}

/-! ## Pairs -/

/-- A pair in a store, and its parts. -/
structure IsPair (s : Store) (p a b : Pointer) : Prop where
  tag : p.tag = .cons
  node : s.nodes[p]? = some [a, b]

namespace IsPair

variable (h : s.IsPair p a b)
include h

theorem car : s.car p = a := by
  rw [Store.car, if_pos h.tag]
  exact part_of_node h.node 0

theorem cdr : s.cdr p = b := by
  rw [Store.cdr, if_pos h.tag]
  exact part_of_node h.node 1

theorem mono (hext : s.Extends t) : t.IsPair p a b := ⟨h.tag, hext.node h.node⟩

theorem holds (hs : s.Sound) : s.Holds p ∧ s.Holds a ∧ s.Holds b := by
  obtain ⟨-, -, hparts⟩ := hs.node h.node
  exact ⟨hs.contains_of_node h.node, hparts a (by simp), hparts b (by simp)⟩

theorem formOf?_eq : formOf? p = none := formOf?_eq_none (by rw [h.tag]; decide)

/-- A pair whose head is no symbol of a form is a call. -/
theorem expression_eq {first others : Pointer} (hform : formOf? a = none) (harguments : s.IsPair b first others) :
    s.expression p = .call a first others := by
  rw [expression_of_call h.tag (by rw [h.car]; exact hform), callExpression, h.car, h.cdr, harguments.car,
    harguments.cdr, if_pos harguments.tag, if_neg (by rw [harguments.tag]; decide)]

end IsPair

/-! ## Lists -/

theorem items_cons : s.items (n + 1) p = some (a :: ps) ↔
    p.tag = .cons ∧ s.car p = a ∧ s.items n (s.cdr p) = some ps := by
  rw [items]
  split
  · rename_i htag
    simp [htag, and_comm]
  · rename_i htag
    simp [htag]

theorem items_zero : s.items 0 p = some ps ↔ p.tag = .nil ∧ ps = [] := by
  rw [items]
  split
  · rename_i htag
    simp [htag, eq_comm]
  · rename_i htag
    simp [htag]

theorem IsPair.items (h : s.IsPair p a b) (n : ℕ) : s.items (n + 1) p = (s.items n b).map (a :: ·) := by
  rw [Store.items, if_pos h.tag, h.car, h.cdr]

/-! ## Forms -/

theorem rest?_of_nil (h : p.tag = .nil) : rest? p = some none := by
  unfold rest?
  rw [h]
  rfl

/-- A call with one argument. -/
theorem expression_call (h : s.items 2 p = some [head, e]) (hhead : formOf? head = none) :
    ∃ others, others.tag = .nil ∧ s.expression p = .call head e others := by
  obtain ⟨htag, hcar, hrest⟩ := items_cons.1 h
  obtain ⟨htag', hcar', hrest'⟩ := items_cons.1 hrest
  refine ⟨_, (items_zero.1 hrest').1, ?_⟩
  rw [expression_of_call htag (by rw [hcar]; exact hhead), callExpression, hcar, hcar',
    if_neg (by rw [htag']; decide), if_pos htag']

/-- The form `(lambda (x) body)`. -/
def IsLambda (s : Store) (p x body : Pointer) : Prop :=
  ∃ list, s.items 3 p = some [Form.lambda.symbol, list, body] ∧ s.items 1 list = some [x]

/-- The form `(let ((x e)) body)`, or its recursive kind. -/
def IsBind (s : Store) (recursive : Bool) (p x e body : Pointer) : Prop :=
  ∃ list binding, s.items 3 p = some [(bindForm recursive).symbol, list, body] ∧
    s.items 1 list = some [binding] ∧ s.items 2 binding = some [x, e]

theorem IsLambda.formOf?_eq (h : s.IsLambda p x body) : formOf? p = none := by
  obtain ⟨list, hitems, -⟩ := h
  exact formOf?_eq_none (by rw [(items_cons.1 hitems).1]; decide)

theorem IsLambda.expression_eq (h : s.IsLambda p x body) (hx : x.tag = .symbol) :
    s.expression p = .lambda x none body := by
  obtain ⟨list, hitems, hlist⟩ := h
  obtain ⟨htag, hcar, hrest⟩ := items_cons.1 hitems
  obtain ⟨hlistTag, hparameter, hlast⟩ := items_cons.1 hlist
  have hform : formOf? (s.car p) = some .lambda := by rw [hcar, formOf?_symbol]
  have hparameters : s.parameters? list = some (x, none) := by
    rw [parameters?, if_neg (by rw [hlistTag]; decide), hparameter, if_pos ⟨hlistTag, hx⟩,
      rest?_of_nil (items_zero.1 hlast).1]
    rfl
  simp only [expression_of_form htag hform, formExpression, hrest, hparameters]

/-- A form of bindings and a body. -/
theorem expression_of_items {recursive : Bool} (h : s.items 3 p = some [(bindForm recursive).symbol, list, body]) :
    s.expression p = s.bindExpression recursive (s.cdr p) ∧ s.items 2 (s.cdr p) = some [list, body] := by
  obtain ⟨htag, hcar, hrest⟩ := items_cons.1 h
  have hform : formOf? (s.car p) = some (bindForm recursive) := by rw [hcar, formOf?_symbol]
  refine ⟨?_, hrest⟩
  rw [expression_of_form htag hform]
  cases recursive <;> rfl

theorem IsBind.expression_eq {recursive : Bool} (h : s.IsBind recursive p x e body) (hx : x.tag = .symbol) :
    s.expression p = .bind recursive x e none body := by
  obtain ⟨list, binding, hitems, hlist, hbinding⟩ := h
  obtain ⟨hexpression, hrest⟩ := expression_of_items hitems
  obtain ⟨hlistTag, hfirst, hlast⟩ := items_cons.1 hlist
  have hfound : s.binding? list = some (x, e, none) := by
    simp only [binding?, if_pos hlistTag, hfirst, hbinding, if_pos hx, rest?_of_nil (items_zero.1 hlast).1,
      Option.map_some]
  simp only [hexpression, bindExpression, hrest, hfound, hlistTag, reduceCtorEq, if_false]

end FieldLisp.Store
