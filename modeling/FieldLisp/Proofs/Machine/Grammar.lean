import FieldLisp.Proofs.Machine.Faithful
import FieldLisp.Proofs.Machine.Pairs

/-!
# The grammar of forms

A step looks at the beginning of a form only, however long its list of parameters or bindings is. A list that breaks the
grammar does so at some item, and before that it goes on after items that do not:

* `Store.ListOf`, `Store.IsBinding`: proper lists, and the items of a list of bindings;
* `Store.Grammatical`: the arguments that a form asks for;
* `Store.Curries`: a lambda expression of which a step does not see the end;
* `Store.BreaksBindings`: where a list of bindings breaks the grammar;
* `Store.expression_of_not_grammatical`: what a step makes of a form that breaks its grammar.
-/

namespace FieldLisp

/-- How many arguments a form has. -/
def Form.argumentCount : Form → ℕ
  | quote | unary _ => 1
  | lambda | bindLet | bindRec | binary _ => 2
  | cond => 3

namespace Store

variable {s t : Store} {p e x init list rest body arguments : Pointer} {ps : List Pointer} {kind : Pointer → Prop}
  {form : Form} {more : Option Pointer} {recursive : Bool} {n : ℕ}

/-! ## Grammar -/

/-- A proper list, all items of which are of one kind. -/
inductive ListOf (s : Store) (kind : Pointer → Prop) : Pointer → Prop
  | nil {p : Pointer} (tag : p.tag = .nil) : ListOf s kind p
  | cons {p : Pointer} (tag : p.tag = .cons) (first : kind (s.car p)) (others : ListOf s kind (s.cdr p)) :
      ListOf s kind p

def IsParameter (p : Pointer) : Prop := p.tag = .symbol

/-- A list of a symbol and an expression. -/
def IsBinding (s : Store) (p : Pointer) : Prop := ∃ x init, x.tag = .symbol ∧ s.items 2 p = some [x, init]

/-- The first argument of a form is a list of parameters or of bindings, if the form has one. -/
def IsOpening (s : Store) (form : Form) (p : Pointer) : Prop :=
  match form with
  | .lambda => s.ListOf IsParameter p
  | .bindLet | .bindRec => s.ListOf s.IsBinding p
  | .quote | .cond | .unary _ | .binary _ => True

/-- The arguments of a form follow its grammar. -/
def Grammatical (s : Store) (form : Form) (arguments : Pointer) : Prop :=
  ∃ first others, s.items form.argumentCount arguments = some (first :: others) ∧ s.IsOpening form first

/-- A list has a binding of a symbol to an expression, wherever it stands. -/
inductive HasBinding (s : Store) : Pointer → Pointer → Pointer → Prop
  | first {list x init : Pointer} (tag : list.tag = .cons) (binding : s.items 2 (s.car list) = some [x, init]) :
      HasBinding s list x init
  | later {list x init : Pointer} (tag : list.tag = .cons) (others : HasBinding s (s.cdr list) x init) :
      HasBinding s list x init

/-! ## Beginnings of lists -/

theorem length_of_items (h : s.items n p = some ps) : ps.length = n := by
  induction n generalizing p ps with
  | zero =>
    obtain ⟨-, rfl⟩ := items_zero.1 h
    rfl
  | succ n ih =>
    cases ps with
    | nil =>
      rw [items] at h
      split at h
      · obtain ⟨others, -, hcons⟩ := Option.map_eq_some_iff.1 h
        cases hcons
      · cases h
    | cons a ps => rw [List.length_cons, ih (items_cons.1 h).2.2]

theorem holds_of_items (hs : s.Sound) (hp : s.Holds p) (h : s.items n p = some ps) : ∀ q ∈ ps, s.Holds q := by
  have hpairs : s.Hereditary s.Holds := ⟨hs.holds_car, hs.holds_cdr⟩
  exact hpairs.items h hp

/-- A list goes on with a pair, or ends. -/
theorem rest?_eq_some : rest? p = some more ↔ (p.tag = .cons ∧ more = some p) ∨ (p.tag = .nil ∧ more = none) := by
  unfold rest?
  by_cases hcons : p.tag = .cons
  · simp [hcons, eq_comm]
  · by_cases hnil : p.tag = .nil <;> simp [hnil, hcons, eq_comm]

theorem binding?_eq_some : s.binding? list = some (x, init, more) ↔
    list.tag = .cons ∧ x.tag = .symbol ∧ s.items 2 (s.car list) = some [x, init] ∧ rest? (s.cdr list) = some more := by
  unfold binding?
  by_cases hcons : list.tag = .cons
  · rw [if_pos hcons]
    cases hitems : s.items 2 (s.car list) with
    | none => simp
    | some ps =>
      obtain ⟨y, e, rfl⟩ := List.length_eq_two.1 (length_of_items hitems)
      dsimp only
      split
      · simp only [Option.map_eq_some_iff, Prod.mk.injEq, Option.some.injEq, List.cons.injEq]
        grind
      · grind
  · simp [hcons]

/-- A list of bindings follows the grammar if the list of those after the first one does. -/
theorem ListOf.of_binding (hfirst : s.binding? list = some (x, init, more))
    (hothers : ∀ rest ∈ more, s.ListOf s.IsBinding rest) : s.ListOf s.IsBinding list := by
  obtain ⟨hcons, hx, hbinding, hmore⟩ := binding?_eq_some.1 hfirst
  refine .cons hcons ⟨x, init, hx, hbinding⟩ ?_
  obtain ⟨-, rfl⟩ | ⟨hnil, -⟩ := rest?_eq_some.1 hmore
  · exact hothers _ rfl
  · exact .nil hnil

theorem level_cdr_lt {level : Pointer → ℕ} (hlevel : s.Leveled level) (hs : s.Sound) (htag : list.tag = .cons)
    (hlist : s.Holds list) : level (s.cdr list) < level list := by
  have harity : list.tag.arity? = some 2 := by rw [htag]; rfl
  obtain ⟨hnode, hlength, -⟩ := hs.children_eq harity hlist
  obtain ⟨a, b, hchildren⟩ := List.length_eq_two.1 hlength
  rw [hchildren] at hnode
  rw [cdr, if_pos htag, part_of_node hnode]
  exact hlevel.below hnode b (by simp)

/-! ## Lists of bindings -/

/-- A list of bindings breaks the grammar: at its beginning, or after a binding. -/
inductive BreaksBindings (s : Store) : Pointer → Prop
  | here {list : Pointer} (tag : list.tag ≠ .nil) (first : s.binding? list = none) : BreaksBindings s list
  | later {list x init rest : Pointer} (first : s.binding? list = some (x, init, some rest))
      (others : BreaksBindings s rest) : BreaksBindings s list

/-- A list that does not follow the grammar breaks it somewhere. -/
theorem listOf_or_breaks {level : Pointer → ℕ} (hlevel : s.Leveled level) (hs : s.Sound) (hlist : s.Holds list) :
    s.ListOf s.IsBinding list ∨ s.BreaksBindings list := by
  induction hn : level list using Nat.strong_induction_on generalizing list with
  | _ n ih =>
    by_cases hnil : list.tag = .nil
    · exact .inl (.nil hnil)
    cases hfirst : s.binding? list with
    | none => exact .inr (.here hnil hfirst)
    | some found =>
      obtain ⟨x, init, more⟩ := found
      obtain ⟨hcons, -, -, hmore⟩ := binding?_eq_some.1 hfirst
      cases more with
      | none => exact .inl (.of_binding hfirst nofun)
      | some rest =>
        obtain ⟨rfl, -⟩ := of_rest? hmore rest rfl
        have hlower := level_cdr_lt hlevel hs hcons hlist
        refine (ih _ (hn ▸ hlower) (hs.holds_cdr hlist) rfl).imp (fun hothers => .of_binding hfirst ?_) (.later hfirst)
        rintro _ ⟨⟩
        exact hothers

/-- A step looks at the first binding of a form. -/
theorem expression_of_binding (h : s.items 3 e = some [(bindForm recursive).symbol, list, body])
    (hfirst : s.binding? list = some (x, init, more)) : s.expression e = .bind recursive x init more body := by
  obtain ⟨hexpression, harguments⟩ := expression_of_items h
  have htag := (binding?_eq_some.1 hfirst).1
  simp only [hexpression, bindExpression, harguments, htag, reduceCtorEq, if_false, hfirst]

theorem expression_of_unbound (h : s.items 3 e = some [(bindForm recursive).symbol, list, body])
    (htag : list.tag ≠ .nil) (hfirst : s.binding? list = none) : s.expression e = .malformed := by
  obtain ⟨hexpression, harguments⟩ := expression_of_items h
  simp only [hexpression, bindExpression, harguments, if_neg htag, hfirst]

/-! ## Forms that break their grammar -/

/-- The form `(lambda (x . rest) body)`, where the list goes on after the first parameter. -/
def Curries (s : Store) (e x rest body : Pointer) : Prop :=
  ∃ list, s.items 3 e = some [Form.lambda.symbol, list, body] ∧ list.tag = .cons ∧ s.car list = x ∧
    s.cdr list = rest ∧ x.tag = .symbol ∧ rest.tag = .cons

namespace Curries

variable (h : s.Curries e x rest body)
include h

theorem head : e.tag = .cons ∧ s.car e = Form.lambda.symbol := by
  obtain ⟨list, hitems, -⟩ := h
  obtain ⟨htag, hcar, -⟩ := items_cons.1 hitems
  exact ⟨htag, hcar⟩

theorem expression_eq : s.expression e = .lambda x (some rest) body := by
  obtain ⟨htag, hcar⟩ := h.head
  obtain ⟨list, hitems, hlist, rfl, rfl, hx, hrest⟩ := h
  have hform : formOf? (s.car e) = some .lambda := by rw [hcar, formOf?_symbol]
  have hparameters : s.parameters? list = some (s.car list, some (s.cdr list)) := by
    rw [parameters?, if_neg (by rw [hlist]; decide), if_pos ⟨hlist, hx⟩, rest?, if_pos hrest]
    rfl
  simp only [expression_of_form htag hform, formExpression, (items_cons.1 hitems).2.2, hparameters]

/-- The list of the other parameters breaks the grammar too. -/
theorem not_listOf (hbreaks : ¬s.Grammatical .lambda (s.cdr e)) : ¬s.ListOf IsParameter rest := by
  obtain ⟨list, hitems, hlist, rfl, rfl, hx, hrest⟩ := h
  exact fun hothers => hbreaks ⟨list, [body], (items_cons.1 hitems).2.2, .cons hlist hx hothers⟩

end Curries

/-- The arguments of a form are too few or too many, or no proper list. -/
theorem formExpression_of_items (h : s.items form.argumentCount arguments = none) :
    s.formExpression form arguments = .malformed := by
  cases form <;> simp only [Form.argumentCount] at h <;> simp only [formExpression, bindExpression, h]

/-- A lambda expression breaks the grammar where a step looks, or its list of parameters goes on. -/
theorem expression_of_parameters (hitems : s.items 3 e = some [Form.lambda.symbol, list, body])
    (hbreaks : ¬s.ListOf IsParameter list) : s.expression e = .malformed ∨ ∃ x rest, s.Curries e x rest body := by
  obtain ⟨htag, hcar, harguments⟩ := items_cons.1 hitems
  have hform : formOf? (s.car e) = some .lambda := by rw [hcar, formOf?_symbol]
  have hnil : list.tag ≠ .nil := fun hnil => hbreaks (.nil hnil)
  by_cases hfirst : list.tag = .cons ∧ (s.car list).tag = .symbol
  · cases hrest : rest? (s.cdr list) with
    | none =>
      left
      simp only [expression_of_form htag hform, formExpression, harguments, parameters?, if_neg hnil, if_pos hfirst,
        hrest, Option.map_none]
    | some more =>
      right
      obtain ⟨hcons, -⟩ | ⟨hend, -⟩ := rest?_eq_some.1 hrest
      · exact ⟨_, _, list, hitems, hfirst.1, rfl, rfl, hfirst.2, hcons⟩
      · exact absurd (.cons hfirst.1 hfirst.2 (.nil hend)) hbreaks
  · left
    simp only [expression_of_form htag hform, formExpression, harguments, parameters?, if_neg hnil, if_neg hfirst]

/-- A list of bindings breaks the grammar where a step looks, or after some bindings. -/
theorem breaks_of_bindings (hs : Reachable s) (he : s.Holds e) (hitems : s.items 3 e = some [p, list, body])
    (hbreaks : ¬s.ListOf s.IsBinding list) : s.BreaksBindings list := by
  have hsound := reachable_sound hs
  obtain ⟨level, hlevel⟩ := reachable_leveled hs
  have hlist : s.Holds list := holds_of_items hsound he hitems list (by simp)
  exact (listOf_or_breaks hlevel hsound hlist).resolve_left hbreaks

/-- A step refuses a form that breaks its grammar, unless the form has a list that goes on. -/
theorem expression_of_not_grammatical (hs : Reachable s) (he : s.Holds e) (htag : e.tag = .cons)
    (hhead : s.car e = form.symbol) (hbreaks : ¬s.Grammatical form (s.cdr e)) :
    s.expression e = .malformed ∨ (∃ x rest body, s.Curries e x rest body) ∨
      ∃ recursive list body, s.items 3 e = some [(bindForm recursive).symbol, list, body] ∧ s.BreaksBindings list := by
  have hform : formOf? (s.car e) = some form := by rw [hhead, formOf?_symbol]
  cases hitems : s.items form.argumentCount (s.cdr e) with
  | none => exact .inl (by rw [expression_of_form htag hform, formExpression_of_items hitems])
  | some ps =>
    have hlength := length_of_items hitems
    have hall := items_cons.2 ⟨htag, hhead, hitems⟩
    have hopening : ∀ first others, ps = first :: others → ¬s.IsOpening form first := by
      rintro first others rfl hopening
      exact hbreaks ⟨first, others, hitems, hopening⟩
    cases form with
    | lambda =>
      obtain ⟨list, body, rfl⟩ := List.length_eq_two.1 hlength
      refine (expression_of_parameters hall (hopening list [body] rfl)).imp_right ?_
      rintro ⟨x, rest, hcurries⟩
      exact .inl ⟨x, rest, body, hcurries⟩
    | bindLet =>
      obtain ⟨list, body, rfl⟩ := List.length_eq_two.1 hlength
      exact .inr (.inr ⟨false, list, body, hall, breaks_of_bindings hs he hall (hopening list [body] rfl)⟩)
    | bindRec =>
      obtain ⟨list, body, rfl⟩ := List.length_eq_two.1 hlength
      exact .inr (.inr ⟨true, list, body, hall, breaks_of_bindings hs he hall (hopening list [body] rfl)⟩)
    | quote | cond | unary | binary =>
      obtain ⟨first, others, rfl⟩ := List.exists_cons_of_length_eq_add_one hlength
      exact absurd trivial (hopening first others rfl)

end Store

end FieldLisp
