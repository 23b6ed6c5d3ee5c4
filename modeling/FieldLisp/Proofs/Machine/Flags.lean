import FieldLisp.Proofs.Machine.Marked
import FieldLisp.Proofs.Symbols

/-!
# Flags of the marked model

A flag is a truth value that may be sure. What rules do with flags has a normal form:

* `both_bit`: a flag that is sure and not set masks one that is not sure;
* `selectPointer_bit`, `choose_bit`: a choice gives the chosen one, as sure as its flag;
* `tagIn_eq`, `symbolFlags_eq`: tests of tags and of symbols.
-/

namespace FieldLisp

open StepModel

namespace Marked

/-- A value that is sure only if a flag is. -/
def dim {α : Type} (sure : Bool) (a : Marked α) : Marked α := ⟨a.value, sure && a.sure⟩

@[simp] theorem dim_true {α : Type} (a : Marked α) : a.dim true = a := rfl

@[simp] theorem bit_sure (s v : Bool) : (bit s v).sure = s := rfl

@[simp] theorem bit_value_eq_zero {s v : Bool} : (bit s v).value = 0 ↔ v = false := by
  cases v <;> simp [bit, Workspace.bit]

@[simp] theorem bit_value_eq_one {s v : Bool} : (bit s v).value = 1 ↔ v = true := by
  cases v <;> simp [bit, Workspace.bit]

@[simp] theorem dim_bit (s t v : Bool) : (bit t v).dim s = bit (s && t) v := rfl

end Marked

namespace MarkedPointer

/-- A pointer that is sure only if a flag is. -/
def dim (sure : Bool) (p : MarkedPointer) : MarkedPointer :=
  ⟨p.value, sure && p.sure, sure && p.notPair⟩

@[simp] theorem dim_true (p : MarkedPointer) : p.dim true = p := rfl

end MarkedPointer

/-- An outcome that is sure only if a flag is. -/
def Step.dim (sure : Bool) (x : Step (Marked Int) MarkedPointer) : Step (Marked Int) MarkedPointer :=
  ⟨x.expr.dim sure, x.env.dim sure, x.cont.dim sure, x.ret.dim sure⟩

@[simp] theorem Step.dim_true (x : Step (Marked Int) MarkedPointer) : x.dim true = x := rfl

namespace MarkM

variable {c : Setting}

/-! ## Truth values -/

@[simp] theorem lit_zero : (lit 0 : Marked Int) = .bit true false := rfl

@[simp] theorem lit_one : (lit 1 : Marked Int) = .bit true true := rfl

@[simp] theorem no_bit (s v : Bool) : no (Marked.bit s v) = .bit s (!v) := by
  cases v <;> rfl

@[simp] theorem tagIs_eq (p : MarkedPointer) (tag : Tag) : (tagIs p tag : MarkM c (Marked Int)) =
    pure (.bit (p.sure || p.notPair && tag == .cons) (p.value.tag == tag)) := rfl

@[simp] theorem pointerEq_eq (p q : MarkedPointer) : (pointerEq p q : MarkM c (Marked Int)) =
    pure (.bit (p.sure && q.sure) (p.value == q.value)) := rfl

@[simp] theorem ptr_eq (p : Pointer) : (ptr p : MarkedPointer) = .certain p := rfl

theorem mul_bit (s t v w : Bool) : (mul (.bit s v) (.bit t w) : MarkM c (Marked Int)) =
    pure (.bit (s && t || s && !v || t && !w) (v && w)) := by
  cases v <;> cases w <;> rfl

@[simp] theorem both_nil (x : Marked Int) : (both x [] : MarkM c (Marked Int)) = pure x := rfl

/-- All of several flags, one after the other. -/
@[simp] theorem both_cons (s t v w : Bool) (xs : List (Marked Int)) :
    (both (.bit s v) (.bit t w :: xs) : MarkM c (Marked Int)) =
      both (.bit (s && t || s && !v || t && !w) (v && w)) xs := by
  unfold both
  rw [List.foldlM_cons, mul_bit, pure_bind]

/-- A flag that is sure masks one that is only known where the first is set. -/
theorem both_masked {t v w : Bool} (h : v = true → t = true) (xs : List (Marked Int)) :
    (both (.bit true v) (.bit t w :: xs) : MarkM c (Marked Int)) = both (.bit true (v && w)) xs := by
  rw [both_cons]
  cases v with
  | false => simp
  | true => simp [h rfl]

/-- One of two flags of which at most one is set. -/
theorem oneOf_pair {s t v w : Bool} (h : (v && w) = false) :
    oneOf [Marked.bit s v, .bit t w] = .bit (s && t) (v || w) := by
  cases v <;> cases w <;> first | rfl | cases h

/-- One of several flags of which at most one is set. -/
theorem oneOf_map {κ : Type} {s v : κ → Bool} {ks : List κ} (hne : ks ≠ [])
    (h : ks.Pairwise fun a b => (v a && v b) = false) :
    oneOf (ks.map fun k => Marked.bit (s k) (v k)) = .bit (ks.all s) (ks.any v) := by
  obtain ⟨k, ks, rfl⟩ := List.exists_cons_of_ne_nil hne
  obtain ⟨hfirst, hpairs⟩ := List.pairwise_cons.1 h
  simp only [List.map_cons, oneOf, List.all_cons, List.any_cons]
  -- The sum so far is a flag that excludes all that follow.
  generalize s k = t
  generalize v k = w at hfirst
  clear h hne
  induction ks generalizing t w with
  | nil => simp
  | cons a ks ih =>
    obtain ⟨hnext, hpairs⟩ := List.pairwise_cons.1 hpairs
    have hadd : ElementModel.add (Marked.bit t w) (.bit (s a) (v a)) =
        .bit (t && s a) (w || v a) := oneOf_pair (hfirst a List.mem_cons_self)
    rw [List.map_cons, List.foldl_cons, hadd, List.all_cons, List.any_cons, ← Bool.and_assoc,
      ← Bool.or_assoc]
    refine ih hpairs _ _ fun b hb => ?_
    rw [Bool.and_or_distrib_right, hfirst b (List.mem_cons_of_mem _ hb), hnext b hb]
    rfl

/-- A pointer has one tag. -/
theorem tags_exclusive (p : Pointer) (a b : Tag) (hab : a ≠ b) :
    (p.tag == a && p.tag == b) = false := by
  refine Bool.eq_false_iff.2 fun h => hab ?_
  rw [Bool.and_eq_true, beq_iff_eq, beq_iff_eq] at h
  exact h.1.symm.trans h.2

/-! ## Tests -/

/-- Whether the tag of a pointer is in a list of tags, which are in ascending order. -/
theorem tagIn_eq {tags : List Tag} (hne : tags ≠ []) (hascending : Tag.ascending tags = tags)
    (hnodup : tags.Nodup) {p : MarkedPointer} (h : p.sure = true ∨ .cons ∉ tags) :
    (tagIn p tags : MarkM c (Marked Int)) = pure (.bit p.sure (tags.contains p.value.tag)) := by
  have hflags : (tags.mapM (tagIs p) : MarkM c (List (Marked Int))) = pure (tags.map fun tag =>
      .bit (p.sure || p.notPair && tag == .cons) (p.value.tag == tag)) := List.mapM_pure
  have hpairs : tags.Pairwise fun a b => (p.value.tag == a && p.value.tag == b) = false :=
    hnodup.imp fun hab => by
      refine Bool.eq_false_iff.2 fun h => hab ?_
      simp only [Bool.and_eq_true, beq_iff_eq] at h
      exact h.1.symm.trans h.2
  have hsure : (tags.all fun tag => p.sure || p.notPair && tag == .cons) = p.sure := by
    rcases h with h | h
    · simp [h]
    · have hne' : ∀ tag ∈ tags, (tag == .cons) = false := fun tag htag =>
        beq_eq_false_iff_ne.2 fun heq => h (heq ▸ htag)
      obtain ⟨tag, tags, rfl⟩ := List.exists_cons_of_ne_nil hne
      rw [Bool.eq_iff_iff, List.all_eq_true]
      constructor
      · intro hall
        have := hall tag List.mem_cons_self
        rwa [hne' tag List.mem_cons_self, Bool.and_false, Bool.or_false] at this
      · intro hsure tag _
        rw [hsure, Bool.true_or]
  unfold tagIn
  rw [hascending, hflags, pure_bind, oneOf_map hne hpairs, hsure, List.any_beq]

/-- Which of several pointers a pointer is. -/
theorem pointerFlags_eq {κ : Type} (p : MarkedPointer) (pointerOf : κ → Pointer) (ks : List κ) :
    (ks.mapM fun k => do
      let same ← pointerEq p (ptr (pointerOf k))
      pure (k, same) : MarkM c (List (κ × Marked Int))) =
        pure (ks.map fun k => (k, .bit p.sure (p.value == pointerOf k))) := by
  rw [← List.mapM_pure]
  simp [MarkedPointer.certain]

theorem flag_map {κ : Type} [BEq κ] [LawfulBEq κ] {ks : List κ} {k : κ} (h : k ∈ ks)
    (f : κ → Marked Int) : flag (ks.map fun k => (k, f k)) k = f k := by
  unfold flag
  induction ks with
  | nil => cases h
  | cons a ks ih =>
    rw [List.map_cons, List.lookup_cons]
    by_cases hka : k = a
    · subst hka
      simp
    · rw [beq_eq_false_iff_ne.2 hka]
      exact ih ((List.mem_cons.1 h).resolve_left hka)

/-- Whether a pointer is the symbol of one of several forms. -/
theorem oneOf_forms {s : Bool} {head : Pointer} {forms : List Form} (hne : forms ≠ [])
    (hnodup : forms.Nodup) : oneOf (forms.map fun form => Marked.bit s (head == form.symbol)) =
      .bit s (forms.any (formOf? head == some ·)) := by
  have hpairs : forms.Pairwise fun a b => (head == a.symbol && head == b.symbol) = false :=
    hnodup.imp fun {a b} hab => by
      refine Bool.eq_false_iff.2 fun h => hab ?_
      simp only [Bool.and_eq_true, beq_iff_eq] at h
      exact Form.symbol_injective (h.1.symm.trans h.2)
  obtain ⟨form, forms, rfl⟩ := List.exists_cons_of_ne_nil hne
  rw [oneOf_map hne hpairs]
  congr 1
  · cases s <;> simp
  · simp only [beq_symbol]

/-! ## Choices -/

theorem mayChoose_bit {s v : Bool} (h : c.honest = true → s = true) :
    MayChoose c (.bit s v) := by
  refine ⟨?_, h⟩
  cases v
  · exact .inl rfl
  · exact .inr rfl

theorem select_bit {s v : Bool} (h : c.honest = true → s = true) (x y : Marked Int) :
    (select (.bit s v) x y : MarkM c (Marked Int)) = pure ((if v then x else y).dim s) := by
  change require (MayChoose c _) (chosen _ x y) = _
  rw [require_eq (mayChoose_bit h)]
  cases v <;> rfl

theorem selectPointer_bit {s v : Bool} (h : c.honest = true → s = true) (p q : MarkedPointer) :
    (selectPointer (.bit s v) p q : MarkM c MarkedPointer) =
      pure ((if v then p else q).dim s) := by
  change require (MayChoose c _) (chosenPointer _ p q) = _
  rw [require_eq (mayChoose_bit h)]
  cases v <;> rfl

theorem choose_bit {s v : Bool} (h : c.honest = true → s = true)
    (x y : Step (Marked Int) MarkedPointer) :
    (Step.choose (.bit s v) x y : MarkM c _) = pure ((if v then x else y).dim s) := by
  unfold Step.choose
  simp only [selectPointer_bit h, select_bit h, pure_bind]
  cases v <;> rfl

theorem truth_bit {s v : Bool} (h : c.honest = true → s = true) :
    (truth (.bit s v) : MarkM c MarkedPointer) =
      pure ((MarkedPointer.certain (if v then Builtin.truthPointer else .nil)).dim s) := by
  unfold truth
  rw [selectPointer_bit h]
  cases v <;> rfl

/-! ## Conditions -/

theorem admits_none : c.Admits none := fun _ _ h => by cases h

theorem admits_bit {s v : Bool} (h : c.gate = true → v = true → s = true)
    (h' : c.honest = true → s = true) : c.Admits (some (.bit s v)) := by
  rintro hgate x ⟨⟩
  cases v with
  | false => exact .inl ⟨rfl, h'⟩
  | true => exact .inr ⟨rfl, h hgate rfl⟩

@[simp] theorem on_none : c.on none = c.gate := by simp [Setting.on]

@[simp] theorem on_bit (s v : Bool) : c.on (some (.bit s v)) = (c.gate && v) := by
  cases v <;> simp [Setting.on, Marked.bit, Workspace.bit]

end MarkM

end FieldLisp
