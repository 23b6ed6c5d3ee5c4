import FieldLisp.Circuit.Layout
import FieldLisp.Proofs.Store.Words

/-!
# What the digest of a layout tells

The text of a layout puts its parts next to each other: no mark stands between the number of constraints and
the first of them, or between one constraint and the next. But every part shows where it ends. A number goes
on as far as there are digits, and everything else stands in parentheses.

* `SelfDelimiting`: a way of writing after which anything may follow;
* `number_split`: a number, after which no digit may follow;
* `selfDelimiting_constraint`: terms and constraints, from their parts;
* `layoutText_injective`: so the text tells the counts and every constraint;
* `shapeDigest_separates`: and its digest does, unless the digest collides.
-/

namespace FieldLisp

/-- Where a written value ends can be seen without knowing what follows. -/
def SelfDelimiting {α : Type} (write : α → List Char) : Prop :=
  ∀ ⦃a b : α⦄ ⦃rest rest' : List Char⦄, write a ++ rest = write b ++ rest' → a = b ∧ rest = rest'

/-- Then values may be written one after the other. -/
theorem SelfDelimiting.flatMap_injective {α : Type} {write : α → List Char} (h : SelfDelimiting write)
    (hne : ∀ a, write a ≠ []) : Function.Injective fun xs : List α => xs.flatMap write := by
  intro xs ys hxs
  induction xs generalizing ys with
  | nil =>
    cases ys with
    | nil => rfl
    | cons y ys => exact absurd (List.append_eq_nil_iff.1 hxs.symm).1 (hne y)
  | cons x xs ih =>
    cases ys with
    | nil => exact absurd (List.append_eq_nil_iff.1 hxs).1 (hne x)
    | cons y ys =>
      obtain ⟨rfl, hrest⟩ := h hxs
      rw [ih hrest]

/-! ## Numbers -/

/-- A character that numbers are written with. -/
def inNumber (c : Char) : Bool := c.isDigit || c == '-'

theorem inNumber_of_mem_toString {n : ℤ} {c : Char} (hc : c ∈ (toString n).toList) : inNumber c = true := by
  have hdigit (hc : c ∈ Nat.toDigits 10 n.natAbs) : inNumber c = true := by
    rw [inNumber, Nat.isDigit_of_mem_toDigits (by decide) (by decide) hc, Bool.true_or]
  rw [toList_toString] at hc
  split at hc
  · exact hdigit hc
  · rcases List.mem_cons.1 hc with rfl | hc
    · rfl
    · exact hdigit hc

/-- What follows is nothing that a number could go on with. -/
def EndsNumber (rest : List Char) : Prop := ∀ c ∈ rest.head?, inNumber c = false

theorem EndsNumber.cons {c : Char} (h : inNumber c = false) (rest : List Char) : EndsNumber (c :: rest) := by
  rintro d ⟨⟩
  exact h

theorem takeWhile_inNumber (n : ℤ) {rest : List Char} (hrest : EndsNumber rest) :
    ((toString n).toList ++ rest).takeWhile inNumber = (toString n).toList :=
  takeWhile_append_stop (fun _ => inNumber_of_mem_toString) hrest

theorem number_split {n m : ℤ} {rest rest' : List Char} (hrest : EndsNumber rest) (hrest' : EndsNumber rest')
    (h : (toString n).toList ++ rest = (toString m).toList ++ rest') : n = m ∧ rest = rest' := by
  have htext : (toString n).toList = (toString m).toList := by
    rw [← takeWhile_inNumber n hrest, h, takeWhile_inNumber m hrest']
  rw [htext] at h
  refine ⟨?_, List.append_cancel_left h⟩
  -- What is written is a numeral for the number.
  obtain ⟨negative, digits, hn, rfl, -⟩ := numeral?_toString n
  obtain ⟨negative', digits', hm, rfl, -⟩ := numeral?_toString m
  rw [String.toList_inj.1 htext, hm] at hn
  obtain ⟨rfl, rfl⟩ := Prod.mk.inj (Option.some.inj hn)
  rfl

namespace Circuit

/-! ## Terms -/

theorem toList_termText (t : Term) : (termText t).toList =
    '(' :: ((toString (t.1 : ℤ)).toList ++ ',' :: ' ' :: ((toString t.2).toList ++ [')'])) := by
  simp only [termText, String.toList_append, List.append_assoc]
  rfl

theorem selfDelimiting_term : SelfDelimiting fun t : Term => (termText t).toList := by
  rintro ⟨i, c⟩ ⟨j, d⟩ rest rest' h
  simp only [toList_termText, List.cons_append, List.append_assoc, List.cons.injEq, true_and] at h
  obtain ⟨hindex, hafter⟩ := number_split (.cons rfl _) (.cons rfl _) h
  simp only [List.cons.injEq, true_and] at hafter
  obtain ⟨rfl, hend⟩ := number_split (.cons rfl _) (.cons rfl _) hafter
  exact ⟨by rw [Int.ofNat_inj.1 hindex], by simpa using hend⟩

/-- What follows one of several terms: the others, with a comma in front of each. -/
def further : List Term → List Char
  | [] => [')']
  | t :: ts => ',' :: ' ' :: ((termText t).toList ++ further ts)

/-- What follows the first term. A comma follows it also if it is the only one. -/
def afterFirst : List Term → List Char
  | [] => [',', ')']
  | t :: ts => further (t :: ts)

theorem selfDelimiting_further : SelfDelimiting further := by
  intro ts us rest rest' h
  induction ts generalizing us with
  | nil =>
    cases us with
    | nil => exact ⟨rfl, (List.cons.inj h).2⟩
    | cons u us => cases (List.cons.inj h).1
  | cons t ts ih =>
    cases us with
    | nil => cases (List.cons.inj h).1
    | cons u us =>
      simp only [further, List.cons_append, List.append_assoc, List.cons.injEq, true_and] at h
      obtain ⟨rfl, hafter⟩ := selfDelimiting_term h
      obtain ⟨rfl, hend⟩ := ih hafter
      exact ⟨rfl, hend⟩

theorem selfDelimiting_afterFirst : SelfDelimiting afterFirst := by
  intro ts us rest rest' h
  -- After the comma stands a blank if there are more terms, and a parenthesis if not.
  cases ts with
  | nil =>
    cases us with
    | nil => exact ⟨rfl, by simpa using h⟩
    | cons u us => simp [afterFirst, further] at h
  | cons t ts =>
    cases us with
    | nil => simp [afterFirst, further] at h
    | cons u us => exact selfDelimiting_further h

theorem toList_intercalate_terms (t : Term) (ts : List Term) :
    (", ".intercalate ((t :: ts).map termText)).toList ++ [')'] = (termText t).toList ++ further ts := by
  induction ts generalizing t with
  | nil => simp [further]
  | cons u us ih =>
    rw [List.map_cons, List.map_cons, String.intercalate_cons_cons, ← List.map_cons, String.toList_append,
      String.toList_append, List.append_assoc, ih]
    simp [further]

theorem toList_termsText_cons (t : Term) (ts : List Term) :
    (termsText (t :: ts)).toList = '(' :: ((termText t).toList ++ afterFirst ts) := by
  cases ts with
  | nil =>
    simp only [termsText, String.toList_append]
    simp [afterFirst]
  | cons u us =>
    have h := toList_intercalate_terms t (u :: us)
    simp only [termsText, String.toList_append, List.append_assoc]
    change '(' :: (_ ++ [')']) = _
    rw [h, afterFirst]

theorem selfDelimiting_terms : SelfDelimiting fun ts => (termsText ts).toList := by
  intro ts us rest rest' h
  have hempty : (termsText []).toList = ['(', ')'] := rfl
  cases ts with
  | nil =>
    cases us with
    | nil => exact ⟨rfl, List.append_cancel_left h⟩
    | cons u us => simp [hempty, toList_termsText_cons, toList_termText] at h
  | cons t ts =>
    cases us with
    | nil => simp [hempty, toList_termsText_cons, toList_termText] at h
    | cons u us =>
      simp only [toList_termsText_cons, List.cons_append, List.append_assoc, List.cons.injEq, true_and] at h
      obtain ⟨rfl, hafter⟩ := selfDelimiting_term h
      obtain ⟨rfl, hend⟩ := selfDelimiting_afterFirst hafter
      exact ⟨rfl, hend⟩

/-! ## Constraints -/

theorem toList_constraintText (k : Constraint) : (constraintText k).toList =
    '(' :: ((termsText k.a).toList ++ ',' :: ' ' :: ((termsText k.b).toList ++ ',' :: ' ' ::
      ((termsText k.c).toList ++ [')']))) := by
  simp only [constraintText, String.toList_append, List.append_assoc]
  rfl

theorem selfDelimiting_constraint : SelfDelimiting fun k => (constraintText k).toList := by
  rintro ⟨a, b, c⟩ ⟨a', b', c'⟩ rest rest' h
  simp only [toList_constraintText, List.cons_append, List.append_assoc, List.cons.injEq, true_and] at h
  obtain ⟨rfl, hafter⟩ := selfDelimiting_terms h
  simp only [List.cons.injEq, true_and] at hafter
  obtain ⟨rfl, hlast⟩ := selfDelimiting_terms hafter
  simp only [List.cons.injEq, true_and] at hlast
  obtain ⟨rfl, hend⟩ := selfDelimiting_terms hlast
  exact ⟨rfl, by simpa using hend⟩

/-! ## Layouts -/

variable {s t : Circuit}

theorem toList_layoutText (s : Circuit) : s.layoutText.toList =
    (toString (s.assignment.size : ℤ)).toList ++ ':' :: ((toString (s.publicCount : ℤ)).toList ++
      ':' :: ((toString (s.constraints.size : ℤ)).toList ++
        s.constraints.toList.flatMap fun k => (constraintText k).toList)) := by
  have hfold (ks : List Constraint) (text : String) :
      (ks.foldl (fun text k => text ++ constraintText k) text).toList =
        text.toList ++ ks.flatMap fun k => (constraintText k).toList := by
    induction ks generalizing text with
    | nil => simp
    | cons k ks ih => rw [List.foldl_cons, ih, String.toList_append, List.flatMap_cons, List.append_assoc]
  rw [layoutText, ← Array.foldl_toList, hfold]
  simp only [String.toList_append, List.append_assoc]
  rfl

/-- The text tells everything that a layout has. -/
theorem layoutText_injective (h : s.layoutText = t.layoutText) :
    s.assignment.size = t.assignment.size ∧ s.publicCount = t.publicCount ∧
      s.constraints = t.constraints := by
  have hconstraints (ks : List Constraint) : EndsNumber (ks.flatMap fun k => (constraintText k).toList) := by
    cases ks with
    | nil => nofun
    | cons k ks =>
      rw [List.flatMap_cons, toList_constraintText]
      exact .cons rfl _
  have hlist := congrArg String.toList h
  rw [toList_layoutText, toList_layoutText] at hlist
  obtain ⟨hsize, hlist⟩ := number_split (.cons rfl _) (.cons rfl _) hlist
  simp only [List.cons.injEq, true_and] at hlist
  obtain ⟨hpublic, hlist⟩ := number_split (.cons rfl _) (.cons rfl _) hlist
  simp only [List.cons.injEq, true_and] at hlist
  obtain ⟨-, hlist⟩ := number_split (hconstraints _) (hconstraints _) hlist
  have hnonempty (k : Constraint) : (constraintText k).toList ≠ [] := by simp [toList_constraintText]
  exact ⟨Int.ofNat_inj.1 hsize, Int.ofNat_inj.1 hpublic,
    Array.toList_inj.1 (selfDelimiting_constraint.flatMap_injective hnonempty hlist)⟩

/-- The bytes that a layout is digested as tell how many variables there are, how many of them are public, and
all constraints, and tell nothing else. So does the digest, unless it collides on the two layouts. -/
theorem shapeDigest_separates (s t : Circuit) :
    (s.layoutText.toUTF8 = t.layoutText.toUTF8 ↔ s.assignment.size = t.assignment.size ∧
      s.publicCount = t.publicCount ∧ s.constraints = t.constraints) ∧
    (Set.InjOn Sha256.hexDigest {s.layoutText.toUTF8, t.layoutText.toUTF8} →
      (s.shapeDigest = t.shapeDigest ↔ s.assignment.size = t.assignment.size ∧
        s.publicCount = t.publicCount ∧ s.constraints = t.constraints)) := by
  have hbytes : s.layoutText.toUTF8 = t.layoutText.toUTF8 ↔ s.assignment.size = t.assignment.size ∧
      s.publicCount = t.publicCount ∧ s.constraints = t.constraints := by
    constructor
    · intro h
      exact layoutText_injective (String.toByteArray_inj.1 h)
    · rintro ⟨hsize, hpublic, hconstraints⟩
      rw [layoutText, layoutText, hsize, hpublic, hconstraints]
  refine ⟨hbytes, fun hinjective => ?_⟩
  rw [← hbytes]
  constructor
  · exact fun h => hinjective (.inl rfl) (.inr rfl) h
  · exact congrArg Sha256.hexDigest

/-- The two circuits have the same lists of terms on the two sides of a product, in another order. -/
theorem shapeDigest_separates_sides : ∃ s t : Circuit,
    s.layoutText = "1:0:1(((0, 1), (2, 5)), ((1, 1),), ())" ∧
    t.layoutText = "1:0:1(((1, 1),), ((0, 1), (2, 5)), ())" ∧
    Set.InjOn Sha256.hexDigest {s.layoutText.toUTF8, t.layoutText.toUTF8} ∧ s.shapeDigest ≠ t.shapeDigest := by
  let s : Circuit := { Circuit.empty none with constraints := #[⟨[(0, 1), (2, 5)], [(1, 1)], []⟩] }
  let t : Circuit := { Circuit.empty none with constraints := #[⟨[(1, 1)], [(0, 1), (2, 5)], []⟩] }
  have hinjective : Set.InjOn Sha256.hexDigest {s.layoutText.toUTF8, t.layoutText.toUTF8} := by
    have hdigests : Sha256.hexDigest s.layoutText.toUTF8 ≠ Sha256.hexDigest t.layoutText.toUTF8 := by
      decide +kernel
    rw [Set.injOn_pair]
    exact fun h => absurd h hdigests
  have hdiffer : s.constraints ≠ t.constraints := by decide
  obtain ⟨-, hdigest⟩ := shapeDigest_separates s t
  exact ⟨s, t, by decide +kernel, by decide +kernel, hinjective, fun h => hdiffer ((hdigest hinjective).1 h).2.2⟩

end Circuit

end FieldLisp
