import FieldLisp.Proofs.Circuit.Consistency
import FieldLisp.Proofs.Circuit.Emission

/-!
# What pins a sign

The distance that the sign gadget checks, and its difference from `half`, both have 63 binary digits.
Their sum is `half` in the field. Two numbers of 63 digits are too small to reach the next number of
that class, so the sum is `half` as a number too, and the distance lies between zero and `half`. The
honest flag is then the only one that is left, with one exception: the distance of zero from the
middle is `half` on either side of it.

* `exists_testBit_eq`, `exists_weighted_eq`: binary digits are worth a number of that many digits;
* `sign_of_ranges`: the flag of an element that is not zero;
* `order_of_signs`: where a difference is not zero, the order that three flags give is that of the
  signed numbers; the flag of an operand that is zero does not matter;
* `Gadget.signs_pinned`: signs and orders under every assignment that satisfies what the gadgets add.
-/

namespace FieldLisp

open FieldLisp.Field (Element)
open EStateM (pure_eq_ok)

namespace Gadget

open Circuit

variable {ω₀ ω : Valuation}

/-! ## Digits under any valuation -/

/-- Binary digits are those of a number. -/
theorem exists_testBit_eq {digits : List Combination} (h : ∀ d ∈ digits, Binary (d.under ω)) :
    ∃ m < 2 ^ digits.length, List.Forall₂ (fun i (d : Combination) =>
      d.under ω = ((if m.testBit i then 1 else 0 : Int) : Element))
      (List.range digits.length) digits := by
  set digit : Fin digits.length → Bool := fun i => decide (digits[i].under ω = 1) with hdigit
  refine ⟨Nat.ofBits digit, Nat.ofBits_lt_two_pow digit, ?_⟩
  rw [List.forall₂_iff_get]
  refine ⟨List.length_range, fun i _ hi => ?_⟩
  simp only [List.get_eq_getElem, List.getElem_range, Nat.testBit_ofBits_lt digit i hi]
  rcases h digits[i] (List.getElem_mem hi) with h | h <;> simp [hdigit, h]

/-- Binary digits are worth a number of that many digits. -/
theorem exists_weighted_eq {digits : List Combination} (h : ∀ d ∈ digits, Binary (d.under ω)) :
    ∃ m < 2 ^ digits.length, (weighted digits).under ω = ((m : ℕ) : Element) := by
  obtain ⟨m, hm, hdigits⟩ := exists_testBit_eq h
  exact ⟨m, hm, under_weighted_testBit hm hdigits⟩

/-- An element that is worth a number of few digits is represented by it. -/
theorem representative_natCast {n m : ℕ} (hn : n ≤ 63) (hm : m < 2 ^ n) :
    Field.representative ((m : ℕ) : Element) = m := by
  have hpower : 2 ^ n ≤ 2 ^ 63 := Nat.pow_le_pow_right (by norm_num) hn
  rw [← Int.cast_natCast, Field.representative_cast, Field.reduce_eq_self]
  simp only [Field.Canonical, Field.order]
  omega

/-- The element that the digits of which are demanded is a number of that many digits. -/
theorem meets_range {x : Combination} (hx : x.Faithful ω₀) (n : ℕ) :
    Meets ω₀ ω (ω = ω₀ ∧ x.value < 2 ^ n) (bits x n) fun _ =>
      ∃ m < 2 ^ n, x.under ω = ((m : ℕ) : Element) := by
  refine (meets_bits hx n).mono id fun digits ⟨hlength, hdigits, hweighted⟩ => ?_
  rw [← hlength, ← hweighted]
  exact exists_weighted_eq fun d hd => (hdigits d hd).2

/-! ## The sign of an element -/

/-- The flag is zero or one; and if the element is not zero, it tells its sign. -/
structure SignLaw (x n : Element) : Prop where
  binary : Binary n
  eq_sign : x ≠ 0 → n = if Field.isNegative (Field.representative x) then 1 else 0

/-- The distance from the middle that a flag gives, and what it is short of `half`, are numbers of 63
digits: the flag tells the sign. -/
theorem sign_of_ranges {x n : Element} (hn : Binary n) {m k : ℕ} (hm : m < 2 ^ 63) (hk : k < 2 ^ 63)
    (hdistance : (Field.half : Element) - x + n * x * 2 - n * (2 * Field.half + 1) = m)
    (hrest : (Field.half : Element) - m = k) : SignLaw x n := by
  obtain ⟨v, hv⟩ : ∃ v, v = Field.representative x := ⟨_, rfl⟩
  have hcast : ((v : Int) : Element) = x := by rw [hv, Field.cast_representative]
  have hcanonical : Field.Canonical v := hv ▸ Field.representative_canonical x
  -- The two numbers make up `half` in the field, and both are too small for any other way.
  have hsum : Field.reduce Field.half = Field.reduce (m + k) := by
    rw [← Field.cast_eq_iff]
    push_cast
    rw [← hrest]
    ring
  have hsum : (m : Int) + k = Field.half := by
    simp only [Field.reduce, Field.half, Field.order] at hsum ⊢
    omega
  refine ⟨hn, fun hx => ?_⟩
  have hne : v ≠ 0 := fun h => hx (by rw [← hcast, h, Int.cast_zero])
  simp only [Field.Canonical, Field.order] at hcanonical
  simp only [Field.half] at hsum
  rw [← hv]
  rcases hn with rfl | rfl
  · have hlow : Field.reduce (Field.half - v) = Field.reduce m := by
      rw [← Field.cast_eq_iff]
      push_cast
      rw [hcast, ← hdistance]
      ring
    simp only [Field.reduce, Field.half, Field.order] at hlow
    rw [if_neg]
    rw [Field.isNegative_iff]
    omega
  · have hhigh : Field.reduce (v - Field.half - 1) = Field.reduce m := by
      rw [← Field.cast_eq_iff]
      push_cast
      rw [hcast, ← hdistance]
      ring
    simp only [Field.reduce, Field.half, Field.order] at hhigh
    rw [if_pos]
    rw [Field.isNegative_iff]
    omega

/-- Nothing is said about honesty here: a flag that the law admits for zero need not be the honest
one. -/
theorem meets_sign {x : Combination} (hx : x.Faithful ω₀) :
    Meets ω₀ ω False (isNegative x) fun n =>
      n.Faithful ω₀ ∧ SignLaw (x.under ω) (n.under ω) := by
  refine ((meets_allocBit _).mono False.elim fun _ => id).bind (grows_allocBit _)
    (fun _ => (grows_mul _ _).bind fun _ => (grows_bits _ _).bind fun _ =>
      (grows_bits _ _).bind fun _ => .pure _) fun n hn => ?_
  refine ((meets_mul hn.faithful hx).mono False.elim fun _ => id).bind (grows_mul _ _)
    (fun _ => (grows_bits _ _).bind fun _ => (grows_bits _ _).bind fun _ => .pure _)
    fun nx ⟨hnx, _, hproduct⟩ => ?_
  dsimp only
  set half : Combination := .constant Field.half with hhalf
  set r : Combination := half - x + nx * (2 : Int) - n * (2 * Field.half + 1) with hr
  have faithful_half : half.Faithful ω₀ := .constant _
  have faithful_r : r.Faithful ω₀ :=
    ((faithful_half.sub hx).add (hnx.scale _)).sub (hn.faithful.scale _)
  refine ((meets_range faithful_r _).mono False.elim fun _ => id).bind (grows_bits _ _)
    (fun _ => (grows_bits _ _).bind fun _ => .pure _) fun _ ⟨m, hm, hdistance⟩ => ?_
  refine ((meets_range (faithful_half.sub faithful_r) _).mono False.elim fun _ => id).bind
    (grows_bits _ _) (fun _ => .pure _) fun _ ⟨k, hk, hrest⟩ => .pure ⟨hn.faithful, ?_⟩
  refine sign_of_ranges hn.binary hm hk ?_ ?_
  · rw [← hdistance, hr, Combination.under_sub, Combination.under_add, Combination.under_sub,
      Combination.under_scale, Combination.under_scale, hproduct, hhalf, Combination.under_constant]
    push_cast
    ring
  · rw [← hrest, Combination.under_sub, hdistance, hhalf, Combination.under_constant]

/-! ## The order of two elements -/

/-- An element that is not zero and its negative lie in different halves. -/
theorem isNegative_neg {v : Int} (hv : Field.Canonical v) (hne : v ≠ 0) :
    Field.isNegative (Field.reduce (0 - v)) = !Field.isNegative v := by
  have hneg : Field.reduce (0 - v) = Field.order - v := by
    simp only [Field.Canonical, Field.order] at hv
    unfold Field.reduce Field.order
    omega
  simp only [Field.Canonical, Field.order] at hv
  rw [hneg, Bool.eq_iff_iff, Bool.not_eq_true', ← Bool.not_eq_true, Field.isNegative_iff,
    Field.isNegative_iff, Field.order]
  omega

/-- The choice between the sign of the difference and that of the first operand, by whether the
signs are the same. If an operand is zero, its flag may be wrong, but then the choice falls on what
is right in either case. -/
theorem order_of_signs {a b na nb nd : Element} (ha : SignLaw a na) (hb : SignLaw b nb)
    (hd : SignLaw (a - b) nd) (hne : a ≠ b) :
    na + (1 - na - nb + na * nb * 2) * (nd - na) =
      if Field.toSigned (Field.representative a) < Field.toSigned (Field.representative b)
        then 1 else 0 := by
  obtain ⟨u, hu⟩ : ∃ u, u = Field.representative a := ⟨_, rfl⟩
  obtain ⟨v, hv⟩ : ∃ v, v = Field.representative b := ⟨_, rfl⟩
  have hua : ((u : Int) : Element) = a := by rw [hu, Field.cast_representative]
  have hvb : ((v : Int) : Element) = b := by rw [hv, Field.cast_representative]
  have hu_canonical : Field.Canonical u := hu ▸ Field.representative_canonical a
  have hv_canonical : Field.Canonical v := hv ▸ Field.representative_canonical b
  have hdifference : nd = if Field.isNegative (Field.reduce (u - v)) then 1 else 0 := by
    rw [hd.eq_sign (sub_ne_zero.2 hne), ← Field.representative_cast, Int.cast_sub, hua, hvb]
  rw [← hu, ← hv]
  simp only [toSigned_lt_iff hu_canonical hv_canonical]
  by_cases ha0 : a = 0
  · have hu0 : u = 0 := (Field.cast_eq_zero hu_canonical).1 (hua.trans ha0)
    have hb0 : b ≠ 0 := fun h => hne (ha0.trans h.symm)
    have hv0 : v ≠ 0 := fun h => hb0 (by rw [← hvb, h, Int.cast_zero])
    have hsign := hb.eq_sign hb0
    rw [← hv] at hsign
    rw [hu0, isNegative_neg hv_canonical hv0] at hdifference
    have hzero : Field.isNegative 0 = false := rfl
    rw [hu0, isNegative_neg hv_canonical hv0, hzero, hdifference, hsign]
    rcases ha.binary with rfl | rfl <;> cases Field.isNegative v <;> norm_num
  · have hsign := ha.eq_sign ha0
    rw [← hu] at hsign
    rw [hdifference, hsign]
    by_cases hb0 : b = 0
    · have hv0 : v = 0 := (Field.cast_eq_zero hv_canonical).1 (hvb.trans hb0)
      have hzero : Field.isNegative 0 = false := rfl
      rw [hv0, sub_zero, Field.reduce_eq_self hu_canonical, hzero]
      rcases hb.binary with rfl | rfl <;> cases Field.isNegative u <;> norm_num
    · have hsign' := hb.eq_sign hb0
      rw [← hv] at hsign'
      rw [hsign']
      cases Field.isNegative u <;> cases Field.isNegative v <;>
        cases Field.isNegative (Field.reduce (u - v)) <;> norm_num

/-- The flag is zero or one; and if the elements differ, it tells which one is less. -/
structure OrderLaw (a b flag : Element) : Prop where
  binary : Binary flag
  eq_order : a ≠ b → flag =
    if Field.toSigned (Field.representative a) < Field.toSigned (Field.representative b)
      then 1 else 0

theorem meets_order {a b : Combination} (ha : a.Faithful ω₀) (hb : b.Faithful ω₀) :
    Meets ω₀ ω False (less a b) fun flag =>
      OrderLaw (a.under ω) (b.under ω) (flag.under ω) := by
  refine (meets_sign ha).bind (grows_isNegative _) (fun _ => (grows_isNegative _).bind
    fun _ => (grows_isNegative _).bind fun _ => (grows_mul _ _).bind fun _ => grows_select _ _ _)
    fun na hna => ?_
  refine (meets_sign hb).bind (grows_isNegative _) (fun _ => (grows_isNegative _).bind
    fun _ => (grows_mul _ _).bind fun _ => grows_select _ _ _) fun nb hnb => ?_
  refine (meets_sign (ha.sub hb)).bind (grows_isNegative _) (fun _ =>
    (grows_mul _ _).bind fun _ => grows_select _ _ _) fun nd hnd => ?_
  refine ((meets_mul hna.1 hnb.1).mono False.elim fun _ => id).bind (grows_mul _ _)
    (fun _ => grows_select _ _ _) fun both ⟨hboth, _, hproduct⟩ => ?_
  dsimp only
  set same : Combination := 1 - na - nb + both * (2 : Int) with hsame
  have faithful_same : same.Faithful ω₀ :=
    ((Combination.Faithful.one.sub hna.1).sub hnb.1).add (hboth.scale _)
  refine (meets_select faithful_same hnd.1 hna.1).mono False.elim fun flag ⟨_, hflag⟩ => ?_
  have hsigns : flag.under ω = na.under ω +
      (1 - na.under ω - nb.under ω + na.under ω * nb.under ω * 2) * (nd.under ω - na.under ω) := by
    rw [hflag, hsame, Combination.under_add, Combination.under_sub, Combination.under_sub,
      Combination.under_scale, hproduct, Combination.under_one]
    push_cast
    ring
  rw [Combination.under_sub] at hnd
  constructor
  · rw [hsigns]
    rcases hna.2.binary with h | h <;> rcases hnb.2.binary with h' | h' <;>
      rcases hnd.2.binary with h'' | h'' <;> rw [h, h', h''] <;> norm_num [Binary]
  · intro hne
    rw [hsigns]
    exact order_of_signs hna.2 hnb.2 hnd.2 hne

/-! ## Every assignment -/

/-- A combination of variables that exist, with the value that they give it. -/
structure Stands (s : Circuit) (x : Combination) : Prop where
  inScope : x.InScope s.assignment.size
  value_eq : x.value = Combination.evalTerms s.assignment x.terms

theorem Stands.faithful {s : Circuit} {x : Combination} (hx : Stands s x) (hfits : s.Fits ω) :
    x.Faithful ω := by
  constructor
  · rw [hx.value_eq]
    exact Field.reduce_canonical _
  · rw [hx.value_eq, Combination.cast_evalTerms, Combination.under, Combination.weigh,
      Combination.weigh]
    congr 1
    apply List.map_congr_left
    intro term hterm
    have hlt : term.1 < s.assignment.size := (hx.inScope term hterm).1
    rw [hfits term.1 s.assignment[term.1] (by simp [hlt]), Array.getD_eq_getD_getElem?,
      Array.getElem?_eq_getElem hlt, Option.getD_some]

/-- What a gadget promises, of every assignment that satisfies the constraints that it has added:
the circuit's own assignment is the honest valuation, and the limit does not matter. -/
theorem of_assignment (post : Valuation → α → Prop) {x : CircuitM α}
    {good : ℕ → α → Prop} {s t : Circuit} {c : α} {w : Array Int}
    (hyields : Yields s.assignment.size x good) (hemits : Emits x) (hgrows : Grows x)
    (hmeets : ∀ ω₀ ω, s.Fits ω₀ → Meets ω₀ ω False x (post ω))
    (hs : s.assignment.getD Combination.one 0 = 1) (hw : w.getD Combination.one 0 = 1)
    (hrun : x s = .ok c t)
    (hadded : ∀ k ∈ t.constraints.toList.drop s.constraints.size, holds w k = true) :
    post (.ofAssignment w) c := by
  obtain ⟨hfree, -, -⟩ := hyields s c t le_rfl hrun
  have hextends : Extends s.unlimited t.unlimited := hgrows.extends_of_ok rfl hfree
  have hone : t.assignment.toList[Combination.one]? = some 1 := by
    have hone := getElem?_of_getD hs
    obtain ⟨hlt, heq⟩ := List.getElem?_eq_some_iff.1 hone
    rw [← heq]
    exact List.prefix_iff_getElem?.1 hextends.assignment Combination.one hlt
  have hfits : t.unlimited.Fits (.ofAssignment t.assignment) := by
    apply fits_ofAssignment
    change t.assignment.getD Combination.one 0 = 1
    rw [Array.getD_eq_getD_getElem?, ← Array.getElem?_toList]
    exact congrArg (Option.getD · 0) hone
  refine ((hmeets _ _ (hextends.fits hfits)).of_emitted hemits hfree hfits).2 fun k hk => ?_
  exact (holds_iff hw k).1 (hadded k hk)

/-- Under every assignment that satisfies the constraints that the sign gadget has added, its flag is
zero or one, and tells the sign of the element unless that is zero. Likewise the flag of the order
gadget tells which element is less as a signed number, unless they are equal. -/
theorem signs_pinned {s : Circuit} {w : Array Int} (hs : s.assignment.getD Combination.one 0 = 1)
    (hw : w.getD Combination.one 0 = 1) :
    (∀ x n t, Stands s x → isNegative x s = .ok n t →
      (∀ k ∈ t.constraints.toList.drop s.constraints.size, holds w k = true) →
      (Combination.evalTerms w n.terms = 0 ∨ Combination.evalTerms w n.terms = 1) ∧
      (Combination.evalTerms w x.terms ≠ 0 → Combination.evalTerms w n.terms =
        if Field.half < Combination.evalTerms w x.terms then 1 else 0)) ∧
    (∀ a b flag t, Stands s a → Stands s b → less a b s = .ok flag t →
      (∀ k ∈ t.constraints.toList.drop s.constraints.size, holds w k = true) →
      (Combination.evalTerms w flag.terms = 0 ∨ Combination.evalTerms w flag.terms = 1) ∧
      (Combination.evalTerms w a.terms ≠ Combination.evalTerms w b.terms →
        Combination.evalTerms w flag.terms =
          if Field.toSigned (Combination.evalTerms w a.terms) <
            Field.toSigned (Combination.evalTerms w b.terms) then 1 else 0)) := by
  have canonical (x : Combination) : Field.Canonical (Combination.evalTerms w x.terms) :=
    Field.reduce_canonical _
  have under_eq (x : Combination) :
      x.under (.ofAssignment w) = (Combination.evalTerms w x.terms : Element) :=
    (Combination.cast_evalTerms_ofAssignment hw x.terms).symm
  have representative_eq (x : Combination) :
      Field.representative (x.under (.ofAssignment w)) = Combination.evalTerms w x.terms := by
    rw [under_eq, Field.representative_cast, Field.reduce_eq_self (canonical x)]
  have value_eq {x : Combination} {v : Int} (hv : Field.Canonical v)
      (h : x.under (.ofAssignment w) = v) : Combination.evalTerms w x.terms = v :=
    (Field.cast_inj (canonical x) hv).1 ((under_eq x).symm.trans h)
  have binary {x : Combination} (h : Binary (x.under (.ofAssignment w))) :
      Combination.evalTerms w x.terms = 0 ∨ Combination.evalTerms w x.terms = 1 :=
    h.imp (fun h => value_eq Field.canonical_zero (by rw [h, Int.cast_zero]))
      fun h => value_eq Field.canonical_one (by rw [h, Int.cast_one])
  constructor
  · intro x n t hx hrun hadded
    have hlaw := of_assignment (fun ω n => SignLaw (x.under ω) (n.under ω))
      (yields_isNegative hx.inScope) (emits_isNegative x) (grows_isNegative x)
      (fun ω₀ ω hfits => (meets_sign (hx.faithful hfits)).mono id fun _ => And.right)
      hs hw hrun hadded
    refine ⟨binary hlaw.binary, fun hne => value_eq (by split <;> decide) ?_⟩
    rw [hlaw.eq_sign fun h => hne (value_eq Field.canonical_zero (by rw [h, Int.cast_zero])),
      representative_eq]
    simp only [Field.isNegative, decide_eq_true_eq]
    split <;> simp
  · intro a b flag t ha hb hrun hadded
    have hsize : 0 < s.assignment.size := (List.getElem?_eq_some_iff.1 (getElem?_of_getD hs)).1
    have hlaw := of_assignment (fun ω flag => OrderLaw (a.under ω) (b.under ω) (flag.under ω))
      (yields_less hsize ha.inScope hb.inScope) (emits_less a b) (grows_less a b)
      (fun ω₀ ω hfits => meets_order (ha.faithful hfits) (hb.faithful hfits)) hs hw hrun hadded
    refine ⟨binary hlaw.binary, fun hne => value_eq (by split <;> decide) ?_⟩
    rw [hlaw.eq_order fun h => hne (value_eq (canonical b) (h.trans (under_eq b))),
      representative_eq, representative_eq]
    split <;> simp

/-- Zero has either sign: its flag may be overwritten. -/
example :
    (match isNegative (.ofVariable 1 0) { Circuit.empty none with assignment := #[1, 0] } with
      | .ok n t =>
        let w := t.assignment.set! 2 1
        t.constraints.all (holds w) && Combination.evalTerms w n.terms == 1
      | .error _ _ => false) = true := by
  decide +kernel

/-- What honest operations have given stands for what it carries, and the constraints hold. -/
theorem stands_of_obtains {limit : Option Int} {operations : List Operation} {s : Circuit}
    {known : List Combination} (h : Obtains limit operations s known) :
    s.assignment.getD Combination.one 0 = 1 ∧ (∀ x ∈ known, Stands s x) ∧
      ∀ k ∈ s.constraints.toList, holds s.assignment k = true := by
  have hs := h.consistent
  have hone : s.assignment.getD Combination.one 0 = 1 := by
    rw [Array.getD_eq_getD_getElem?, ← Array.getElem?_toList, hs.one]
    rfl
  have hfits := fits_ofAssignment hone
  refine ⟨hone, fun x hx => ⟨hs.inScope x hx, ?_⟩,
    fun k hk => (holds_iff hone k).2 (hs.satisfied _ hfits k hk)⟩
  refine (hs.faithful _ hfits x hx).value_eq (Field.reduce_canonical _) ?_
  rw [Combination.cast_evalTerms_ofAssignment hone]
  rfl

/-- Minus three is negative, and less than zero. -/
theorem signs_pinned_minusThree : ∃ (s t u : Circuit) (x y n flag : Combination),
    Stands s x ∧ Stands s y ∧ isNegative x s = .ok n t ∧ less x y s = .ok flag u ∧
    (∀ k ∈ t.constraints.toList.drop s.constraints.size, holds t.assignment k = true) ∧
    (∀ k ∈ u.constraints.toList.drop s.constraints.size, holds u.assignment k = true) ∧
    Combination.evalTerms t.assignment x.terms = Field.order - 3 ∧
    Combination.evalTerms t.assignment n.terms = 1 ∧
    Combination.evalTerms u.assignment x.terms = Field.order - 3 ∧
    Combination.evalTerms u.assignment y.terms = 0 ∧
    Combination.evalTerms u.assignment flag.terms = 1 := by
  let x : Combination := .ofVariable 1 (Field.order - 3)
  let y : Combination := .ofVariable 2 0
  -- Both gadgets are used honestly, in a circuit that has the two numbers as variables.
  obtain ⟨s, hlimit, hobtains⟩ : ∃ s, s.limit = none ∧
      Obtains none [.alloc (-3), .alloc 0] s [x, y] := by
    have first : Obtains none [.alloc (-3)] _ [x] :=
      .next .fresh (fun _ h => by cases h) trivial rfl
    exact ⟨_, rfl, first.next (fun _ h => by cases h) trivial rfl⟩
  obtain ⟨n, t, hsign, -⟩ := grows_isNegative x s hlimit
  obtain ⟨flag, u, horder, -⟩ := grows_less x y s hlimit
  have hobtains_sign :
      Obtains none [.alloc (-3), .alloc 0, .isNegative (.combination x)] t [x, y, n] :=
    hobtains.next (by simp [Operation.operands]) trivial (EStateM.bind_eq_ok.2 ⟨n, t, hsign, rfl⟩)
  have hobtains_order : Obtains none [.alloc (-3), .alloc 0, .less (.combination x) (.combination y)]
      u [x, y, flag] :=
    hobtains.next (by simp [Operation.operands]) trivial
      (EStateM.bind_eq_ok.2 ⟨flag, u, horder, rfl⟩)
  obtain ⟨hs, hstands, -⟩ := stands_of_obtains hobtains
  obtain ⟨ht, hstands_sign, hholds⟩ := stands_of_obtains hobtains_sign
  obtain ⟨hu, hstands_order, hholds'⟩ := stands_of_obtains hobtains_order
  have hadded (k) (hk : k ∈ t.constraints.toList.drop s.constraints.size) :
      holds t.assignment k = true := hholds k (List.mem_of_mem_drop hk)
  have hadded' (k) (hk : k ∈ u.constraints.toList.drop s.constraints.size) :
      holds u.assignment k = true := hholds' k (List.mem_of_mem_drop hk)
  have hx : Combination.evalTerms t.assignment x.terms = Field.order - 3 :=
    (hstands_sign x (by simp)).value_eq.symm
  have hx' : Combination.evalTerms u.assignment x.terms = Field.order - 3 :=
    (hstands_order x (by simp)).value_eq.symm
  have hy' : Combination.evalTerms u.assignment y.terms = 0 :=
    (hstands_order y (by simp)).value_eq.symm
  have hsign_law := ((signs_pinned hs ht).1 x n t (hstands x (by simp)) hsign hadded).2
    (by rw [hx]; decide)
  have horder_law := ((signs_pinned hs hu).2 x y flag u (hstands x (by simp)) (hstands y (by simp))
    horder hadded').2 (by rw [hx', hy']; decide)
  rw [hx] at hsign_law
  rw [hx', hy'] at horder_law
  exact ⟨s, t, u, x, y, n, flag, hstands x (by simp), hstands y (by simp), hsign, horder, hadded,
    hadded', hx, hsign_law, hx', hy', horder_law⟩

end Gadget

end FieldLisp
