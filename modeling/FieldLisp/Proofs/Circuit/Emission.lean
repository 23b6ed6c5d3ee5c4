import FieldLisp.Proofs.Circuit.Satisfaction

/-!
# The constraints that an operation adds

A gadget may be used in any circuit, so its law is one about the constraints that it adds, whatever
stands before them. An operation never looks at the constraints that are there; it could as well run
on a circuit without any. If it succeeds within a limit, it does the same without one.

* `Emits`: an operation adds the same constraints behind whatever constraints there are;
* `Emits.bind`, `Emits.mapM`, `Emits.foldlM`: so do operations that are composed of such;
* `Emits.fits`, `Emits.one`: what fits a circuit after an operation fits it before, and variables keep their values;
* `Meets.of_emitted`: a promise holds wherever the added constraints hold.
-/

namespace FieldLisp

open EStateM (bind_eq_ok pure_eq_ok)

theorem getElem?_of_getD {assignment : Array Int} {i : ℕ} (h : assignment.getD i 0 = 1) :
    assignment.toList[i]? = some 1 := by
  rw [Array.getElem?_toList]
  rw [Array.getD_eq_getD_getElem?] at h
  cases hi : assignment[i]? with
  | none =>
    rw [hi] at h
    cases h
  | some v =>
    rw [hi] at h
    rw [← h, Option.getD_some]

namespace Circuit

/-- The circuit with other constraints, and without a limit for them. -/
def withConstraints (s : Circuit) (constraints : Array Constraint) : Circuit :=
  { s with constraints, limit := none }

/-- The constraints that have come to a circuit since it was `s`. -/
def since (s t : Circuit) : List Constraint := t.constraints.toList.drop s.constraints.size

/-- If the operation succeeds it adds constraints, and without a limit it adds the same ones and has the same
result, whatever constraints are there. -/
def Emits (x : CircuitM α) : Prop :=
  ∀ s a t, x s = .ok a t → ∃ emitted, t.constraints = s.constraints ++ emitted ∧
    ∀ before, x (s.withConstraints before) = .ok a (t.withConstraints (before ++ emitted))

namespace Emits
variable {x : CircuitM α}

theorem pure (a : α) : Emits (Pure.pure a : CircuitM α) := by
  intro s b t h
  obtain ⟨rfl, rfl⟩ := pure_eq_ok.1 h
  refine ⟨#[], Array.append_empty.symm, fun before => ?_⟩
  rw [Array.append_empty]
  rfl

theorem bind {f : α → CircuitM β} (hx : Emits x) (hf : ∀ a, Emits (f a)) : Emits (x >>= f) := by
  intro s b u h
  obtain ⟨a, t, hxs, hft⟩ := bind_eq_ok.1 h
  obtain ⟨first, hfirst, hx⟩ := hx s a t hxs
  obtain ⟨second, hsecond, hf⟩ := hf a t b u hft
  refine ⟨first ++ second, by rw [hsecond, hfirst, Array.append_assoc], fun before => ?_⟩
  rw [← Array.append_assoc]
  exact bind_eq_ok.2 ⟨a, _, hx before, hf (before ++ first)⟩

theorem mapM {f : α → CircuitM β} (hf : ∀ a, Emits (f a)) (xs : List α) : Emits (xs.mapM f) := by
  induction xs with
  | nil => exact .pure []
  | cons x xs ih =>
    rw [List.mapM_cons]
    exact (hf x).bind fun _ => ih.bind fun _ => .pure _

theorem foldlM {f : β → α → CircuitM β} (hf : ∀ b a, Emits (f b a)) (b : β) (xs : List α) : Emits (xs.foldlM f b) := by
  induction xs generalizing b with
  | nil => exact .pure b
  | cons x xs ih => exact (hf b x).bind fun c => ih c

theorem vectorMapM {α β : Type} {n : ℕ} {f : α → CircuitM β} (hf : ∀ a, Emits (f a)) (xs : Vector α n) :
    Emits (xs.mapM f) := by
  intro s ys t h
  obtain ⟨emitted, hemitted, hanywhere⟩ := mapM hf xs.toList s ys.toList t (EStateM.toList_mapM_eq_ok h)
  exact ⟨emitted, hemitted, fun before => EStateM.toList_mapM_eq_ok_iff.1 (hanywhere before)⟩

/-- What an operation does to the assignment does not depend on a limit either. -/
theorem assignment (hx : Emits x) (hgrows : Grows x) {s t : Circuit} {a : α} (h : x s = .ok a t) :
    s.assignment.toList <+: t.assignment.toList := by
  obtain ⟨_, -, hanywhere⟩ := hx s a t h
  exact (hgrows.extends_of_ok rfl (hanywhere #[])).assignment

theorem fits {ω : Valuation} (hx : Emits x) (hgrows : Grows x) {s t : Circuit} {a : α} (h : x s = .ok a t)
    (ht : t.Fits ω) : s.Fits ω := by
  obtain ⟨_, -, hanywhere⟩ := hx s a t h
  exact (hgrows.extends_of_ok rfl (hanywhere #[])).fits ht

/-- The variable that stands for one keeps its value. -/
theorem one (hx : Emits x) (hgrows : Grows x) {s t : Circuit} {a : α} (h : x s = .ok a t)
    (hs : s.assignment.getD Combination.one 0 = 1) : t.assignment.getD Combination.one 0 = 1 := by
  have hone := getElem?_of_getD hs
  obtain ⟨hlt, heq⟩ := List.getElem?_eq_some_iff.1 hone
  have hkept := List.prefix_iff_getElem?.1 (hx.assignment hgrows h) Combination.one hlt
  rw [Array.getD_eq_getD_getElem?, ← Array.getElem?_toList, hkept, heq]
  rfl

end Emits

theorem emits_alloc (v : Int) : Emits (alloc v) := by
  intro s c t h
  cases h
  refine ⟨#[], Array.append_empty.symm, fun before => ?_⟩
  rw [Array.append_empty]
  rfl

/-- A limit decides whether a constraint is added, but not what it is. -/
theorem enforce_eq_ok {a b c : Combination} {s t : Circuit} {u : Unit}
    (h : enforce a b c s = .ok u t) : t = { s with
      constraints := s.constraints.push ⟨a.terms, b.terms, c.terms⟩
      labels := s.labels.push s.label } := by
  unfold enforce checkRoom at h
  split at h
  · cases h
  · rename_i hroom
    split at hroom
    · cases hroom
    · cases hroom
      cases h
      rfl

theorem emits_enforce (a b c : Combination) : Emits (enforce a b c) := by
  intro s u t h
  obtain rfl := enforce_eq_ok h
  refine ⟨#[⟨a.terms, b.terms, c.terms⟩], rfl, fun before => ?_⟩
  exact enforce_eq (s := s.withConstraints before) rfl a b c

theorem emits_mul (a b : Combination) : Emits (mul a b) := by
  unfold mul
  split
  · exact .pure _
  · split
    · exact .pure _
    · exact (emits_alloc _).bind fun _ => (emits_enforce _ _ _).bind fun _ => .pure _

/-- In a circuit whose added constraints hold the result of the operation has the property, also if
the constraints from before do not hold. If the operation is used honestly, they do. -/
theorem Meets.of_emitted {ω₀ ω : Valuation} {honest : Prop} {x : CircuitM α} {post : α → Prop}
    (hx : Meets ω₀ ω honest x post) (emits : Emits x) {s t : Circuit} {a : α} (hrun : x s = .ok a t)
    (hfits : t.Fits ω₀) :
    (honest → ∀ k ∈ since s t, k.Holds ω) ∧ ((∀ k ∈ since s t, k.Holds ω) → post a) := by
  obtain ⟨emitted, hconstraints, hanywhere⟩ := emits s a t hrun
  have hsince_eq : since s t = emitted.toList := by
    rw [since, hconstraints, Array.toList_append, ← Array.length_toList, List.drop_left]
  have hsatisfied : (t.withConstraints (#[] ++ emitted)).Satisfied ω ↔ ∀ k ∈ since s t, k.Holds ω := by
    rw [hsince_eq, withConstraints, Array.empty_append]
    exact Iff.rfl
  rw [← hsatisfied]
  obtain ⟨hkeep, hpost⟩ := hx (s.withConstraints #[]) a _ rfl (hanywhere #[]) hfits
  exact ⟨fun honest => hkeep honest fun k hk => absurd hk List.not_mem_nil, hpost⟩

end Circuit

namespace Gadget

open Circuit

theorem emits_allocBit (value : Bool) : Emits (allocBit value) :=
  (emits_alloc _).bind fun _ => (emits_enforce _ _ _).bind fun _ => .pure _

theorem emits_select (flag x y : Combination) : Emits (select flag x y) := by
  unfold select
  dsimp only
  split
  · exact .pure _
  · exact (emits_alloc _).bind fun _ => (emits_enforce _ _ _).bind fun _ => .pure _

theorem emits_bits (x : Combination) (n : ℕ) : Emits (bits x n) :=
  (Emits.mapM (fun _ => emits_allocBit _) _).bind fun _ =>
    (emits_enforce _ _ _).bind fun _ => .pure _

theorem emits_isNegative (x : Combination) : Emits (isNegative x) :=
  (emits_allocBit _).bind fun _ => (emits_mul _ _).bind fun _ => (emits_bits _ _).bind fun _ =>
    (emits_bits _ _).bind fun _ => .pure _

theorem emits_divRem (c a b : Combination) (n : ℕ) : Emits (divRem c a b n) :=
  (emits_alloc _).bind fun _ => (emits_alloc _).bind fun _ => (emits_bits _ _).bind fun _ =>
    (emits_bits _ _).bind fun _ => (emits_mul _ _).bind fun _ => (emits_bits _ _).bind fun _ =>
      (emits_mul _ _).bind fun _ => (emits_enforce _ _ _).bind fun _ => .pure _

theorem emits_less (a b : Combination) : Emits (less a b) :=
  (emits_isNegative _).bind fun _ => (emits_isNegative _).bind fun _ =>
    (emits_isNegative _).bind fun _ => (emits_mul _ _).bind fun _ => emits_select _ _ _

theorem emits_sbox (x : Combination) : Emits (sbox x) :=
  (emits_alloc _).bind fun _ => (emits_enforce _ _ _).bind fun _ => (emits_mul _ _).bind fun _ =>
    (emits_mul _ _).bind fun _ => (emits_mul _ _).bind fun _ => emits_mul _ _

theorem emits_permute (input : Permutation.Lanes Combination) : Emits (permute input) := by
  have full (state : Permutation.Lanes Combination) (round : ℕ) : Emits (fullRound state round) :=
    (Emits.vectorMapM emits_sbox _).bind fun _ => .pure _
  have part (state : Permutation.Lanes Combination) (round : ℕ) : Emits (partialRound state round) :=
    (emits_sbox _).bind fun _ => .pure _
  exact (Emits.foldlM full _ _).bind fun _ => (Emits.foldlM part _ _).bind fun _ => .foldlM full _ _

theorem emits_sponge (elements : List Combination) : Emits (sponge elements) :=
  .foldlM (fun _ _ => (emits_permute _).bind fun _ => .pure _) _ _

end Gadget

end FieldLisp
