import FieldLisp.Circuit.Gadget
import FieldLisp.Circuit.Sponge
import FieldLisp.Proofs.Runs

/-!
# Circuits only grow

An operation adds variables, constraints and labels behind those that are there:

* `Extends`: one circuit is what has become of another;
* `Grows`: an operation that, without a limit, succeeds and extends the circuit;
* `grows_sponge`, `grows_less`, `grows_divRem`: every gadget grows.

A valuation that satisfies a circuit therefore satisfies each circuit on the way to it.
-/

namespace FieldLisp.Circuit

open EStateM (bind_eq_ok bind_of_ok pure_eq_ok)

/-- The second circuit is what has become of the first. -/
structure Extends (s t : Circuit) : Prop where
  limit : t.limit = s.limit
  publicCount : t.publicCount = s.publicCount
  scopes : t.scopes = s.scopes
  assignment : s.assignment.toList <+: t.assignment.toList
  constraints : s.constraints.toList <+: t.constraints.toList
  labels : s.labels.toList <+: t.labels.toList
  /-- Every constraint has a label. -/
  labelled : s.labels.size = s.constraints.size → t.labels.size = t.constraints.size
  /-- Every variable has a canonical value. -/
  canonical : (∀ x ∈ s.assignment, Field.Canonical x) → ∀ x ∈ t.assignment, Field.Canonical x

namespace Extends
variable {s t u : Circuit}

theorem refl (s : Circuit) : Extends s s :=
  ⟨rfl, rfl, rfl, List.prefix_rfl, List.prefix_rfl, List.prefix_rfl, id, id⟩

theorem trans (h : Extends s t) (h' : Extends t u) : Extends s u where
  limit := h'.limit.trans h.limit
  publicCount := h'.publicCount.trans h.publicCount
  scopes := h'.scopes.trans h.scopes
  assignment := h.assignment.trans h'.assignment
  constraints := h.constraints.trans h'.constraints
  labels := h.labels.trans h'.labels
  labelled := h'.labelled ∘ h.labelled
  canonical := h'.canonical ∘ h.canonical

end Extends

/-- Without a limit, the operation succeeds and extends the circuit. -/
def Grows (x : CircuitM α) : Prop :=
  ∀ s, s.limit = none → ∃ a t, x s = .ok a t ∧ Extends s t

namespace Grows

theorem extends_of_ok {x : CircuitM α} (h : Grows x) {s t : Circuit} {a : α}
    (hs : s.limit = none) (hx : x s = .ok a t) : Extends s t := by
  obtain ⟨a', t', hx', hext⟩ := h s hs
  rw [hx] at hx'
  cases hx'
  exact hext

theorem limit_of_ok {x : CircuitM α} (h : Grows x) {s t : Circuit} {a : α}
    (hs : s.limit = none) (hx : x s = .ok a t) : t.limit = none :=
  (h.extends_of_ok hs hx).limit.trans hs

theorem pure (a : α) : Grows (Pure.pure a : CircuitM α) :=
  fun s _ => ⟨a, s, rfl, .refl s⟩

theorem bind {x : CircuitM α} {f : α → CircuitM β} (hx : Grows x) (hf : ∀ a, Grows (f a)) :
    Grows (x >>= f) := by
  intro s hs
  obtain ⟨a, t, hxs, hst⟩ := hx s hs
  obtain ⟨b, u, hft, htu⟩ := hf a t (hst.limit.trans hs)
  exact ⟨b, u, bind_eq_ok.2 ⟨a, t, hxs, hft⟩, hst.trans htu⟩

theorem mapM {f : α → CircuitM β} (hf : ∀ a, Grows (f a)) (xs : List α) : Grows (xs.mapM f) := by
  induction xs with
  | nil => exact .pure []
  | cons x xs ih =>
    rw [List.mapM_cons]
    exact (hf x).bind fun _ => ih.bind fun _ => .pure _

theorem forM {f : α → CircuitM Unit} (hf : ∀ a, Grows (f a)) (xs : List α) :
    Grows (xs.forM f) := by
  induction xs with
  | nil => exact .pure ()
  | cons x xs ih => exact (hf x).bind fun _ => ih

theorem foldlM {f : β → α → CircuitM β} (hf : ∀ b a, Grows (f b a)) (b : β) (xs : List α) :
    Grows (xs.foldlM f b) := by
  induction xs generalizing b with
  | nil => exact .pure b
  | cons x xs ih => exact (hf b x).bind fun c => ih c

theorem vectorMapM {α β : Type} {n : ℕ} {f : α → CircuitM β} (hf : ∀ a, Grows (f a)) (xs : Vector α n) :
    Grows (xs.mapM f) := by
  intro s hs
  obtain ⟨ys, t, hys, h⟩ := mapM hf xs.toList s hs
  rw [← EStateM.toList_mapM, EStateM.map_eq_ok] at hys
  obtain ⟨zs, hzs, -⟩ := hys
  exact ⟨zs, t, hzs, h⟩

end Grows

/-! ## Variables and constraints -/

theorem grows_alloc (v : Int) : Grows (alloc v) := by
  intro s _
  refine ⟨_, _, rfl, ⟨rfl, rfl, rfl, ?_, List.prefix_rfl, List.prefix_rfl, id, fun h x hx => ?_⟩⟩
  · rw [Array.toList_push]
    exact List.prefix_append _ _
  · rcases Array.mem_push.1 hx with hx | rfl
    · exact h x hx
    · exact Field.reduce_canonical v

theorem enforce_eq {s : Circuit} (hs : s.limit = none) (a b c : Combination) :
    enforce a b c s = .ok () { s with
      constraints := s.constraints.push ⟨a.terms, b.terms, c.terms⟩
      labels := s.labels.push s.label } := by
  simp only [enforce, checkRoom, hs, Option.filter_none]

theorem grows_enforce (a b c : Combination) : Grows (enforce a b c) := by
  intro s hs
  refine ⟨(), _, enforce_eq hs a b c, ⟨rfl, rfl, rfl, List.prefix_rfl, ?_, ?_, fun h => ?_, id⟩⟩
  · rw [Array.toList_push]
    exact List.prefix_append _ _
  · rw [Array.toList_push]
    exact List.prefix_append _ _
  · simpa using h

theorem within_eq_ok {x : CircuitM α} {name : String} {s t : Circuit} {a : α} :
    Circuit.within name x s = .ok a t ↔ ∃ u, x (s.enter name) = .ok a u ∧ t = u.leave := by
  unfold Circuit.within
  cases x (s.enter name) <;> simp [eq_comm]

theorem Grows.within {x : CircuitM α} (hx : Grows x) (name : String) :
    Grows (Circuit.within name x) := by
  intro s hs
  obtain ⟨a, t, hxs, h⟩ := hx (s.enter name) hs
  refine ⟨a, t.leave, within_eq_ok.2 ⟨t, hxs, rfl⟩, ?_⟩
  have hscopes : t.scopes = name :: s.scopes := h.scopes
  exact ⟨h.limit, h.publicCount, by simp [leave, hscopes], h.assignment, h.constraints, h.labels,
    h.labelled, h.canonical⟩

theorem grows_mul (a b : Combination) : Grows (mul a b) := by
  unfold mul
  split
  · exact .pure _
  · split
    · exact .pure _
    · exact (grows_alloc _).bind fun _ => (grows_enforce _ _ _).bind fun _ => .pure _

end FieldLisp.Circuit

/-! ## Gadgets -/

namespace FieldLisp.Gadget
open Circuit

theorem grows_allocBit (value : Bool) : Grows (allocBit value) :=
  (grows_alloc _).bind fun _ => (grows_enforce _ _ _).bind fun _ => .pure _

theorem grows_isZero (x : Combination) : Grows (isZero x) := by
  unfold isZero
  dsimp only
  split
  · exact .pure _
  · exact (grows_alloc _).bind fun _ => (grows_alloc _).bind fun _ =>
      (grows_enforce _ _ _).bind fun _ => (grows_enforce _ _ _).bind fun _ => .pure _

theorem grows_impliesEqual (c x y : Combination) : Grows (impliesEqual c x y) :=
  grows_enforce _ _ _

theorem grows_bindAll (c : Combination) (xs ys : List Combination) : Grows (bindAll c xs ys) :=
  .forM (fun _ => grows_impliesEqual _ _ _) _

theorem grows_select (flag x y : Combination) : Grows (select flag x y) := by
  unfold select
  dsimp only
  split
  · exact .pure _
  · exact (grows_alloc _).bind fun _ => (grows_enforce _ _ _).bind fun _ => .pure _

theorem grows_bits (x : Combination) (n : ℕ) : Grows (bits x n) :=
  (Grows.mapM (fun _ => grows_allocBit _) _).bind fun _ =>
    (grows_enforce _ _ _).bind fun _ => .pure _

theorem grows_isNegative (x : Combination) : Grows (isNegative x) :=
  (grows_allocBit _).bind fun _ => (grows_mul _ _).bind fun _ => (grows_bits _ _).bind fun _ =>
    (grows_bits _ _).bind fun _ => .pure _

theorem grows_divRem (c a b : Combination) (n : ℕ) : Grows (divRem c a b n) :=
  (grows_alloc _).bind fun _ => (grows_alloc _).bind fun _ => (grows_bits _ _).bind fun _ =>
    (grows_bits _ _).bind fun _ => (grows_mul _ _).bind fun _ => (grows_bits _ _).bind fun _ =>
      (grows_mul _ _).bind fun _ => (grows_impliesEqual _ _ _).bind fun _ => .pure _

theorem grows_less (a b : Combination) : Grows (less a b) :=
  (grows_isNegative _).bind fun _ => (grows_isNegative _).bind fun _ =>
    (grows_isNegative _).bind fun _ => (grows_mul _ _).bind fun _ => grows_select _ _ _

theorem grows_oneHot (index : Int) (count : ℕ) : Grows (oneHot index count) :=
  (Grows.mapM (fun _ => grows_allocBit _) _).bind fun _ =>
    (grows_enforce _ _ _).bind fun _ => .pure _

theorem grows_sbox (x : Combination) : Grows (sbox x) :=
  (grows_alloc _).bind fun _ => (grows_enforce _ _ _).bind fun _ => (grows_mul _ _).bind fun _ =>
    (grows_mul _ _).bind fun _ => (grows_mul _ _).bind fun _ => grows_mul _ _

theorem grows_permute (input : Permutation.Lanes Combination) : Grows (permute input) := by
  have full (state : Permutation.Lanes Combination) (round : ℕ) : Grows (fullRound state round) :=
    (Grows.vectorMapM grows_sbox _).bind fun _ => .pure _
  have part (state : Permutation.Lanes Combination) (round : ℕ) :
      Grows (partialRound state round) := (grows_sbox _).bind fun _ => .pure _
  exact (Grows.foldlM full _ _).bind fun _ => (Grows.foldlM part _ _).bind fun _ =>
    .foldlM full _ _

theorem grows_sponge (elements : List Combination) : Grows (sponge elements) :=
  .foldlM (fun _ _ => (grows_permute _).bind fun _ => .pure _) _ _

end FieldLisp.Gadget
