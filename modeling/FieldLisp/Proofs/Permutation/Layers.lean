import FieldLisp.Sponge
import Mathlib

/-!
# The linear layers commute with what is linear

The layers of the permutation add lanes and scale them by integers, and nothing else. A relation
that goes with both operations therefore goes with the layers:

* `Linear`: the relation goes with sums and integer multiples;
* `mixExternal_related`, `mixInternal_related`: related lanes stay related.
-/

namespace FieldLisp

/-- A relation between two kinds of entries that goes with sums and integer multiples. -/
structure Linear {α β : Type} [Add α] [OfNat α 0] [HMul α Int α] [Add β] [OfNat β 0]
    [HMul β Int β] (rel : α → β → Prop) : Prop where
  zero : rel 0 0
  add : ∀ {x y z w}, rel x y → rel z w → rel (x + z) (y + w)
  scale : ∀ {x y}, rel x y → ∀ n : Int, rel (x * n) (y * n)

namespace Permutation

variable {α β : Type}

/-- The entries at each place are related. -/
def Related (rel : α → β → Prop) {n : ℕ} (xs : Vector α n) (ys : Vector β n) : Prop :=
  ∀ (i : ℕ) (h : i < n), rel xs[i] ys[i]

namespace Related
variable {rel : α → β → Prop} {n : ℕ}

theorem get {xs : Vector α n} {ys : Vector β n} (h : Related rel xs ys) (i : Fin n) :
    rel (xs.get i) (ys.get i) := h i.val i.isLt

theorem ofFn {f : Fin n → α} {g : Fin n → β} (h : ∀ i, rel (f i) (g i)) :
    Related rel (Vector.ofFn f) (Vector.ofFn g) := by
  intro i hi
  simpa using h ⟨i, hi⟩

theorem ofForall₂ {xs : Vector α n} {ys : Vector β n}
    (h : List.Forall₂ rel xs.toList ys.toList) : Related rel xs ys := by
  intro i hi
  simpa using h.get (i := i) (by simpa using hi) (by simpa using hi)

theorem four {a b c d : α} {e f g k : β} (h₀ : rel a e) (h₁ : rel b f) (h₂ : rel c g)
    (h₃ : rel d k) : Related rel #v[a, b, c, d] #v[e, f, g, k] := by
  intro i hi
  match i, hi with
  | 0, _ => exact h₀
  | 1, _ => exact h₁
  | 2, _ => exact h₂
  | 3, _ => exact h₃

theorem foldl {γ δ : Type} {rel' : γ → δ → Prop} {xs : Vector α n} {ys : Vector β n}
    (h : Related rel xs ys) {f : γ → α → γ} {g : δ → β → δ}
    (hstep : ∀ {c d a b}, rel' c d → rel a b → rel' (f c a) (g d b)) {c : γ} {d : δ}
    (hcd : rel' c d) : rel' (xs.foldl f c) (ys.foldl g d) := by
  have hlist : List.Forall₂ rel xs.toList ys.toList := by
    refine List.forall₂_iff_get.2 ⟨by simp, fun i h₁ h₂ => ?_⟩
    simpa using h i (by simpa using h₁)
  rw [← Vector.foldl_toList, ← Vector.foldl_toList]
  generalize xs.toList = l at hlist
  generalize ys.toList = r at hlist
  induction hlist generalizing c d with
  | nil => exact hcd
  | cons hab _ ih => exact ih (hstep hcd hab)

end Related

theorem setFirst_related {rel : α → β → Prop} {xs : Lanes α} {ys : Lanes β} (h : Related rel xs ys) {x : α} {y : β}
    (hxy : rel x y) : Related rel (setFirst xs x) (setFirst ys y) := by
  refine .ofFn fun lane => ?_
  split
  · exact hxy
  · exact h.get lane

section
variable [Add α] [OfNat α 0] [HMul α Int α] [Add β] [OfNat β 0] [HMul β Int β]
variable {rel : α → β → Prop}

theorem mixBlock_related (hrel : Linear rel) {xs : Vector α 4} {ys : Vector β 4}
    (h : Related rel xs ys) : Related rel (mixBlock xs) (mixBlock ys) := by
  have t0 := hrel.add (h.get 0) (h.get 1)
  have t1 := hrel.add (h.get 2) (h.get 3)
  have t2 := hrel.add (hrel.add (h.get 1) (h.get 1)) t1
  have t3 := hrel.add (hrel.add (h.get 3) (h.get 3)) t0
  have t1Twice := hrel.add t1 t1
  have t0Twice := hrel.add t0 t0
  have t4 := hrel.add (hrel.add t1Twice t1Twice) t3
  have t5 := hrel.add (hrel.add t0Twice t0Twice) t2
  exact .four (hrel.add t3 t5) t5 (hrel.add t2 t4) t4

theorem mixExternal_related (hrel : Linear rel) {xs : Lanes α} {ys : Lanes β}
    (h : Related rel xs ys) : Related rel (mixExternal xs) (mixExternal ys) := by
  have block (i j k l : Fin 16) : Related rel (mixBlock #v[xs.get i, xs.get j, xs.get k, xs.get l])
      (mixBlock #v[ys.get i, ys.get j, ys.get k, ys.get l]) :=
    mixBlock_related hrel (.four (h.get i) (h.get j) (h.get k) (h.get l))
  have mixed := @Related.four _ _ (Related rel) _ _ _ _ _ _ _ _ (block 0 1 2 3) (block 4 5 6 7)
    (block 8 9 10 11) (block 12 13 14 15)
  refine .ofFn fun lane => hrel.add (mixed.get ⟨lane.val / 4, by omega⟩ _ _) ?_
  refine Related.ofFn (fun place => ?_) _ _
  exact mixed.foldl (fun total block => hrel.add total (block.get place)) hrel.zero

theorem mixInternal_related (hrel : Linear rel) {xs : Lanes α} {ys : Lanes β}
    (h : Related rel xs ys) : Related rel (mixInternal xs) (mixInternal ys) :=
  .ofFn fun lane => hrel.add (hrel.scale (h.get lane) _) (h.foldl hrel.add hrel.zero)

theorem lanes_related (hrel : Linear rel) {block : List α} {block' : List β}
    (h : List.Forall₂ rel block block') {capacity : Digest α} {capacity' : Digest β}
    (hc : List.Forall₂ rel capacity.toList capacity'.toList) :
    Related rel (Sponge.lanes block capacity) (Sponge.lanes block' capacity') := by
  have getD {xs : List α} {ys : List β} (hxs : List.Forall₂ rel xs ys) (i : ℕ) :
      rel (xs.getD i 0) (ys.getD i 0) := by
    induction hxs generalizing i with
    | nil => exact hrel.zero
    | cons hab _ ih =>
      cases i with
      | zero => exact hab
      | succ i => exact ih i
  refine .ofFn fun lane => ?_
  split
  · exact getD h _
  · exact getD hc _

end

end Permutation

end FieldLisp
