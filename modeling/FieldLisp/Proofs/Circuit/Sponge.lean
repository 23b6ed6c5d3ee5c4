import FieldLisp.Proofs.Circuit.Gadgets
import FieldLisp.Proofs.Permutation.Layers

/-!
# The sponge in a satisfied circuit

A combination shows a number when it is worth it, and reads it when it also is faithful. Round for
round, the lanes of the circuit show the lanes of the permutation of numbers:

* `shows_sponge`: under every valuation that satisfies the circuit, the digest that the sponge lays
  out shows the hash of what its input shows, and it does so honestly if the input is faithful;
* `meets_sponge`: it reads the hash of what its input reads.
-/

namespace FieldLisp

open FieldLisp.Field (Element)

/-- A faithful combination that is worth a number. -/
structure Combination.Reads (ω₀ ω : Valuation) (x : Combination) (n : Int) : Prop where
  faithful : x.Faithful ω₀
  under_eq : x.under ω = n

/-- A combination that is worth a number. It needs to be faithful only where it is used honestly. -/
structure Combination.Shows (honest : Prop) (ω₀ ω : Valuation) (x : Combination) (n : Int) : Prop where
  faithful : honest → x.Faithful ω₀
  under_eq : x.under ω = n

theorem Combination.shows_iff_reads {ω₀ ω : Valuation} {x : Combination} {n : Int} :
    x.Shows True ω₀ ω n ↔ x.Reads ω₀ ω n :=
  ⟨fun h => ⟨h.faithful trivial, h.under_eq⟩, fun h => ⟨fun _ => h.faithful, h.under_eq⟩⟩

namespace Gadget

open Circuit
open Permutation (Lanes Related)
open Combination (Reads Shows)

variable {ω₀ ω : Valuation} {honest : Prop}

theorem shows_linear : Linear (Shows honest ω₀ ω) where
  zero := ⟨fun _ => .zero, by simp⟩
  add h h' := ⟨fun used => (h.faithful used).add (h'.faithful used), by simp [h.under_eq, h'.under_eq]⟩
  scale h n := ⟨fun used => (h.faithful used).scale n, by simp [h.under_eq]⟩

theorem shows_constant (n : Int) : Shows honest ω₀ ω (.constant n) n :=
  ⟨fun _ => .constant n, Combination.under_constant ω n⟩

/-- Canonical or not, numbers of one class are shown by the same combinations. -/
theorem shows_reduce {x : Combination} {n : Int} : Shows honest ω₀ ω x (Field.reduce n) ↔ Shows honest ω₀ ω x n :=
  ⟨fun h => ⟨h.faithful, by simpa using h.under_eq⟩,
    fun h => ⟨h.faithful, by simpa using h.under_eq⟩⟩

theorem related_reduce {n : ℕ} {xs : Vector Combination n} {ys : Vector Int n} :
    Related (Shows honest ω₀ ω) xs (ys.map Field.reduce) ↔ Related (Shows honest ω₀ ω) xs ys := by
  constructor
  · intro h i hi
    simpa [shows_reduce] using h i hi
  · intro h i hi
    simpa [shows_reduce] using h i hi

theorem shows_sbox {x : Combination} {n : Int} (h : Shows honest ω₀ ω x n) :
    Meets ω₀ ω (honest ∧ ω = ω₀) (sbox x) fun y => Shows honest ω₀ ω y (Permutation.sbox n) := by
  refine (meets_alloc _).bind (grows_alloc _) (fun _ => (grows_enforce _ _ _).bind fun _ =>
    (grows_mul _ _).bind fun _ => (grows_mul _ _).bind fun _ => (grows_mul _ _).bind fun _ =>
    grows_mul _ _) fun x1 hx1 => ?_
  refine ((meets_enforce x 1 x1).mono ?_ fun _ => id).bind (grows_enforce _ _ _)
    (fun _ => (grows_mul _ _).bind fun _ => (grows_mul _ _).bind fun _ =>
    (grows_mul _ _).bind fun _ => grows_mul _ _) fun _ hpin => ?_
  · rintro ⟨used, rfl⟩
    rw [Combination.under_one, mul_one, hx1.1.under_eq, hx1.2, Field.cast_reduce,
      (h.faithful used).under_eq]
  rw [Combination.under_one, mul_one, h.under_eq] at hpin
  have product {a b : Combination} (ha : a.Faithful ω₀) (hb : b.Faithful ω₀) :
      Meets ω₀ ω (honest ∧ ω = ω₀) (mul a b) _ := (meets_mul ha hb).mono And.right fun _ => id
  refine (product hx1.1 hx1.1).bind (grows_mul _ _) (fun _ => (grows_mul _ _).bind fun _ =>
    (grows_mul _ _).bind fun _ => grows_mul _ _) fun x2 hx2 => ?_
  refine (product hx2.1 hx1.1).bind (grows_mul _ _) (fun _ => (grows_mul _ _).bind fun _ =>
    grows_mul _ _) fun x3 hx3 => ?_
  refine (product hx2.1 hx2.1).bind (grows_mul _ _) (fun _ => grows_mul _ _) fun x4 hx4 => ?_
  refine (product hx3.1 hx4.1).mono id fun y hy => ⟨fun _ => hy.1, ?_⟩
  rw [hy.2.2, hx3.2.2, hx4.2.2, hx2.2.2, ← hpin, Permutation.sbox]
  simp only [Field.cast_reduce, Int.cast_mul]
  ring

theorem shows_fullRound {state : Lanes Combination} {numbers : Lanes Int}
    (h : Related (Shows honest ω₀ ω) state numbers) (round : ℕ) :
    Meets ω₀ ω (honest ∧ ω = ω₀) (fullRound state round)
      fun out => Related (Shows honest ω₀ ω) out (Permutation.fullRound numbers round) := by
  set inputs : Lanes Combination := Vector.ofFn fun lane : Fin 16 =>
    state.get lane + .constant (Permutation.fullConstant round lane) with hinputs
  have sums (i : ℕ) (hi : i < 16) :
      Shows honest ω₀ ω inputs[i] (numbers[i] + Permutation.fullConstant round ⟨i, hi⟩) := by
    simpa [hinputs, Vector.get_eq_getElem] using
      shows_linear.add (h i hi) (shows_constant (Permutation.fullConstant round ⟨i, hi⟩))
  -- The number that a lane shows is found by its place, for a loop over lanes has only the entries.
  let image (x y : Combination) : Prop :=
    ∀ n, Shows honest ω₀ ω x n → Shows honest ω₀ ω y (Permutation.sbox n)
  have sboxes : Meets ω₀ ω (honest ∧ ω = ω₀) (inputs.mapM sbox)
      fun out => List.Forall₂ image inputs.toList out.toList := by
    refine .vectorMapM grows_sbox fun x hx => ?_
    obtain ⟨i, hi, rfl⟩ := Vector.getElem_of_mem hx
    have hread := sums i hi
    refine (shows_sbox hread).mono id fun y hy n hn => ⟨hy.faithful, ?_⟩
    have hsame : Field.reduce n = Field.reduce (numbers[i] + Permutation.fullConstant round ⟨i, hi⟩) :=
      Field.cast_eq_iff.1 (hn.under_eq.symm.trans hread.under_eq)
    have sbox_reduce (m : Int) :
        ((Permutation.sbox m : Int) : Element) = (Permutation.sbox (Field.reduce m) : Int) := by
      simp [Permutation.sbox]
    rw [hy.under_eq, sbox_reduce, ← hsame, ← sbox_reduce]
  refine sboxes.bind (.vectorMapM grows_sbox _) (fun _ => .pure _) fun out hout => .pure ?_
  rw [Permutation.fullRound, related_reduce]
  refine Permutation.mixExternal_related shows_linear fun i hi => ?_
  have hlane := Related.ofForall₂ hout i hi _ (shows_reduce.2 (sums i hi))
  simpa [Vector.get_eq_getElem] using hlane

theorem shows_partialRound {state : Lanes Combination} {numbers : Lanes Int}
    (h : Related (Shows honest ω₀ ω) state numbers) (round : ℕ) :
    Meets ω₀ ω (honest ∧ ω = ω₀) (partialRound state round)
      fun out => Related (Shows honest ω₀ ω) out (Permutation.partialRound numbers round) := by
  have first := shows_linear.add (h.get 0) (shows_constant (Permutation.partialConstant round))
  refine (shows_sbox (shows_reduce.2 first)).bind (grows_sbox _) (fun _ => .pure _)
    fun y hy => .pure ?_
  rw [Permutation.partialRound, related_reduce]
  exact Permutation.mixInternal_related shows_linear (Permutation.setFirst_related h hy)

theorem shows_rounds {roundOf : Lanes Combination → ℕ → CircuitM (Lanes Combination)}
    {numbersOf : Lanes Int → ℕ → Lanes Int} (grows : ∀ state round, Grows (roundOf state round))
    (meets : ∀ {state numbers}, Related (Shows honest ω₀ ω) state numbers → ∀ round,
      Meets ω₀ ω (honest ∧ ω = ω₀) (roundOf state round)
        fun out => Related (Shows honest ω₀ ω) out (numbersOf numbers round))
    {state : Lanes Combination} {numbers : Lanes Int} (h : Related (Shows honest ω₀ ω) state numbers)
    (rounds : List ℕ) : Meets ω₀ ω (honest ∧ ω = ω₀) (rounds.foldlM roundOf state)
      fun out => Related (Shows honest ω₀ ω) out (rounds.foldl numbersOf numbers) := by
  induction rounds generalizing state numbers with
  | nil => exact .pure h
  | cons round rounds ih =>
    exact (meets h round).bind (grows _ _) (fun _ => .foldlM grows _ _) fun _ hout => ih hout

theorem shows_permute {input : Lanes Combination} {numbers : Lanes Int}
    (h : Related (Shows honest ω₀ ω) input numbers) : Meets ω₀ ω (honest ∧ ω = ω₀) (permute input)
      fun out => Related (Shows honest ω₀ ω) out (Permutation.permute numbers) := by
  have full (state : Lanes Combination) (round : ℕ) : Grows (fullRound state round) :=
    (Grows.vectorMapM grows_sbox _).bind fun _ => .pure _
  have part (state : Lanes Combination) (round : ℕ) : Grows (partialRound state round) :=
    (grows_sbox _).bind fun _ => .pure _
  have start : Related (Shows honest ω₀ ω) (Permutation.mixExternal input)
      ((Permutation.mixExternal (numbers.map Field.reduce)).map Field.reduce) :=
    related_reduce.2 (Permutation.mixExternal_related shows_linear (related_reduce.2 h))
  refine (shows_rounds full shows_fullRound start _).bind (.foldlM full _ _)
    (fun _ => (Grows.foldlM part _ _).bind fun _ => .foldlM full _ _) fun opening hopening => ?_
  refine (shows_rounds part shows_partialRound hopening _).bind (.foldlM part _ _)
    (fun _ => .foldlM full _ _) fun middle hmiddle => ?_
  exact shows_rounds full shows_fullRound hmiddle _

theorem meets_permute {input : Lanes Combination} {numbers : Lanes Int}
    (h : Related (Reads ω₀ ω) input numbers) : Meets ω₀ ω (ω = ω₀) (permute input)
      fun out => Related (Reads ω₀ ω) out (Permutation.permute numbers) := by
  refine (shows_permute fun i hi => Combination.shows_iff_reads.2 (h i hi)).mono (fun heq => ⟨trivial, heq⟩) ?_
  exact fun out hout i hi => Combination.shows_iff_reads.1 (hout i hi)

theorem forall₂_blocks {α β : Type} {rel : α → β → Prop} (size count : ℕ) {xs : List α}
    {ys : List β} (h : List.Forall₂ rel xs ys) :
    List.Forall₂ (List.Forall₂ rel) (blocks size count xs) (blocks size count ys) := by
  induction count generalizing xs ys with
  | zero => exact .nil
  | succ count ih =>
    exact .cons (List.forall₂_take size h) (ih (List.forall₂_drop size h))

/-- The sponge lays out the hash of what its input shows. -/
theorem shows_sponge {elements : List Combination} {numbers : List Int}
    (h : List.Forall₂ (Shows honest ω₀ ω) elements numbers) : Meets ω₀ ω (honest ∧ ω = ω₀) (sponge elements)
      fun image => List.Forall₂ (Shows honest ω₀ ω) image.toList (Sponge.hash numbers).toList := by
  have grows (capacity : Digest Combination) (block : List Combination) :
      Grows (absorb capacity block) := (grows_permute _).bind fun _ => .pure _
  have meets {capacity : Digest Combination} {capacity' : Digest Int}
      (hc : List.Forall₂ (Shows honest ω₀ ω) capacity.toList capacity'.toList)
      {blocks : List (List Combination)} {blocks' : List (List Int)}
      (hblocks : List.Forall₂ (List.Forall₂ (Shows honest ω₀ ω)) blocks blocks') :
      Meets ω₀ ω (honest ∧ ω = ω₀) (blocks.foldlM absorb capacity) fun image =>
        List.Forall₂ (Shows honest ω₀ ω) image.toList (blocks'.foldl Sponge.absorb capacity').toList := by
    induction hblocks generalizing capacity capacity' with
    | nil => exact .pure hc
    | @cons block block' rest rest' hblock _ ih =>
      have hblock : List.Forall₂ (Shows honest ω₀ ω) block (block'.map Field.reduce) :=
        List.forall₂_map_right_iff.2 (hblock.imp fun _ _ => shows_reduce.2)
      have hlanes := Permutation.lanes_related shows_linear hblock hc
      have absorbed : Meets ω₀ ω (honest ∧ ω = ω₀) (absorb capacity block) fun out =>
          List.Forall₂ (Shows honest ω₀ ω) out.toList (Sponge.absorb capacity' block').toList :=
        (shows_permute hlanes).bind (grows_permute _) (fun _ => .pure _) fun out hout =>
          .pure (.cons (hout.get 0) (.cons (hout.get 1) (.cons (hout.get 2)
            (.cons (hout.get 3) .nil))))
      exact absorbed.bind (grows _ _) (fun _ => .foldlM grows _ _) fun out hout => ih hout
  rw [sponge, Sponge.hash, h.length_eq]
  refine meets ?_ (forall₂_blocks _ _ h)
  rw [Digest.toList_map]
  exact List.forall₂_map_left_iff.2 (List.forall₂_same.2 fun n _ => shows_constant n)

theorem meets_sponge {elements : List Combination} {numbers : List Int}
    (h : List.Forall₂ (Reads ω₀ ω) elements numbers) : Meets ω₀ ω (ω = ω₀) (sponge elements)
      fun image => List.Forall₂ (Reads ω₀ ω) image.toList (Sponge.hash numbers).toList := by
  refine (shows_sponge (h.imp fun _ _ => Combination.shows_iff_reads.2)).mono (fun heq => ⟨trivial, heq⟩) ?_
  exact fun image himage => himage.imp fun _ _ => Combination.shows_iff_reads.1

end Gadget

end FieldLisp
