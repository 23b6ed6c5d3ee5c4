import FieldLisp.Symbol
import Mathlib

/-!
# What is handed out is canonical

Every digest is made of canonical elements, whatever was hashed, so every pointer that comes from a
hash is canonical.
-/

namespace FieldLisp

namespace Permutation

/-- Every lane holds a canonical element. -/
def Canonical (state : Lanes Int) : Prop := ∀ i : Fin 16, Field.Canonical (state.get i)

theorem canonical_map_reduce (state : Lanes Int) : Canonical (state.map Field.reduce) := by
  intro i
  rw [Vector.get_eq_getElem, Vector.getElem_map]
  exact Field.reduce_canonical _

theorem canonical_foldl {round : Lanes Int → ℕ → Lanes Int}
    (hround : ∀ state r, Canonical (round state r)) {state : Lanes Int} (h : Canonical state)
    (rounds : List ℕ) : Canonical (rounds.foldl round state) := by
  induction rounds generalizing state with
  | nil => exact h
  | cons r rounds ih => exact ih (hround state r)

theorem permute_canonical (input : Lanes Int) : Canonical (permute input) :=
  canonical_foldl (fun _ _ => canonical_map_reduce _)
    (canonical_foldl (fun _ _ => canonical_map_reduce _)
      (canonical_foldl (fun _ _ => canonical_map_reduce _) (canonical_map_reduce _) _) _) _

end Permutation

namespace Sponge

/-- A digest of canonical elements. -/
def CanonicalDigest (d : Digest Int) : Prop := ∀ x ∈ d.toList, Field.Canonical x

theorem absorb_canonical (capacity : Digest Int) (block : List Int) :
    CanonicalDigest (absorb capacity block) := by
  have h := Permutation.permute_canonical (lanes (block.map Field.reduce) capacity)
  intro x hx
  simp only [absorb, Permutation.front, Digest.toList, List.mem_cons, List.not_mem_nil,
    or_false] at hx
  rcases hx with rfl | rfl | rfl | rfl
  · exact h 0
  · exact h 1
  · exact h 2
  · exact h 3

theorem foldl_absorb_canonical (blocks : List (List Int)) {capacity : Digest Int}
    (h : CanonicalDigest capacity) : CanonicalDigest (blocks.foldl absorb capacity) := by
  induction blocks generalizing capacity with
  | nil => exact h
  | cons block blocks ih => exact ih (absorb_canonical capacity block)

theorem hash_canonical (elements : List Int) : CanonicalDigest (hash elements) := by
  refine foldl_absorb_canonical _ fun x hx => ?_
  simp only [initialCapacity, Digest.carrying, Digest.toList, List.mem_cons, List.not_mem_nil,
    or_false] at hx
  rcases hx with rfl | rfl | rfl | rfl
  · exact Field.reduce_canonical _
  all_goals decide

end Sponge

/-- The digest of a canonical pointer has four elements. -/
theorem Pointer.Canonical.exists_digest {p : Pointer} (h : p.Canonical) :
    ∃ d0 d1 d2 d3, p.digest = [d0, d1, d2, d3] := by
  have hlength := h.1
  simp only [Pointer.elements, pointerSize, List.length_cons] at hlength
  rcases hdigest : p.digest with _ | ⟨d0, _ | ⟨d1, _ | ⟨d2, _ | ⟨d3, _ | ⟨d4, rest⟩⟩⟩⟩⟩
  all_goals simp only [hdigest, List.length_nil, List.length_cons] at hlength
  all_goals first | exact ⟨d0, d1, d2, d3, rfl⟩ | omega

theorem Pointer.Canonical.length_digest {p : Pointer} (h : p.Canonical) : p.digest.length = 4 := by
  obtain ⟨d0, d1, d2, d3, hdigest⟩ := h.exists_digest
  rw [hdigest]
  rfl

/-- What a canonical pointer carries is canonical. -/
theorem Pointer.Canonical.payload {p : Pointer} (h : p.Canonical) :
    Field.Canonical (p.digest.headD 0) := by
  obtain ⟨d0, d1, d2, d3, hdigest⟩ := h.exists_digest
  exact h.2 _ (by simp [hdigest])

theorem Pointer.ofDigest_canonical {tag : Tag} {digest : Digest Int}
    (h : Sponge.CanonicalDigest digest) : (ofDigest tag digest).Canonical :=
  ⟨length_ofDigest tag digest, h⟩

theorem symbolPointer_canonical (name : String) : (symbolPointer name).Canonical :=
  Pointer.ofDigest_canonical (Sponge.hash_canonical _)

theorem Tag.value_canonical (tag : Tag) : Field.Canonical tag.value := by cases tag <;> decide

theorem Form.mem_all (form : Form) : form ∈ Form.all := by
  cases form with
  | unary op => cases op <;> decide
  | binary op => cases op <;> decide
  | _ => decide

theorem Form.symbol_canonical (form : Form) : form.symbol.Canonical := by
  rw [Form.symbol_eq]
  exact symbolPointer_canonical _

end FieldLisp
