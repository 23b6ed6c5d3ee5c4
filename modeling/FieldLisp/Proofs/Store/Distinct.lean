import FieldLisp.Proofs.Permutation.Evaluation
import FieldLisp.Proofs.Store.Content

/-!
# Digests that are distinct

Of a few preimages it is known by evaluation that no two share a digest:

* `injOn_of_heads`, `hash_injOn`: the first elements of the digests are enough;
* `withDigest`: digests that go into other preimages are computed first;
* `injOn_samples`: the builtin symbols, one more symbol and three nodes.
-/

namespace FieldLisp

open Permutation

/-- The first elements of digests are enough to tell preimages apart. -/
theorem injOn_of_heads {preimages : List (List Int)}
    (h : (preimages.map fun xs => (Sponge.hash xs).toList.headD 0).Nodup) :
    Set.InjOn Sponge.hash {xs | xs ∈ preimages} := by
  intro xs hxs ys hys heq
  apply List.inj_on_of_nodup_map h hxs hys
  rw [heq]

/-- The first element of a digest. -/
def digestHead (elements : List Int) : ℕ := (Evaluation.hash (elements.map Int.toNat)).headD 0

theorem headD_hash {elements : List Int} (h : ∀ x ∈ elements, 0 ≤ x) :
    (Sponge.hash elements).toList.headD 0 = digestHead elements := by
  rw [Evaluation.toList_hash_of_nonneg h, digestHead]
  cases Evaluation.hash (elements.map Int.toNat) <;> rfl

theorem hash_injOn {preimages : List (List Int)} (hnonneg : ∀ xs ∈ preimages, ∀ x ∈ xs, 0 ≤ x)
    (hdistinct : (preimages.map digestHead).Nodup) : Set.InjOn Sponge.hash {xs | xs ∈ preimages} := by
  apply injOn_of_heads
  have hheads : preimages.map (fun xs => (Sponge.hash xs).toList.headD 0) =
      (preimages.map digestHead).map Nat.cast := by
    rw [List.map_map]
    exact List.map_congr_left fun xs hxs => headD_hash (hnonneg xs hxs)
  rw [hheads]
  exact hdistinct.map Nat.cast_injective

/-- Applies a function to a digest that is computed first. -/
def withDigest {α : Type} (elements : List Int) (k : List Int → α) : α :=
  if elements.all (0 ≤ ·) then
    Evaluation.forceList (Evaluation.hash (elements.map Int.toNat)) fun digest => k (digest.map Nat.cast)
  else k (Sponge.hash elements).toList

theorem withDigest_eq {α : Type} (elements : List Int) (k : List Int → α) :
    withDigest elements k = k (Sponge.hash elements).toList := by
  unfold withDigest
  split
  · rename_i hall
    rw [List.all_eq_true] at hall
    rw [Evaluation.forceList_eq, Evaluation.toList_hash_of_nonneg fun x hx => of_decide_eq_true (hall x hx)]
  · rfl

/-- What is hashed for the builtin symbols, for one more symbol, for a commitment to nil, for an
application of a number to nothing, and for the continuation that follows it. -/
def samples : List (List Int) :=
  Builtin.names.map symbolPreimage ++
    [symbolPreimage "x", nodePreimage .commitment [.number 7, .nil],
      nodePreimage .cons [.number 5, .nil], nodePreimage .call0 [.nil, .nil, .nil, .outermost]]

theorem injOn_samples : Set.InjOn Sponge.hash {xs | xs ∈ samples} := by
  refine hash_injOn (by decide +kernel) ?_
  have hforced : Evaluation.forceList (samples.map digestHead) (fun heads => decide heads.Nodup) =
      true := by
    decide +kernel
  rw [Evaluation.forceList_eq] at hforced
  exact of_decide_eq_true hforced

namespace Store

theorem content_empty (shared : Bool) :
    (empty shared).content ⊆ {xs | xs ∈ Builtin.names.map symbolPreimage} := by
  rintro xs (⟨tag, cs, p, hp, rfl⟩ | ⟨p, name, hp, rfl⟩)
  · simp [empty] at hp
  · rw [empty, Std.HashMap.ofList_eq_insertMany_empty] at hp
    rcases mem_of_getElem?_insertMany hp with hp | hmem
    · simp at hp
    · rw [Builtin.table, List.mem_map] at hmem
      obtain ⟨builtin, hbuiltin, hentry⟩ := hmem
      obtain ⟨-, rfl⟩ := Prod.mk.inj hentry
      exact List.mem_map_of_mem hbuiltin

theorem content_empty_subset (shared : Bool) : (empty shared).content ⊆ {xs | xs ∈ samples} :=
  (content_empty shared).trans fun _ => List.mem_append_left _

end Store

end FieldLisp
