import FieldLisp.Proofs.Circuit.Signs

/-!
# The sponge computes the hash

The sponge may be used in any circuit. It adds constraints behind those that are there, and whoever satisfies these
can only read the hash of the input from its result: every S-box starts with a variable that is pinned to its input, and
all other lanes are sums of such variables.

* `map_eq_of_forall₂`: canonical numbers are told by what they are worth;
* `Gadget.sponge_hashes`: the sponge for its own assignment, and for every assignment that satisfies what it has added.
-/

namespace FieldLisp

open FieldLisp.Field (Element)

variable {s t : Circuit} {w : Array Int}

/-- Canonical numbers that are worth the same as other ones. -/
theorem map_eq_of_forall₂ {ys : List Combination} {ns : List Int} {number : Combination → Int}
    (h : List.Forall₂ (fun (y : Combination) (n : Int) => Field.Canonical (number y) ∧ (number y : Element) = n) ys ns)
    (hns : ∀ n ∈ ns, Field.Canonical n) : ys.map number = ns := by
  induction h with
  | nil => rfl
  | cons hy _ ih =>
    rw [List.forall_mem_cons] at hns
    rw [List.map_cons, (Field.cast_inj hy.1 hns.1).1 hy.2, ih hns.2]

namespace Gadget

open Circuit

/-- The sponge needs room for its constraints only. It puts them behind those that are there. For combinations that
stand for the values that they carry, its own assignment satisfies them, and the digest that it gives carries the hash
of these values. Under every assignment that satisfies them, whatever the combinations are, the digest is worth the hash
of what they are worth. -/
theorem sponge_hashes (elements : List Combination) (hs : s.assignment.getD Combination.one 0 = 1) :
    (s.limit = none → ∃ image t, sponge elements s = .ok image t) ∧
    ∀ image t, sponge elements s = .ok image t →
      (s.assignment.toList <+: t.assignment.toList ∧ s.constraints.toList <+: t.constraints.toList) ∧
      ((∀ x ∈ elements, Stands s x) →
        (∀ k ∈ t.constraints.toList.drop s.constraints.size, holds t.assignment k = true) ∧
        image.map Combination.value = Sponge.hash (elements.map Combination.value)) ∧
      ∀ w : Array Int, w.getD Combination.one 0 = 1 →
        (∀ k ∈ t.constraints.toList.drop s.constraints.size, holds w k = true) →
        image.map (fun y => Combination.evalTerms w y.terms) =
          Sponge.hash (elements.map fun x => Combination.evalTerms w x.terms) := by
  have hgrows := grows_sponge elements
  have hemits := emits_sponge elements
  refine ⟨fun hlimit => ?_, fun image t hrun => ?_⟩
  · obtain ⟨image, t, hrun, -⟩ := hgrows s hlimit
    exact ⟨image, t, hrun⟩
  have hone := hemits.one hgrows hrun hs
  have hfits := fits_ofAssignment hone
  obtain ⟨emitted, hconstraints, -⟩ := hemits s image t hrun
  refine ⟨⟨hemits.assignment hgrows hrun, by rw [hconstraints, Array.toList_append]; exact List.prefix_append _ _⟩,
    fun hstands => ?_, fun w hw hadded => ?_⟩
  · have hreads : List.Forall₂ (Combination.Reads (.ofAssignment t.assignment) (.ofAssignment t.assignment)) elements
        (elements.map Combination.value) :=
      List.forall₂_map_right_iff.2 (List.forall₂_same.2 fun x hx =>
        reads_value ((hstands x hx).faithful (hemits.fits hgrows hrun hfits)))
    obtain ⟨hadded, hvalues⟩ := (Gadget.meets_sponge hreads).of_emitted hemits hrun hfits
    refine ⟨fun k hk => (holds_iff hone k).2 (hadded rfl k hk), ?_⟩
    rw [← Digest.toList_inj, Digest.toList_map]
    refine map_eq_of_forall₂ ?_ (Sponge.hash_canonical _)
    exact (hvalues (hadded rfl)).imp fun y n hy => ⟨hy.faithful.canonical, hy.faithful.under_eq.symm.trans hy.under_eq⟩
  · have under_eq (x : Combination) : (Combination.evalTerms w x.terms : Element) = x.under (.ofAssignment w) :=
      Combination.cast_evalTerms_ofAssignment hw x.terms
    have hshows : List.Forall₂ (Combination.Shows False (.ofAssignment t.assignment) (.ofAssignment w)) elements
        (elements.map fun x => Combination.evalTerms w x.terms) :=
      List.forall₂_map_right_iff.2 (List.forall₂_same.2 fun x _ => ⟨False.elim, (under_eq x).symm⟩)
    have himage := ((shows_sponge hshows).of_emitted hemits hrun hfits).2 fun k hk => (holds_iff hw k).1 (hadded k hk)
    rw [← Digest.toList_inj, Digest.toList_map]
    refine map_eq_of_forall₂ ?_ (Sponge.hash_canonical _)
    exact himage.imp fun y n hy => ⟨Field.reduce_canonical _, (under_eq y).trans hy.under_eq⟩

/-- The sponge of two variables gives the hash of their values, whether they are read from what it carries or from the
assignment. -/
theorem sponge_hashes_pair : ∃ (s t : Circuit) (x y : Combination) (image : Digest Combination),
    s.assignment.getD Combination.one 0 = 1 ∧ Stands s x ∧ Stands s y ∧ sponge [x, y] s = .ok image t ∧
    (∀ k ∈ t.constraints.toList.drop s.constraints.size, holds t.assignment k = true) ∧
    image.map Combination.value = Sponge.hash [1, 8] ∧
    image.map (fun z => Combination.evalTerms t.assignment z.terms) = Sponge.hash [1, 8] := by
  let x : Combination := .ofVariable 1 1
  let y : Combination := .ofVariable 2 8
  obtain ⟨s, hlimit, hobtains⟩ : ∃ s, s.limit = none ∧ Obtains none [.alloc 1, .alloc 8] s [x, y] := by
    have first : Obtains none [.alloc 1] _ [x] := .next .fresh (fun _ h => by cases h) trivial rfl
    exact ⟨_, rfl, first.next (fun _ h => by cases h) trivial rfl⟩
  obtain ⟨hs, hstands, -⟩ := stands_of_obtains hobtains
  obtain ⟨hsucceeds, hhashes⟩ := sponge_hashes [x, y] hs
  obtain ⟨image, t, hrun⟩ := hsucceeds hlimit
  obtain ⟨-, hhonest, hany⟩ := hhashes image t hrun
  obtain ⟨hadded, hvalues⟩ := hhonest hstands
  -- The sponge is one more honest operation, so its own assignment still gives both variables their values.
  have hlater : Obtains none [.alloc 1, .alloc 8, .sponge [.combination x, .combination y]] t
      ([x, y] ++ image.toList) :=
    hobtains.next (by simp [Operation.operands]) trivial (EStateM.bind_eq_ok.2 ⟨image, t, hrun, rfl⟩)
  obtain ⟨ht, hstands', -⟩ := stands_of_obtains hlater
  have hx : Combination.evalTerms t.assignment x.terms = 1 := (hstands' x (by simp)).value_eq.symm
  have hy : Combination.evalTerms t.assignment y.terms = 8 := (hstands' y (by simp)).value_eq.symm
  have hread := hany t.assignment ht hadded
  simp only [List.map_cons, List.map_nil, hx, hy] at hread
  exact ⟨s, t, x, y, image, hs, hstands x (by simp), hstands y (by simp), hrun, hadded, hvalues, hread⟩

end Gadget

end FieldLisp
