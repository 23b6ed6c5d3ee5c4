import FieldLisp.Proofs.Canonical
import FieldLisp.Proofs.Permutation.Evaluation

/-!
# The symbols of the forms

No two forms share a symbol, so an expression has at most one of them as its head:

* `Form.symbol_injective`: the digests of the symbols are evaluated;
* `formOf?`: the form that a pointer is the symbol of.
-/

namespace FieldLisp

open Permutation

/-- The first elements of the digests of all forms' symbols. -/
def symbolHeads : List ℕ :=
  Form.all.map fun form => (Evaluation.hash ((symbolPreimage form.name).map Int.toNat)).headD 0

theorem symbolHeads_nodup : symbolHeads.Nodup := by
  have hforced : Evaluation.forceList symbolHeads (fun heads => decide heads.Nodup) = true := by
    decide +kernel
  rw [Evaluation.forceList_eq] at hforced
  exact of_decide_eq_true hforced

theorem Form.symbol_injective : Function.Injective Form.symbol := by
  intro a b h
  have hnonneg : ∀ form ∈ Form.all, ∀ x ∈ symbolPreimage form.name, 0 ≤ x := by decide +kernel
  have hhead (form : Form) : form.symbol.digest.headD 0 =
      (Evaluation.hash ((symbolPreimage form.name).map Int.toNat)).headD 0 := by
    have hhash := Evaluation.toList_hash_of_nonneg (hnonneg form form.mem_all)
    rw [Form.symbol_eq]
    change (Sponge.hash (symbolPreimage form.name)).toList.headD 0 = _
    rw [hhash]
    cases Evaluation.hash ((symbolPreimage form.name).map Int.toNat) <;> rfl
  refine List.inj_on_of_nodup_map symbolHeads_nodup a.mem_all b.mem_all ?_
  have hsame := (hhead a).symm.trans ((congrArg (fun p => p.digest.headD 0) h).trans (hhead b))
  exact_mod_cast hsame

/-- The form that a pointer is the symbol of. -/
def formOf? (head : Pointer) : Option Form := Form.all.find? fun form => head == form.symbol

theorem beq_symbol (head : Pointer) (form : Form) :
    (head == form.symbol) = (formOf? head == some form) := by
  have found {other : Form} (h : formOf? head = some other) : head = other.symbol := by
    have := List.find?_some h
    exact beq_iff_eq.1 this
  rw [Bool.eq_iff_iff, beq_iff_eq, beq_iff_eq]
  constructor
  · rintro rfl
    cases hform : formOf? form.symbol with
    | none => exact absurd (beq_self_eq_true _) (List.find?_eq_none.1 hform form form.mem_all)
    | some other => rw [Form.symbol_injective (found hform)]
  · exact found

end FieldLisp
