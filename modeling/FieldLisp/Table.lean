/-! # Tables

A table holds values by key, in the order in which the keys were first set. Setting a key again
replaces its value and keeps its place, so every key has one entry. -/

namespace FieldLisp

abbrev Table (κ ν : Type) := List (κ × ν)

namespace Table

variable {κ ν : Type} [DecidableEq κ]

/-- Sets the value of a key; a key that was set keeps its place. -/
def set (table : Table κ ν) (key : κ) (value : ν) : Table κ ν :=
  match table with
  | [] => [(key, value)]
  | entry :: rest => if entry.1 = key then (key, value) :: rest else entry :: set rest key value

/-- Takes a key out. -/
def erase (table : Table κ ν) (key : κ) : Table κ ν := table.filter (·.1 ≠ key)

def get? (table : Table κ ν) (key : κ) : Option ν := table.lookup key

@[simp] theorem get?_set_self (table : Table κ ν) (key : κ) (value : ν) :
    (table.set key value).get? key = some value := by
  unfold get?
  induction table with
  | nil => simp [set]
  | cons entry rest ih =>
    by_cases h : entry.1 = key
    · simp [set, h]
    · have hne : (key == entry.1) = false := by simpa using Ne.symm h
      rw [set, if_neg h, List.lookup_cons, hne]
      exact ih

theorem get?_set_of_ne (table : Table κ ν) {key other : κ} (value : ν) (h : other ≠ key) :
    (table.set key value).get? other = table.get? other := by
  unfold get?
  induction table with
  | nil => simp [set, h]
  | cons entry rest ih =>
    by_cases he : entry.1 = key
    · subst he
      have hne : (other == entry.1) = false := by simpa using h
      rw [set, if_pos rfl, List.lookup_cons, List.lookup_cons, hne]
    · rw [set, if_neg he, List.lookup_cons, List.lookup_cons, ih]

end Table

end FieldLisp
