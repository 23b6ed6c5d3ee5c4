/-! # Digests

The four field elements that name a piece of content. The same shape serves numbers and the
linear combinations that stand for them inside a circuit, so it is generic in its entries. -/

namespace FieldLisp

/-- Four entries, in order. -/
structure Digest (α : Type) where
  d0 : α
  d1 : α
  d2 : α
  d3 : α
  deriving DecidableEq, Repr, Inhabited

namespace Digest

def toList (d : Digest α) : List α := [d.d0, d.d1, d.d2, d.d3]

def map (f : α → β) (d : Digest α) : Digest β := ⟨f d.d0, f d.d1, f d.d2, f d.d3⟩

/-- The digest whose first entry carries a value and whose others are zero. -/
def carrying [OfNat α 0] (value : α) : Digest α := ⟨value, 0, 0, 0⟩

@[simp] theorem length_toList (d : Digest α) : d.toList.length = 4 := rfl

theorem toList_map (f : α → β) (d : Digest α) : (d.map f).toList = d.toList.map f := rfl

theorem toList_inj {d e : Digest α} : d.toList = e.toList ↔ d = e := by
  cases d; cases e; simp [toList]

end Digest

end FieldLisp
