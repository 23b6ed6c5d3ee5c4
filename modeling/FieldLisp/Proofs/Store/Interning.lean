import FieldLisp.Datum
import FieldLisp.Proofs.Machine.Reduct
import FieldLisp.Proofs.Store.Distinct
import FieldLisp.Proofs.Store.Outcomes

/-!
# Data that are taken in apart

Data of integers, strings, lists and tuples are handed out as one pointer exactly where they have one
normal form, as long as none of their preimages collide:

* `Literal`, `Literal.normal`: such data, and their normal forms;
* `Literal.address`, `Literal.preimages`: the pointer of a datum and what is hashed for it, computed
  without a store;
* `settles_intern`: in every store, the address is what is handed out;
* `Literal.address_normal`: the normal form has the same address;
* `Literal.normal_eq_of_address`: the same address comes from the same normal form, by induction on one
  of the data, with the shape of the other told from the tag of its address.
-/

namespace FieldLisp

open Store (Reachable Settles listPointer nodePointer)

/-- A datum without pointers that can be taken in. -/
inductive Literal where
  | null
  | integer (n : ℤ)
  | text (name : String)
  | list (items : List Literal)
  | tuple (items : List Literal)

namespace Literal

mutual

/-- A literal as a datum; lists and tuples are sequences of items alike. -/
def datum : Literal → Datum
  | null => .null
  | integer n => .integer n
  | text name => .text name
  | list items | tuple items => .items (data items)

def data : List Literal → List Datum
  | [] => []
  | item :: items => item.datum :: data items

end

/-! ## Normal forms -/

/-- A list that is in normal form: the empty list is nothing. -/
def listOf : List Literal → Literal
  | [] => null
  | item :: items => list (item :: items)

theorem listOf_injective : Function.Injective listOf := by
  intro xs ys h
  cases xs <;> cases ys <;> cases h <;> rfl

mutual

/-- Integers are reduced, tuples read as lists, and nothing, the empty list, the empty tuple and the
name of nil are one value. -/
def normal : Literal → Literal
  | null => null
  | integer n => integer (Field.reduce n)
  | text name => if name = "nil" then null else text name
  | list items | tuple items => listOf (normals items)

def normals : List Literal → List Literal
  | [] => []
  | item :: items => item.normal :: normals items

end

/-! ## Addresses -/

mutual

/-- The pointer that a literal is handed out as. -/
def address : Literal → Pointer
  | null => .nil
  | integer n => .number n
  | text name => if name = "nil" then .nil else symbolPointer name
  | list items | tuple items => listPointer (addresses items)

def addresses : List Literal → List Pointer
  | [] => []
  | item :: items => item.address :: addresses items

end

mutual

/-- All that is hashed when a literal is taken in: the names in it, and the pairs of its lists. Where
two of them share a digest, a store keeps the first one only. -/
def preimages : Literal → Set (List ℤ)
  | null | integer _ => ∅
  | text name => if name = "nil" then ∅ else {symbolPreimage name}
  | list items | tuple items => allPreimages items

def allPreimages : List Literal → Set (List ℤ)
  | [] => ∅
  | item :: items =>
    insert (nodePreimage .cons [item.address, listPointer (addresses items)])
      (item.preimages ∪ allPreimages items)

end

end Literal

/-! ## Taking literals in -/

namespace Store

theorem listPointer_eq_foldr (ps : List Pointer) :
    listPointer ps = ps.foldr (fun item rest => nodePointer .cons [item, rest]) .nil := by
  induction ps with
  | nil => rfl
  | cons p ps ih => rw [listPointer, ih, List.foldr_cons]

theorem settles_properList (items : List Pointer) :
    Settles items (list items .nil) (.ok (listPointer items)) ([·]) := by
  rw [listPointer_eq_foldr]
  exact .of_immediate .nil 0 rfl (settles_list items .nil)

mutual

theorem settles_intern : ∀ x : Literal, Settles [] (intern x.datum) (.ok x.address) ([·])
  | .null => .of_immediate .nil 0 rfl (.pure (List.Subset.refl _))
  | .integer n => .of_immediate .number n rfl (.pure (List.Subset.refl _))
  | .text name => settles_internSymbol name
  | .list items | .tuple items => by
    unfold Literal.datum Literal.address intern
    exact (settles_internItems items).bind (settles_properList _)

theorem settles_internItems : ∀ xs : List Literal,
    Settles [] (internItems (Literal.data xs)) (.ok (Literal.addresses xs)) id
  | [] => .pure (List.Subset.refl _)
  | x :: xs => by
    unfold Literal.data Literal.addresses internItems
    refine (settles_intern x).bind (Settles.bind ((settles_internItems xs).of_subset ?_) (.pure ?_))
    · exact List.nil_subset _
    · exact List.Subset.refl _

end

end Store

namespace Literal

/-! ## Equal normal forms -/

theorem address_listOf (xs : List Literal) : (listOf xs).address = listPointer (addresses xs) := by
  cases xs <;> rfl

mutual

theorem address_normal : ∀ x : Literal, x.normal.address = x.address
  | null => rfl
  | integer n => congrArg (Pointer.ofDigest .number <| .carrying ·) (Field.reduce_reduce n)
  | text name => by
    unfold normal address
    split_ifs <;> simp_all
  | list items | tuple items =>
    (address_listOf _).trans (congrArg listPointer (addresses_normals items))

theorem addresses_normals : ∀ xs : List Literal, addresses (normals xs) = addresses xs
  | [] => rfl
  | x :: xs => by
    unfold normals addresses
    rw [address_normal x, addresses_normals xs]

end

/-! ## Equal addresses -/

/-- What the tag of its address tells of a literal. -/
inductive Shape (y : Literal) : Tag → Prop
  | nil (normal : y.normal = null) : Shape y .nil
  | number (n : ℤ) (normal : y.normal = integer (Field.reduce n)) (address : y.address = .number n) :
      Shape y .number
  | symbol (name : String) (normal : y.normal = text name) (address : y.address = symbolPointer name)
      (hashed : symbolPreimage name ∈ y.preimages) : Shape y .symbol
  | pair (z : Literal) (zs : List Literal) (normal : y.normal = listOf (normals (z :: zs)))
      (address : y.address = nodePointer .cons [z.address, listPointer (addresses zs)])
      (hashed : allPreimages (z :: zs) ⊆ y.preimages) : Shape y .cons

theorem shape (y : Literal) : y.Shape y.address.tag := by
  have items {xs : List Literal} (hnormal : y.normal = listOf (normals xs))
      (haddress : y.address = listPointer (addresses xs)) (hhashed : allPreimages xs ⊆ y.preimages) :
      y.Shape y.address.tag := by
    rw [haddress]
    cases xs with
    | nil => exact .nil hnormal
    | cons z zs => exact .pair z zs hnormal haddress hhashed
  cases y with
  | null => exact .nil rfl
  | integer n => exact .number n rfl rfl
  | text name =>
    by_cases hname : name = "nil"
    · rw [address, if_pos hname]
      exact .nil (if_pos hname)
    · have hhashed : symbolPreimage name ∈ (text name).preimages := by
        rw [preimages, if_neg hname]
        exact Set.mem_singleton _
      rw [address, if_neg hname]
      exact .symbol name (if_neg hname) (if_neg hname) hhashed
  | list xs => exact items rfl rfl Set.Subset.rfl
  | tuple xs => exact items rfl rfl Set.Subset.rfl

theorem shape_of_eq {p : Pointer} {y : Literal} (h : p = y.address) : y.Shape p.tag := h ▸ y.shape

theorem canonical_listPointer (ps : List Pointer) : (listPointer ps).Canonical := by
  cases ps with
  | nil => exact Pointer.immediate_canonical .nil 0
  | cons p ps => exact Store.nodePointer_canonical _ _

theorem canonical_address (x : Literal) : x.address.Canonical := by
  cases x with
  | null => exact Pointer.immediate_canonical .nil 0
  | integer n => exact Pointer.immediate_canonical .number n
  | text name =>
    rw [address]
    split_ifs
    · exact Pointer.immediate_canonical .nil 0
    · exact symbolPointer_canonical name
  | list items | tuple items => exact canonical_listPointer _

theorem canonical_children (x : Literal) (xs : List Literal) :
    ∀ p ∈ [x.address, listPointer (addresses xs)], p.Canonical := by
  simp [canonical_address, canonical_listPointer]

theorem normal_eq_of_nil {y : Literal} (h : Pointer.nil = y.address) : null = y.normal := by
  cases shape_of_eq h with
  | nil normal => exact normal.symm

theorem normal_eq_of_number {n : ℤ} {y : Literal} (h : Pointer.number n = y.address) :
    integer (Field.reduce n) = y.normal := by
  cases shape_of_eq h with
  | number n' normal address =>
    have hdigest : [Field.reduce n, 0, 0, 0] = [Field.reduce n', 0, 0, 0] :=
      congrArg Pointer.digest (h.trans address)
    rw [normal, (List.cons.inj hdigest).1]

section
variable {known : Set (List ℤ)} (hinjective : Set.InjOn Sponge.hash known)
include hinjective

theorem normal_eq_of_symbolPointer {name : String} (hname : symbolPreimage name ∈ known) {y : Literal}
    (hy : y.preimages ⊆ known) (h : symbolPointer name = y.address) : text name = y.normal := by
  cases shape_of_eq h with
  | symbol name' normal address hashed =>
    have hhash := Store.hash_eq_of_symbolPointer_eq (h.trans address)
    rw [normal, symbolPreimage_injective (hinjective hname (hy hashed) hhash)]

mutual

/-- Literals with the same address have the same normal form, unless preimages collide. The induction is
on the first one; what the second one is, its address tells. -/
theorem normal_eq_of_address : ∀ x y : Literal, x.preimages ⊆ known → y.preimages ⊆ known →
    x.address = y.address → x.normal = y.normal
  | null, y, _, _, h => normal_eq_of_nil h
  | integer n, y, _, _, h => normal_eq_of_number h
  | text name, y, hx, hy, h => by
    by_cases hname : name = "nil"
    · rw [address, if_pos hname] at h
      rw [normal, if_pos hname]
      exact normal_eq_of_nil h
    · rw [preimages, if_neg hname, Set.singleton_subset_iff] at hx
      rw [address, if_neg hname] at h
      rw [normal, if_neg hname]
      exact normal_eq_of_symbolPointer hinjective hx hy h
  | list items, y, hx, hy, h => listOf_normals_eq items y hx hy h
  | tuple items, y, hx, hy, h => listOf_normals_eq items y hx hy h

theorem listOf_normals_eq : ∀ (xs : List Literal) (y : Literal), allPreimages xs ⊆ known →
    y.preimages ⊆ known → listPointer (addresses xs) = y.address → listOf (normals xs) = y.normal
  | [], y, _, _, h => normal_eq_of_nil h
  | x :: xs, y, hxs, hy, h => by
    cases shape_of_eq h with
    | pair z zs normal address hashed =>
      -- No two of the preimages collide, so the pairs have the same children.
      have hhash := Store.hash_eq_of_nodePointer_eq (h.trans address)
      have hpreimages := hinjective (hxs (Set.mem_insert _ _)) (hy (hashed (Set.mem_insert _ _))) hhash
      obtain ⟨-, hchildren⟩ :=
        nodePreimage_injective (canonical_children x xs) (canonical_children z zs) hpreimages
      obtain ⟨hfirst, hrest⟩ : x.address = z.address ∧
          listPointer (addresses xs) = listPointer (addresses zs) := by simpa using hchildren
      obtain ⟨hx, hxs⟩ := Set.union_subset_iff.1 ((Set.subset_insert _ _).trans hxs)
      obtain ⟨hz, hzs⟩ := Set.union_subset_iff.1 ((Set.subset_insert _ _).trans (hashed.trans hy))
      have hnormals : normals xs = normals zs :=
        listOf_injective (listOf_normals_eq xs (list zs) hxs hzs hrest)
      rw [normal, normals, normals, normal_eq_of_address x z hx hz hfirst, hnormals]

end

end

end Literal

/-- In every store, a datum is taken in as this pointer. -/
def TakenAs (datum : Datum) (p : Pointer) : Prop :=
  ∀ s, Reachable s → ∃ t, Store.intern datum s = .ok p t ∧ Reachable t

theorem Literal.takenAs (x : Literal) : TakenAs x.datum x.address := by
  intro s hs
  obtain ⟨t, ht, hreachable, -⟩ := (Store.settles_intern x).run_eq_ok hs (List.forall_mem_nil _)
  exact ⟨t, ht, hreachable⟩

/-- Data with the same normal form are taken in as one pointer, in any two stores. Data with different
ones are not, unless two of their preimages collide. -/
theorem intern_separates (x y : Literal) :
    ∃ p q, TakenAs x.datum p ∧ TakenAs y.datum q ∧
      (x.normal = y.normal → p = q) ∧
      (Set.InjOn Sponge.hash (x.preimages ∪ y.preimages) → p = q → x.normal = y.normal) := by
  refine ⟨x.address, y.address, x.takenAs, y.takenAs, fun h => ?_, fun hinjective h => ?_⟩
  · rw [← x.address_normal, ← y.address_normal, h]
  · exact Literal.normal_eq_of_address hinjective x y Set.subset_union_left Set.subset_union_right h

/-- A tuple of one number is a list of the number, and no symbol. -/
theorem intern_separates_five :
    (.tuple [.integer (5 + Field.order)] : Literal).normal = (.list [.integer 5] : Literal).normal ∧
    Set.InjOn Sponge.hash ((.tuple [.integer (5 + Field.order)] : Literal).preimages ∪
      (.text "x" : Literal).preimages) ∧
    (∃ p, TakenAs (.items [.integer (5 + Field.order)]) p ∧ TakenAs (.items [.integer 5]) p) ∧
    ∃ p q, TakenAs (.items [.integer (5 + Field.order)]) p ∧ TakenAs (.text "x") q ∧ p ≠ q := by
  have hnormal : (.tuple [.integer (5 + Field.order)] : Literal).normal =
      (.list [.integer 5] : Literal).normal := rfl
  have hinjective : Set.InjOn Sponge.hash ((.tuple [.integer (5 + Field.order)] : Literal).preimages ∪
      (.text "x" : Literal).preimages) := by
    refine injOn_samples.mono ?_
    have hnumber : Pointer.number (5 + Field.order) = .number 5 := rfl
    simp [Literal.preimages, Literal.allPreimages, Literal.address, Literal.addresses, samples, hnumber,
      Set.insert_subset_iff, listPointer]
  refine ⟨hnormal, hinjective, ?_, ?_⟩
  · obtain ⟨p, q, hp, hq, hsame, -⟩ :=
      intern_separates (.tuple [.integer (5 + Field.order)]) (.list [.integer 5])
    exact ⟨p, hp, hsame hnormal ▸ hq⟩
  · obtain ⟨p, q, hp, hq, -, happart⟩ :=
      intern_separates (.tuple [.integer (5 + Field.order)]) (.text "x")
    exact ⟨p, q, hp, hq, fun h => nomatch happart hinjective h⟩

end FieldLisp
