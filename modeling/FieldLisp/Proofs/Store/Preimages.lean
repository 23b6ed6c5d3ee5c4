import FieldLisp.Proofs.Store.Soundness

/-!
# Preimages

What is hashed for a piece of content determines the content, so that no two pieces of content share a
digest unless the hash itself collides:

* `nodePreimage_injective`: a node is determined by what is hashed for it;
* `symbolPreimage_injective`: so is a name, although its bytes are packed;
* `nodePreimage_ne_symbolPreimage`: no node is hashed as a name is.
-/

namespace FieldLisp

/-! ## Nodes -/

/-- Canonical pointers have as many elements each, so a list of them can be cut again. -/
theorem flatMap_elements_injective {cs ds : List Pointer} (hcs : ∀ c ∈ cs, c.Canonical)
    (hds : ∀ d ∈ ds, d.Canonical) (h : cs.flatMap Pointer.elements = ds.flatMap Pointer.elements) :
    cs = ds := by
  induction cs generalizing ds with
  | nil =>
    cases ds with
    | nil => rfl
    | cons d ds =>
      rw [List.flatMap_nil, List.flatMap_cons] at h
      cases h
  | cons c cs ih =>
    cases ds with
    | nil =>
      rw [List.flatMap_nil, List.flatMap_cons] at h
      cases h
    | cons d ds =>
      obtain ⟨hc, hcs⟩ := List.forall_mem_cons.1 hcs
      obtain ⟨hd, hds⟩ := List.forall_mem_cons.1 hds
      rw [List.flatMap_cons, List.flatMap_cons] at h
      obtain ⟨hhead, htail⟩ := List.append_inj h (hc.1.trans hd.1.symm)
      rw [Pointer.elements_injective hhead, ih hcs hds htail]

theorem nodePreimage_injective {tag tag' : Tag} {cs ds : List Pointer}
    (hcs : ∀ c ∈ cs, c.Canonical) (hds : ∀ d ∈ ds, d.Canonical)
    (h : nodePreimage tag cs = nodePreimage tag' ds) : tag = tag' ∧ cs = ds := by
  rw [nodePreimage, nodePreimage, List.cons.injEq] at h
  exact ⟨Tag.value_injective h.1, flatMap_elements_injective hcs hds h.2⟩

/-! ## Names -/

theorem littleEndian_injective {as bs : List UInt8} (hlength : as.length = bs.length)
    (h : Field.littleEndian as = Field.littleEndian bs) : as = bs := by
  induction as generalizing bs with
  | nil =>
    symm at hlength
    exact (List.length_eq_zero_iff.1 hlength).symm
  | cons a as ih =>
    cases bs with
    | nil => cases hlength
    | cons b bs =>
      have hsum : (a.toNat : Int) + 256 * Field.littleEndian as =
          (b.toNat : Int) + 256 * Field.littleEndian bs := h
      have ha := a.toNat_lt
      have hb := b.toNat_lt
      have hbyte : a.toNat = b.toNat := by omega
      have hrest : Field.littleEndian as = Field.littleEndian bs := by omega
      rw [UInt8.toNat_inj.1 hbyte, ih (Nat.succ.inj hlength) hrest]

/-- Blocks of lists that are equally long are equally long. -/
theorem map_blocks_injective {size count : ℕ} {f : List UInt8 → Int}
    (hf : ∀ {as bs : List UInt8}, as.length = bs.length → f as = f bs → as = bs) {as bs : List UInt8}
    (hlength : as.length = bs.length)
    (h : (blocks size count as).map f = (blocks size count bs).map f) :
    blocks size count as = blocks size count bs := by
  induction count generalizing as bs with
  | zero => rfl
  | succ count ih =>
    rw [blocks, blocks, List.map_cons, List.map_cons, List.cons.injEq] at h
    have hblock : as.take size = bs.take size :=
      hf (by rw [List.length_take, List.length_take, hlength]) h.1
    have hrest := ih (by rw [List.length_drop, List.length_drop, hlength]) h.2
    rw [blocks, blocks, hblock, hrest]

theorem packBytes_injective {as bs : List UInt8} (hlength : as.length = bs.length)
    (h : Field.packBytes as = Field.packBytes bs) : as = bs := by
  have whole (xs : List UInt8) : (blocks Field.bytesPerElement
      ((xs.length + Field.bytesPerElement - 1) / Field.bytesPerElement) xs).flatten = xs := by
    refine flatten_blocks ?_
    simp only [Field.bytesPerElement]
    omega
  unfold Field.packBytes at h
  rw [hlength] at h
  have hblocks := map_blocks_injective littleEndian_injective hlength h
  rw [← whole as, ← whole bs, hlength, hblocks]

theorem toList_loop (bytes : ByteArray) (i : ℕ) (taken : List UInt8) :
    ByteArray.toList.loop bytes i taken = taken.reverse ++ bytes.data.toList.drop i := by
  fun_induction ByteArray.toList.loop bytes i taken with
  | case1 i taken hi ih =>
    have hi : i < bytes.data.toList.length := hi
    have hget : bytes.get! i = bytes.data.toList[i] := by
      change bytes.data[i]! = _
      rw [getElem!_pos bytes.data i (by simpa using hi)]
      rfl
    rw [ih, List.reverse_cons, List.append_assoc, List.drop_eq_getElem_cons hi, hget]
    rfl
  | case2 i taken hi =>
    rw [List.drop_eq_nil_of_le, List.append_nil]
    rw [Array.length_toList]
    exact not_lt.1 hi

theorem toUTF8_toList_injective {name name' : String}
    (h : name.toUTF8.toList = name'.toUTF8.toList) : name = name' := by
  rw [ByteArray.toList, ByteArray.toList, toList_loop, toList_loop] at h
  exact String.toByteArray_inj.1 (ByteArray.ext (Array.toList_inj.1 h))

theorem symbolPreimage_injective {name name' : String}
    (h : symbolPreimage name = symbolPreimage name') : name = name' := by
  simp only [symbolPreimage, List.cons.injEq, true_and] at h
  exact toUTF8_toList_injective (packBytes_injective (Int.ofNat_inj.1 h.1) h.2)

/-- No node has the tag of a symbol. -/
theorem nodePreimage_ne_symbolPreimage {tag : Tag} {n : ℕ} (htag : tag.arity? = some n)
    (cs : List Pointer) (name : String) : nodePreimage tag cs ≠ symbolPreimage name := by
  intro h
  rw [nodePreimage, symbolPreimage, List.cons.injEq] at h
  rw [Tag.value_injective h.1] at htag
  cases htag

end FieldLisp
