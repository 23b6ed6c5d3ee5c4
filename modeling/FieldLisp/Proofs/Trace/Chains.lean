import FieldLisp.Proofs.Domains
import FieldLisp.Proofs.Trace.Folding

/-!
# What a receipt binds

The last hash of a chain stands for all that went into it, as long as the hash does not collide on what the
chain hashes:

* `Text.toList_of_hexBytes?`: small digits are the ones that writing the bytes again gives;
* `Receipt.hashed`, `Receipt.chain_eq_map`: what a chain hashes, and that its hashes are those of it;
* `Receipt.endOf_injective`: two chains that end alike hash the same, by induction from their ends;
* `Receipt.chain_binds`: they have one shape, one start and the same links.
-/

namespace FieldLisp

/-! ## Small hexadecimal digits -/

namespace Text

/-- A hexadecimal digit that is not a capital letter. -/
def IsSmallDigit (c : Char) : Prop := ('0' ≤ c ∧ c ≤ '9') ∨ ('a' ≤ c ∧ c ≤ 'f')

instance (c : Char) : Decidable (IsSmallDigit c) := inferInstanceAs (Decidable (_ ∨ _))

/-- Bytes in small digits. -/
def smallDigits (bytes : List UInt8) : List Char :=
  bytes.flatMap fun byte => [(byte.toNat / 16).digitChar, (byte.toNat % 16).digitChar]

theorem length_smallDigits (bytes : List UInt8) : (smallDigits bytes).length = 2 * bytes.length := by
  induction bytes with
  | nil => rfl
  | cons byte bytes ih =>
    rw [smallDigits, List.flatMap_cons, List.length_append, ← smallDigits, ih, List.length_cons, List.length_cons]
    simp only [List.length_nil, List.length_cons]
    omega

/-- A small digit is the digit of its value. -/
theorem IsSmallDigit.exists_value {c : Char} (h : IsSmallDigit c) :
    ∃ n < 16, hexDigit? c = some n ∧ n.digitChar = c := by
  have hvalues : ∀ n < 16, hexDigit? n.digitChar = some n := by decide
  have hdigits : ∀ code < 103, (48 ≤ code ∧ code ≤ 57 ∨ 97 ≤ code ∧ code ≤ 102) →
      ∃ n < 16, n.digitChar = Char.ofNat code := by decide
  have hcode : 48 ≤ c.toNat ∧ c.toNat ≤ 57 ∨ 97 ≤ c.toNat ∧ c.toNat ≤ 102 := h
  obtain ⟨n, hn, hc⟩ := hdigits c.toNat (by omega) hcode
  rw [Char.ofNat_toNat] at hc
  exact ⟨n, hn, by rw [← hc, hvalues n hn], hc⟩

/-- Small digits that can be read are the digits of the bytes that they write. -/
theorem eq_smallDigits {cs : List Char} {bytes : List UInt8} (hdigits : ∀ c ∈ cs, IsSmallDigit c)
    (h : readHex none cs = some bytes) : cs = smallDigits bytes := by
  match cs with
  | [] =>
    cases h
    rfl
  | [c] =>
    obtain ⟨n, -, hn, -⟩ := (hdigits c (by simp)).exists_value
    simp [readHex, hn] at h
  | c :: d :: rest =>
    obtain ⟨high, hhigh, hreadHigh, hc⟩ := (hdigits c (by simp)).exists_value
    obtain ⟨low, hlow, hreadLow, hd⟩ := (hdigits d (by simp)).exists_value
    simp only [readHex, hreadHigh, hreadLow, Option.map_eq_some_iff] at h
    obtain ⟨others, hothers, rfl⟩ := h
    have ih : rest = smallDigits others := eq_smallDigits (fun x hx => hdigits x (by simp [hx])) hothers
    have hvalue : (UInt8.ofNat (16 * high + low)).toNat = 16 * high + low := by
      rw [UInt8.toNat_ofNat']
      omega
    have hquotient : (16 * high + low) / 16 = high := by omega
    have hremainder : (16 * high + low) % 16 = low := by omega
    rw [smallDigits, List.flatMap_cons, ← smallDigits, ← ih, hvalue, hquotient, hremainder, hc, hd]
    rfl

end Text

namespace Receipt

variable {shape shape' : String} {initial initial' : Commitment} {links links' : List Link}

/-! ## Shapes -/

/-- The shape of circuits, in small digits, or none at all. -/
def IsShape (shape : String) : Prop :=
  shape = "" ∨ shape.length = 2 * shapeSize ∧ ∀ c ∈ shape.toList, Text.IsSmallDigit c

theorem IsShape.digits (h : IsShape shape) : ∀ c ∈ shape.toList, Text.IsSmallDigit c := by
  rcases h with rfl | ⟨-, h⟩
  · simp
  · exact h

theorem IsShape.length (h : IsShape shape) : shape.toList.length = 0 ∨ shape.toList.length = 2 * shapeSize := by
  rcases h with rfl | ⟨h, -⟩
  · left
    rfl
  · right
    exact h

/-- A shape writes no bytes or those of a digest, and is what they are written as. -/
theorem IsShape.exists_bytes (h : IsShape shape) : ∃ bytes, Text.hexBytes? shape = some bytes ∧
    shape.toList = Text.smallDigits bytes ∧ (bytes.length = 0 ∨ bytes.length = shapeSize) := by
  have heven : Even shape.toList.length := by
    rcases h.length with h | h <;> rw [h]
    · exact Even.zero
    · exact even_two_mul _
  have hread : (Text.readHex none shape.toList).isSome := Text.isSome_readHex heven fun c hc => by
    obtain ⟨n, -, hn, -⟩ := (h.digits c hc).exists_value
    rw [hn]
    rfl
  obtain ⟨bytes, hbytes⟩ := Option.isSome_iff_exists.1 hread
  have hdigits := Text.eq_smallDigits h.digits hbytes
  have hlength := h.length
  rw [hdigits, Text.length_smallDigits] at hlength
  exact ⟨bytes, hbytes, hdigits, by omega⟩

/-! ## Preimages -/

/-- What a chain hashes that opens with some elements. -/
def hashedFrom (first : List Int) : List Link → List (List Int)
  | [] => [first]
  | link :: links => first :: hashedFrom (stepPreimage (Sponge.hash first) link) links

/-- What a chain hashes, first its opening and then a preimage for each link. -/
def hashed (shape : String) (initial : Commitment) (links : List Link) : List (List Int) :=
  hashedFrom (initPreimage ((Text.hexBytes? shape).getD []) initial) links

theorem map_hashedFrom (first : List Int) (links : List Link) :
    (hashedFrom first links).map Sponge.hash = extend (Sponge.hash first) links := by
  induction links generalizing first with
  | nil => rfl
  | cons link links ih => rw [hashedFrom, List.map_cons, ih, extend]

/-- The hashes of a chain are those of what it hashes. -/
theorem chain_eq_map {bytes : List UInt8} (hbytes : Text.hexBytes? shape = some bytes) :
    chain shape initial links = .ok ((hashed shape initial links).map Sponge.hash) := by
  rw [chain, hashed, map_hashedFrom, hbytes]
  rfl

theorem getLast?_hashed {bytes : List UInt8} (hbytes : Text.hexBytes? shape = some bytes) :
    ((hashed shape initial links).map Sponge.hash).getLast? =
      some (endOf (Sponge.hash (initPreimage bytes initial)) links) := by
  rw [hashed, hbytes, map_hashedFrom]
  exact getLast?_extend _ _

theorem mem_hashedFrom (first : List Int) (links : List Link) : first ∈ hashedFrom first links := by
  cases links <;> exact List.mem_cons_self

theorem hashedFrom_append (first : List Int) (links : List Link) (link : Link) :
    hashedFrom first (links ++ [link]) =
      hashedFrom first links ++ [stepPreimage (endOf (Sponge.hash first) links) link] := by
  induction links generalizing first with
  | nil => rfl
  | cons head links ih =>
    rw [List.cons_append, hashedFrom, ih, hashedFrom, List.cons_append]
    rfl

theorem endOf_append (current : Commitment) (links : List Link) (link : Link) :
    endOf current (links ++ [link]) = Sponge.hash (stepPreimage (endOf current links) link) :=
  List.foldl_append

/-! ## Injectivity -/

theorem initPreimage_ne_stepPreimage (bytes : List UInt8) (previous : Commitment) (link : Link) :
    initPreimage bytes initial ≠ stepPreimage previous link := by
  intro h
  have hdomains : Commitment.initDomain = Commitment.stepDomain := (List.cons.inj h).1
  exact absurd hdomains (by decide)

theorem length_packBytes (bytes : List UInt8) :
    (Field.packBytes bytes).length = (bytes.length + 6) / 7 := by
  simp [Field.packBytes, Field.bytesPerElement]

/-- The opening of a chain tells whether there is a shape, so all of it can be read back. -/
theorem IsShape.eq_of_initPreimage {bytes bytes' : List UInt8} (hshape : IsShape shape) (hshape' : IsShape shape')
    (hbytes : Text.hexBytes? shape = some bytes) (hbytes' : Text.hexBytes? shape' = some bytes')
    (h : initPreimage bytes initial = initPreimage bytes' initial') : shape = shape' ∧ initial = initial' := by
  obtain ⟨read, hread, hdigits, hlength⟩ := hshape.exists_bytes
  obtain ⟨read', hread', hdigits', hlength'⟩ := hshape'.exists_bytes
  obtain rfl : bytes = read := Option.some.inj (hbytes.symm.trans hread)
  obtain rfl : bytes' = read' := Option.some.inj (hbytes'.symm.trans hread')
  have hequal : bytes.length = bytes'.length := by
    have hlengths := congrArg List.length h
    simp only [initPreimage, List.length_cons, List.length_append, length_packBytes, Digest.length_toList] at hlengths
    simp only [shapeSize] at hlength hlength'
    omega
  obtain ⟨rfl, hinitial⟩ := initPreimage_injective hequal h
  exact ⟨String.toList_inj.1 (hdigits.trans hdigits'.symm), hinitial⟩

/-- Two chains that end alike open alike and have the same links. The induction goes from their ends: what was
hashed last is the same, and it is never both an opening and a link, so that no chain runs out before the
other. -/
theorem endOf_injective {bytes bytes' : List UInt8}
    (hinjective : Set.InjOn Sponge.hash {xs | xs ∈ hashedFrom (initPreimage bytes initial) links ∨
      xs ∈ hashedFrom (initPreimage bytes' initial') links'})
    (h : endOf (Sponge.hash (initPreimage bytes initial)) links =
      endOf (Sponge.hash (initPreimage bytes' initial')) links') :
    initPreimage bytes initial = initPreimage bytes' initial' ∧ links = links' := by
  have hfirst := mem_hashedFrom (initPreimage bytes initial)
  have hfirst' := mem_hashedFrom (initPreimage bytes' initial')
  induction links using List.reverseRecOn generalizing links' with
  | nil =>
    cases links' using List.reverseRecOn with
    | nil => exact ⟨hinjective (.inl (hfirst _)) (.inr (hfirst' _)) h, rfl⟩
    | append_singleton links' link' =>
      rw [endOf_append] at h
      rw [hashedFrom_append] at hinjective
      have hlast := hinjective (.inl (hfirst _)) (.inr (List.mem_append_right _ (by simp))) h
      exact absurd hlast (initPreimage_ne_stepPreimage _ _ _)
  | append_singleton links link ih =>
    cases links' using List.reverseRecOn with
    | nil =>
      rw [endOf_append] at h
      rw [hashedFrom_append] at hinjective
      have hlast := hinjective (.inl (List.mem_append_right _ (by simp))) (.inr (hfirst' _)) h
      exact absurd hlast.symm (initPreimage_ne_stepPreimage _ _ _)
    | append_singleton links' link' =>
      rw [endOf_append, endOf_append] at h
      rw [hashedFrom_append, hashedFrom_append] at hinjective
      have hlast := hinjective (.inl (List.mem_append_right _ (by simp)))
        (.inr (List.mem_append_right _ (by simp))) h
      obtain ⟨hprevious, rfl⟩ := stepPreimage_injective hlast
      have hshorter : Set.InjOn Sponge.hash {xs | xs ∈ hashedFrom (initPreimage bytes initial) links ∨
          xs ∈ hashedFrom (initPreimage bytes' initial') links'} := by
        apply hinjective.mono
        rintro xs (hxs | hxs)
        · exact .inl (List.mem_append_left _ hxs)
        · exact .inr (List.mem_append_left _ hxs)
      obtain ⟨hopening, rfl⟩ := ih hshorter hprevious
      exact ⟨hopening, rfl⟩

/-- A receipt binds the whole chain. Both chains exist, and they end in the same hash only if they have the
same shape, the same start and the same links, unless the hash collides on what the two of them hash. -/
theorem chain_binds (hshape : IsShape shape) (hshape' : IsShape shape')
    (hinjective : Set.InjOn Sponge.hash
      {xs | xs ∈ hashed shape initial links ∨ xs ∈ hashed shape' initial' links'}) :
    ∃ receipt receipt', chain shape initial links = .ok ((hashed shape initial links).map Sponge.hash) ∧
      ((hashed shape initial links).map Sponge.hash).getLast? = some receipt ∧
      chain shape' initial' links' = .ok ((hashed shape' initial' links').map Sponge.hash) ∧
      ((hashed shape' initial' links').map Sponge.hash).getLast? = some receipt' ∧
      (receipt = receipt' ↔ shape = shape' ∧ initial = initial' ∧ links = links') := by
  obtain ⟨bytes, hbytes, -⟩ := hshape.exists_bytes
  obtain ⟨bytes', hbytes', -⟩ := hshape'.exists_bytes
  refine ⟨_, _, chain_eq_map hbytes, getLast?_hashed hbytes, chain_eq_map hbytes', getLast?_hashed hbytes', ?_⟩
  constructor
  · intro h
    rw [hashed, hashed, hbytes, hbytes'] at hinjective
    obtain ⟨hopening, hlinks⟩ := endOf_injective hinjective h
    obtain ⟨hshapes, hinitials⟩ := hshape.eq_of_initPreimage hshape' hbytes hbytes' hopening
    exact ⟨hshapes, hinitials, hlinks⟩
  · rintro ⟨rfl, rfl, rfl⟩
    rw [Option.some.inj (hbytes.symm.trans hbytes')]

/-! A chain of one link without a shape, and a chain of two links from the same start with a shape. -/

namespace Prolonged

def start : Commitment := ⟨1, 2, 3, 4⟩
def link : Link := (start, ⟨5, 6, 7, 8⟩)
def digits : String := String.ofList (List.replicate 64 'f')

/-- Applies a function to what both chains hash. -/
def withHashed {α : Type} (k : List (List Int) → α) : α :=
  let first := initPreimage [] start
  let first' := initPreimage (List.replicate 32 255) start
  let next (previous : List Int) := Commitment.stepDomain :: (previous ++ link.1.toList ++ link.2.toList)
  withDigest first fun current => withDigest first' fun current' => withDigest (next current') fun current'' =>
    k [first, next current, first', next current', next current'']

theorem toList_digits : digits.toList = List.replicate 64 'f' := String.toList_ofList

theorem hexBytes?_digits : Text.hexBytes? digits = some (List.replicate 32 255) := by
  rw [Text.hexBytes?, toList_digits]
  decide +kernel

theorem withHashed_eq {α : Type} (k : List (List Int) → α) :
    withHashed k = k (hashed "" start [link] ++ hashed digits start [link, link]) := by
  have hnone : Text.hexBytes? "" = some [] := by rfl
  simp only [hashed, hnone, hexBytes?_digits, withHashed, withDigest_eq, hashedFrom, Option.getD_some,
    stepPreimage, List.cons_append, List.nil_append]

theorem injOn_hashed : Set.InjOn Sponge.hash
    {xs | xs ∈ hashed "" start [link] ∨ xs ∈ hashed digits start [link, link]} := by
  have hnonneg : withHashed (fun preimages => decide (∀ xs ∈ preimages, ∀ x ∈ xs, 0 ≤ x)) = true := by
    decide +kernel
  have hdistinct : withHashed (fun preimages =>
      Permutation.Evaluation.forceList (preimages.map digestHead) fun heads => decide heads.Nodup) = true := by
    decide +kernel
  rw [withHashed_eq, decide_eq_true_eq] at hnonneg
  rw [withHashed_eq, Permutation.Evaluation.forceList_eq, decide_eq_true_eq] at hdistinct
  simpa only [List.mem_append] using hash_injOn hnonneg hdistinct

end Prolonged

/-- The longer chain does not end as the shorter one does. -/
theorem chain_binds_prolonged :
    IsShape "" ∧ IsShape Prolonged.digits ∧
    Set.InjOn Sponge.hash {xs | xs ∈ hashed "" Prolonged.start [Prolonged.link] ∨
      xs ∈ hashed Prolonged.digits Prolonged.start [Prolonged.link, Prolonged.link]} ∧
    (hashed "" Prolonged.start [Prolonged.link]).getLast?.map Sponge.hash ≠
      (hashed Prolonged.digits Prolonged.start [Prolonged.link, Prolonged.link]).getLast?.map Sponge.hash := by
  have hnone : IsShape "" := .inl rfl
  have hshape : IsShape Prolonged.digits := by
    right
    rw [← String.length_toList, Prolonged.toList_digits]
    constructor
    · rw [List.length_replicate, shapeSize]
    · intro c hc
      rw [List.eq_of_mem_replicate hc]
      decide
  refine ⟨hnone, hshape, Prolonged.injOn_hashed, ?_⟩
  obtain ⟨receipt, receipt', -, hlast, -, hlast', hbinds⟩ := chain_binds hnone hshape Prolonged.injOn_hashed
  rw [List.getLast?_map] at hlast hlast'
  rw [hlast, hlast']
  intro h
  exact absurd (hbinds.1 (Option.some.inj h)).2.2 (by decide)

end Receipt

end FieldLisp
