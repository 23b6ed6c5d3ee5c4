import FieldLisp.Digest
import FieldLisp.Field
import FieldLisp.Tag

/-! # Pointers

A pointer is a tag and the elements of a digest. For most tags the digest names content that a store
holds; for the immediate tags its first element is the value itself, and nothing else backs it. Two
pointers are equal when tag and digest are: equality never looks anything up. A pointer that was
handed out has four elements in its digest; one that was written down may have any number. -/

namespace FieldLisp

structure Pointer where
  tag : Tag
  digest : List Int
  deriving DecidableEq, Repr, Inhabited

/-- Elements of a pointer: its tag and four of a digest. -/
def pointerSize : Nat := 5

namespace Pointer

instance : Hashable Pointer := ⟨fun p => mixHash (hash p.tag.value) (hash (p.digest.headD 0))⟩

/-- Tag, then digest. -/
def elements (p : Pointer) : List Int := p.tag.value :: p.digest

/-- A pointer is canonical when it has all its elements and those of its digest are canonical. -/
def Canonical (p : Pointer) : Prop :=
  p.elements.length = pointerSize ∧ ∀ x ∈ p.digest, Field.Canonical x

instance (p : Pointer) : Decidable p.Canonical := by unfold Canonical; infer_instance

/-- The pointer with a tag and a digest of four. -/
def ofDigest (tag : Tag) (digest : Digest Int) : Pointer := ⟨tag, digest.toList⟩

/-- A pointer that carries its value in the first element of its digest. -/
def immediate (tag : Tag) (value : Int) : Pointer :=
  ofDigest tag (.carrying (Field.reduce value))

/-- Numbers are always immediate, for one element holds any of them. -/
def number (n : Int) : Pointer := immediate .number n

def error (code : ErrorCode) : Pointer := immediate .error code.value

def nil : Pointer := immediate .nil 0
def outermost : Pointer := immediate .outermost 0
def terminal : Pointer := immediate .terminal 0
def failed : Pointer := immediate .failed 0

theorem length_ofDigest (tag : Tag) (digest : Digest Int) :
    (ofDigest tag digest).elements.length = pointerSize := rfl

theorem elements_injective {p q : Pointer} (h : p.elements = q.elements) : p = q := by
  obtain ⟨ptag, pdigest⟩ := p
  obtain ⟨qtag, qdigest⟩ := q
  rw [elements, elements, List.cons.injEq] at h
  exact (Pointer.mk.injEq ..).mpr ⟨Tag.value_injective h.1, h.2⟩

theorem immediate_canonical (tag : Tag) (value : Int) : (immediate tag value).Canonical := by
  refine ⟨length_ofDigest .., fun x hx => ?_⟩
  simp only [immediate, ofDigest, Digest.carrying, Digest.toList, List.mem_cons, List.not_mem_nil,
    or_false] at hx
  rcases hx with rfl | rfl | rfl | rfl
  · exact Field.reduce_canonical value
  all_goals decide

end Pointer

/-- An element in lower-case hexadecimal, filled up with zeros to sixteen places, sign included. -/
def hexadecimal (x : Int) : String :=
  let digits := Nat.toDigits 16 x.natAbs
  let sign := if x < 0 then ["-"] else []
  let zeros := List.replicate (16 - sign.length - digits.length) '0'
  String.join sign ++ String.ofList (zeros ++ digits)

end FieldLisp
