import FieldLisp.Proofs.Store.Distinct
import FieldLisp.Trace.Receipt

/-!
# Domains of the hash

One hash serves nodes, names, immediate values, states and receipt chains. The first element says which of
them is hashed, and what follows can be read back:

* `Hashed`, `Hashed.elements`: what is hashed, and the elements that are;
* `Kind.ofFirst_elements`: the first element decides on the kind;
* `Hashed.elements_injective`: the elements decide on everything;
* `Store.digest_eq`, `Store.pointer_hashed`: a digest in a store is such a hash, of what the pointer stands for;
* `digests_separate`: so digests are distinct, unless the hash itself collides.
-/

namespace FieldLisp

/-- A kind of things that are hashed. -/
inductive Kind where
  | node | symbol | immediate | state | opening | link
  deriving DecidableEq

/-- Something that is hashed. -/
inductive Hashed where
  | node (tag : Tag) (children : List Pointer)
  | symbol (name : String)
  | immediate (p : Pointer)
  | state (elements : List Int)
  /-- The start of a receipt chain. -/
  | opening (shape : List UInt8) (initial : Commitment)
  /-- The next link of a receipt chain. -/
  | link (previous : Commitment) (ends : Link)

/-- Bytes of the digest of a layout. -/
def shapeSize : ℕ := 32

namespace Hashed

def kind : Hashed → Kind
  | node _ _ => .node
  | symbol _ => .symbol
  | immediate _ => .immediate
  | state _ => .state
  | opening _ _ => .opening
  | link _ _ => .link

/-- The elements that are hashed. -/
def elements : Hashed → List Int
  | node tag children => nodePreimage tag children
  | symbol name => symbolPreimage name
  | immediate p => p.elements
  | state elements => Commitment.stateDomain :: elements
  | opening shape initial => Receipt.initPreimage shape initial
  | link previous ends => Receipt.stepPreimage previous ends

/-- Only tags with children are those of nodes, and only immediate pointers are hashed as they are. The shape
that a chain starts from is a digest. -/
def Proper : Hashed → Prop
  | node tag children => tag.arity?.isSome = true ∧ ∀ c ∈ children, c.Canonical
  | immediate p => p.tag.isImmediate = true
  | opening shape _ => shape.length = shapeSize
  | symbol _ | state _ | link _ _ => True

/-- The pointer of what a store may hold. -/
def pointer : Hashed → Pointer
  | node tag children => Store.nodePointer tag children
  | symbol name => symbolPointer name
  | immediate p => p
  | state _ | opening _ _ | link _ _ => .nil

end Hashed

/-- The kind of things with a tag. -/
def Kind.ofTag (tag : Tag) : Kind :=
  if tag = .symbol then .symbol else if tag.isImmediate then .immediate else .node

/-- The kind of things that are hashed with this first element. -/
def Kind.ofFirst (first : Int) : Option Kind :=
  match Tag.ofValue? first with
  | some tag => some (ofTag tag)
  | none =>
    if first = Commitment.stateDomain then some .state
    else if first = Commitment.initDomain then some .opening
    else if first = Commitment.stepDomain then some .link
    else none

theorem Kind.ofFirst_value (tag : Tag) : ofFirst tag.value = some (ofTag tag) := by
  rw [ofFirst, Tag.ofValue?_value]

theorem Kind.ofTag_node {tag : Tag} (h : tag.arity?.isSome = true) : ofTag tag = .node := by
  cases tag <;> first | rfl | cases h

theorem Kind.ofTag_immediate {tag : Tag} (h : tag.isImmediate = true) : ofTag tag = .immediate := by
  cases tag <;> first | rfl | cases h

/-- The first element decides on the kind. -/
theorem Kind.ofFirst_elements {a : Hashed} (ha : a.Proper) : ofFirst (a.elements.headD 0) = some a.kind := by
  cases a with
  | node tag children => exact (ofFirst_value tag).trans (congrArg some (ofTag_node ha.1))
  | symbol name => exact ofFirst_value .symbol
  | immediate p => exact (ofFirst_value p.tag).trans (congrArg some (ofTag_immediate ha))
  | state elements => rfl
  | opening shape initial => rfl
  | link previous ends => rfl

namespace Receipt

theorem initPreimage_injective {shape shape' : List UInt8} {initial initial' : Commitment}
    (hlength : shape.length = shape'.length) (h : initPreimage shape initial = initPreimage shape' initial') :
    shape = shape' ∧ initial = initial' := by
  rw [initPreimage, initPreimage, List.cons.injEq] at h
  obtain ⟨hshape, hinitial⟩ := List.append_inj' h.2 rfl
  exact ⟨packBytes_injective hlength hshape, Digest.toList_inj.1 hinitial⟩

theorem stepPreimage_injective {previous previous' : Commitment} {link link' : Link}
    (h : stepPreimage previous link = stepPreimage previous' link') : previous = previous' ∧ link = link' := by
  rw [stepPreimage, stepPreimage, List.cons.injEq] at h
  obtain ⟨hfirst, houtput⟩ := List.append_inj' h.2 rfl
  obtain ⟨hprevious, hinput⟩ := List.append_inj' hfirst rfl
  exact ⟨Digest.toList_inj.1 hprevious, Prod.ext (Digest.toList_inj.1 hinput) (Digest.toList_inj.1 houtput)⟩

end Receipt

/-- The elements decide on what is hashed. -/
theorem Hashed.elements_injective {a b : Hashed} (ha : a.Proper) (hb : b.Proper) (h : a.elements = b.elements) :
    a = b := by
  have hkind : a.kind = b.kind := by
    have hfirst := Kind.ofFirst_elements ha
    rw [h, Kind.ofFirst_elements hb] at hfirst
    exact (Option.some.inj hfirst).symm
  cases a with
  | node tag cs =>
    cases b with
    | node tag' ds =>
      obtain ⟨rfl, rfl⟩ := nodePreimage_injective ha.2 hb.2 h
      rfl
    | _ => cases hkind
  | symbol name =>
    cases b with
    | symbol name' => rw [symbolPreimage_injective h]
    | _ => cases hkind
  | immediate p =>
    cases b with
    | immediate q => rw [Pointer.elements_injective h]
    | _ => cases hkind
  | state elements =>
    cases b with
    | state elements' => rw [(List.cons.inj h).2]
    | _ => cases hkind
  | opening shape initial =>
    cases b with
    | opening shape' initial' =>
      obtain ⟨rfl, rfl⟩ := Receipt.initPreimage_injective (Eq.trans ha hb.symm) h
      rfl
    | _ => cases hkind
  | link previous ends =>
    cases b with
    | link previous' ends' =>
      obtain ⟨rfl, rfl⟩ := Receipt.stepPreimage_injective h
      rfl
    | _ => cases hkind

/-! ## Digests in a store -/

namespace Store

variable {s : Store} {p q : Pointer}

/-- What was hashed for what a pointer stands for. -/
def hashed (s : Store) (p : Pointer) : Hashed :=
  if p.tag.isImmediate then .immediate p
  else
    match s.nodes[p]? with
    | some children => .node p.tag children
    | none => .symbol (s.names.getD p "")

/-- A pointer in the store is immediate, or that of a node or of a symbol. -/
theorem contains_cases (hs : Reachable s) (hp : s.contains p = true) :
    p.tag.isImmediate = true ∧ s.hashed p = .immediate p ∨
    (∃ cs, p.tag.arity?.isSome = true ∧ (∀ c ∈ cs, c.Canonical) ∧ p = nodePointer p.tag cs ∧
      s.hashed p = .node p.tag cs) ∨
    ∃ name, p = symbolPointer name ∧ s.hashed p = .symbol name := by
  by_cases himmediate : p.tag.isImmediate = true
  · exact .inl ⟨himmediate, by rw [hashed, if_pos himmediate]⟩
  right
  cases hnode : s.nodes[p]? with
  | some cs =>
    obtain ⟨harity, hpointer, hchildren⟩ := (reachable_sound hs).node hnode
    refine .inl ⟨cs, by rw [harity]; rfl, fun c hc => (hchildren c hc).canonical, hpointer, ?_⟩
    rw [hashed, if_neg himmediate, hnode]
  | none =>
    have hname : ∃ name, s.names[p]? = some name := by
      rw [← Option.isSome_iff_exists, ← Std.HashMap.contains_eq_isSome_getElem?]
      simpa [contains, himmediate, Std.HashMap.contains_eq_isSome_getElem? (m := s.nodes), hnode] using hp
    obtain ⟨name, hname⟩ := hname
    refine .inr ⟨name, (reachable_indexed hs).name hname, ?_⟩
    rw [hashed, if_neg himmediate, hnode, Std.HashMap.getD_eq_getD_getElem?, hname]
    rfl

theorem proper_hashed (hs : Reachable s) (hp : s.contains p = true) : (s.hashed p).Proper := by
  obtain ⟨himmediate, h⟩ | ⟨cs, harity, hchildren, -, h⟩ | ⟨name, -, h⟩ := contains_cases hs hp
  · rw [h]
    exact himmediate
  · rw [h]
    exact ⟨harity, hchildren⟩
  · rw [h]
    trivial

/-- What was hashed for a pointer decides on the pointer. -/
theorem pointer_hashed (hs : Reachable s) (hp : s.contains p = true) : (s.hashed p).pointer = p := by
  obtain ⟨-, h⟩ | ⟨cs, -, -, hpointer, h⟩ | ⟨name, hpointer, h⟩ := contains_cases hs hp
  · rw [h]
    rfl
  · rw [h]
    exact hpointer.symm
  · rw [h]
    exact hpointer.symm

/-- The digest of a pointer is the hash of what it stands for. -/
theorem digest_eq (hs : Reachable s) (hp : s.contains p = true) :
    s.digest p = .ok (Sponge.hash (s.hashed p).elements).toList := by
  rw [digest, if_pos hp]
  obtain ⟨himmediate, h⟩ | ⟨cs, harity, -, hpointer, h⟩ | ⟨name, hpointer, h⟩ := contains_cases hs hp
  · rw [h, if_pos himmediate]
    rfl
  · have htag : ¬p.tag.isImmediate = true := fun himmediate => by
      cases (Kind.ofTag_node harity).symm.trans (Kind.ofTag_immediate himmediate)
    rw [h, if_neg htag]
    exact congrArg (fun p => Except.ok p.digest) hpointer
  · have htag : ¬p.tag.isImmediate = true := by
      rw [hpointer]
      exact Bool.false_ne_true
    rw [h, if_neg htag]
    exact congrArg (fun p => Except.ok p.digest) hpointer

end Store

/-! ## Separation -/

theorem Hashed.eq_of_hash_eq {a b : Hashed} (hinjective : Set.InjOn Sponge.hash {a.elements, b.elements})
    (ha : a.Proper) (hb : b.Proper) (h : Sponge.hash a.elements = Sponge.hash b.elements) : a = b :=
  Hashed.elements_injective ha hb (hinjective (.inl rfl) (.inr rfl) h)

theorem State.elements_injective {a b : State} (ha : a.Canonical) (hb : b.Canonical) (h : a.elements = b.elements) :
    a = b := by
  have hpointers (s : State) : s.elements = s.pointers.flatMap Pointer.elements := by
    simp [State.elements, State.pointers]
  have hcanonical {s : State} (hs : s.Canonical) : ∀ p ∈ s.pointers, p.Canonical := by
    simpa [State.pointers, State.Canonical] using hs
  rw [hpointers, hpointers] at h
  have hlists := flatMap_elements_injective (hcanonical ha) (hcanonical hb) h
  obtain ⟨expr, env, cont⟩ := a
  obtain ⟨expr', env', cont'⟩ := b
  simpa [State.pointers] using hlists

/-- Things that are hashed with the same elements are the same, of whatever kinds they are. Two pointers in a
store that operations built have the same digest only if they are the same, and so have two canonical states
the same commitment, unless the hash collides on the two. -/
theorem digests_separate :
    (∀ a b : Hashed, a.Proper → b.Proper → a.elements = b.elements → a = b) ∧
    (∀ s, Store.Reachable s → ∀ p q, s.contains p = true → s.contains q = true →
      Set.InjOn Sponge.hash {(s.hashed p).elements, (s.hashed q).elements} →
      s.digest p = s.digest q → p = q) ∧
    ∀ a b : State, a.Canonical → b.Canonical →
      Set.InjOn Sponge.hash {Commitment.stateDomain :: a.elements, Commitment.stateDomain :: b.elements} →
      Commitment.ofState a = Commitment.ofState b → a = b := by
  refine ⟨fun a b => Hashed.elements_injective, ?_, ?_⟩
  · intro s hs p q hp hq hinjective hdigest
    rw [Store.digest_eq hs hp, Store.digest_eq hs hq, Except.ok.injEq, Digest.toList_inj] at hdigest
    have hhashed := Hashed.eq_of_hash_eq hinjective (Store.proper_hashed hs hp) (Store.proper_hashed hs hq) hdigest
    rw [← Store.pointer_hashed hs hp, hhashed, Store.pointer_hashed hs hq]
  · intro a b ha hb hinjective hcommitment
    rw [Commitment.ofState_of_canonical ha, Commitment.ofState_of_canonical hb, Except.ok.injEq] at hcommitment
    have hhashed := Hashed.eq_of_hash_eq (a := .state a.elements) (b := .state b.elements) hinjective trivial
      trivial hcommitment
    exact State.elements_injective ha hb (Hashed.state.inj hhashed)

/-- The number one and the first error code carry the same value, but they and the states that start from them
are told apart. -/
theorem digests_separate_one :
    (Hashed.immediate (.number 1)).elements ≠ (Hashed.immediate (.error .unboundVariable)).elements ∧
    (Store.empty false).digest (.number 1) ≠ (Store.empty false).digest (.error .unboundVariable) ∧
    Commitment.ofState (.initial (.number 1) .nil) ≠ Commitment.ofState (.initial (.error .unboundVariable) .nil) := by
  have hdiffer : Pointer.number 1 ≠ .error .unboundVariable := by decide
  have hcanonical (p : Pointer) (hp : p.Canonical) : (State.initial p .nil).Canonical :=
    ⟨hp, Pointer.immediate_canonical _ _, Pointer.immediate_canonical _ _⟩
  have hinjective (preimages : List (List Int)) (hnonneg : ∀ xs ∈ preimages, ∀ x ∈ xs, 0 ≤ x)
      (hdistinct : (preimages.map digestHead).Nodup) {xs ys : List Int} (h : preimages = [xs, ys]) :
      Set.InjOn Sponge.hash {xs, ys} := by
    have hlist := hash_injOn hnonneg hdistinct
    simpa [h, Set.insert_def] using hlist
  obtain ⟨helements, hdigests, hcommitments⟩ := digests_separate
  refine ⟨fun h => ?_, fun h => ?_, fun h => ?_⟩
  · exact hdiffer (Hashed.immediate.inj (helements _ _ rfl rfl h))
  · have hpair := hinjective _ (by decide) (by decide +kernel)
      (rfl : [(Pointer.number 1).elements, (Pointer.error .unboundVariable).elements] = _)
    exact hdiffer (hdigests _ (.empty false) _ _ rfl rfl hpair h)
  · have hpair := hinjective _ (by decide) (by decide +kernel)
      (rfl : [Commitment.stateDomain :: (State.initial (.number 1) .nil).elements,
        Commitment.stateDomain :: (State.initial (.error .unboundVariable) .nil).elements] = _)
    have hstates := hcommitments _ _ (hcanonical _ (Pointer.immediate_canonical _ _))
      (hcanonical _ (Pointer.immediate_canonical _ _)) hpair h
    exact hdiffer (congrArg State.expr hstates)

end FieldLisp
