import FieldLisp.Proofs.Circuit.BuiltFrame
import FieldLisp.Proofs.Runs
import FieldLisp.Trace.Receipt

/-!
# Proofs that are accepted

What verification checks, said without the order in which it does so, and what follows for a proof
that is accepted, whoever made it:

* `Text.hexBytes?_hexDigest`: digests of layouts are hexadecimal, so a chain can start from them;
* `Receipt.Accepted`, `Receipt.verify_eq_true`: what is checked;
* `Receipt.Accepted.decides`: then other ends and counts are decided on as well, without a fault;
* `Receipt.Accepted.ends_eq`: no other ends and no other count are accepted, unless hashes collide;
* `Receipt.verify_recount`: which step counts an accepted proof can be given;
* `Receipt.verify_witnesses`: all constraints of its circuits hold, and their public values are
  bound to the links.
-/

namespace FieldLisp

/-! ## Digests in hexadecimal -/

namespace Text

/-- An even number of digits writes whole bytes. -/
theorem isSome_readHex {cs : List Char} (hlength : Even cs.length)
    (hdigits : ∀ c ∈ cs, (hexDigit? c).isSome) : (readHex none cs).isSome := by
  match cs with
  | [] => rfl
  | [_] => simp at hlength
  | c :: d :: rest =>
    obtain ⟨high, hhigh⟩ := Option.isSome_iff_exists.1 (hdigits c (by simp))
    obtain ⟨low, hlow⟩ := Option.isSome_iff_exists.1 (hdigits d (by simp))
    have hrest : Even rest.length := by
      simp only [List.length_cons] at hlength
      rw [Nat.even_iff] at hlength ⊢
      omega
    have ih := isSome_readHex hrest fun x hx => hdigits x (by simp [hx])
    obtain ⟨bytes, hbytes⟩ := Option.isSome_iff_exists.1 ih
    simp [readHex, hhigh, hlow, hbytes]

theorem isSome_hexDigit?_digitChar {n : ℕ} (h : n < 16) : (hexDigit? n.digitChar).isSome := by
  revert n
  decide

/-- A digest that is written in hexadecimal can be read. -/
theorem hexBytes?_hexDigest (bytes : ByteArray) :
    ∃ read, hexBytes? (Sha256.hexDigest bytes) = some read := by
  rw [← Option.isSome_iff_exists]
  unfold hexBytes? Sha256.hexDigest
  rw [String.toList_ofList]
  refine isSome_readHex ?_ fun c hc => ?_
  · rw [List.length_flatMap]
    change Even (List.sum [8, 8, 8, 8, 8, 8, 8, 8])
    decide
  · obtain ⟨word, -, hc⟩ := List.mem_flatMap.1 hc
    obtain ⟨i, -, rfl⟩ := List.mem_map.1 hc
    exact isSome_hexDigit?_digitChar (Nat.mod_lt _ (by decide))

end Text

namespace Receipt

open FieldLisp.Field (Element)
open Except (bind_eq_ok bind_of_ok)

variable {shape : String} {circuit : Circuit} {link : Link} {proof : ReceiptProof}
  {initial final : Commitment} {count : Int}

/-! ## What is checked -/

/-- The circuit has the shape, belongs to the link and is satisfied. -/
structure Backs (shape : String) (circuit : Circuit) (link : Link) : Prop where
  shape : circuit.shapeDigest = shape
  link : circuitLink circuit = .ok link
  satisfied : circuit.isSatisfied = true

theorem backs_eq_true : backs shape circuit link = .ok true ↔ Backs shape circuit link := by
  unfold backs
  split
  case isFalse hshape => exact ⟨nofun, fun h => absurd h.shape hshape⟩
  case isTrue hshape =>
    cases hlink : circuitLink circuit with
    | error fault => exact ⟨nofun, fun h => nomatch hlink.symm.trans h.link⟩
    | ok given =>
      change Except.ok (given == link && circuit.isSatisfied) = .ok true ↔ _
      rw [Except.ok.injEq, Bool.and_eq_true, beq_iff_eq]
      constructor
      · rintro ⟨rfl, hsatisfied⟩
        exact ⟨hshape, hlink, hsatisfied⟩
      · intro h
        exact ⟨Except.ok.inj (hlink.symm.trans h.link), h.satisfied⟩

theorem allBacked_eq_true {entries : List (Circuit × Link)} :
    allBacked shape entries = .ok true ↔ ∀ entry ∈ entries, Backs shape entry.1 entry.2 := by
  induction entries with
  | nil => exact ⟨fun _ => nofun, fun _ => rfl⟩
  | cons entry entries ih =>
    obtain ⟨circuit, link⟩ := entry
    rw [List.forall_mem_cons, ← ih, ← backs_eq_true, allBacked]
    cases backs shape circuit link with
    | error fault => exact ⟨nofun, fun h => nomatch h.1⟩
    | ok backed =>
      cases backed with
      | true => exact ⟨fun h => ⟨rfl, h⟩, And.right⟩
      | false => exact ⟨nofun, fun h => nomatch h.1⟩

/-- What verification checks of a proof. -/
structure Accepted (proof : ReceiptProof) (initial final : Commitment) (count : Int) : Prop where
  stepCount : proof.stepCount = count
  bounded : count ≤ proof.links.length
  backed : List.Forall₂ (Backs proof.shape) proof.circuits proof.links
  follows : follow initial proof.links = some final
  rests : ∀ link ∈ linksFrom count proof.links, link.1 = link.2
  receipt : last proof.shape initial proof.links = .ok proof.receipt

theorem allBacked_zip {circuits : List Circuit} {links : List Link}
    (hlength : circuits.length = links.length) :
    allBacked shape (circuits.zip links) = .ok true ↔ List.Forall₂ (Backs shape) circuits links := by
  rw [allBacked_eq_true, List.forall₂_iff_zip]
  exact ⟨fun h => ⟨hlength, fun hentry => h _ hentry⟩, fun h entry hentry => h.2 hentry⟩

theorem any_moves {links : List Link} :
    links.any (fun link => link.1 != link.2) = false ↔ ∀ link ∈ links, link.1 = link.2 := by
  simp only [List.any_eq_false, bne_iff_ne, ne_eq, not_not]

/-- Verification checks these things, and no others. -/
theorem verify_eq_true :
    verify proof initial final count = .ok true ↔ Accepted proof initial final count := by
  unfold verify
  constructor
  · intro h
    split at h
    · cases h
    rename_i hcount
    rw [not_or, not_not, not_lt] at hcount
    split at h
    · cases h
    rename_i hlength
    rw [not_not] at hlength
    obtain ⟨backed, hbacked, h⟩ := bind_eq_ok.1 h
    split at h
    · cases h
    rename_i hfollows
    rw [Bool.or_eq_true, not_or, Bool.not_eq_true', Bool.not_eq_false, decide_eq_true_eq,
      not_not] at hfollows
    split at h
    · cases h
    rename_i hrests
    obtain ⟨receipt, hlast, h⟩ := bind_eq_ok.1 h
    rw [Except.ok.injEq, beq_iff_eq] at h
    rw [hfollows.1, allBacked_zip hlength] at hbacked
    exact ⟨hcount.1, hcount.2, hbacked, hfollows.2, any_moves.1 (Bool.eq_false_iff.2 hrests), h ▸ hlast⟩
  · intro h
    have hcount : ¬(proof.stepCount ≠ count ∨ count > proof.links.length) := by
      rw [not_or, not_not, not_lt]
      exact ⟨h.stepCount, h.bounded⟩
    have hlength := h.backed.length_eq
    rw [if_neg hcount, if_neg (not_not.2 hlength), bind_of_ok ((allBacked_zip hlength).2 h.backed),
      if_neg (by simp [h.follows]), any_moves.2 h.rests, bind_of_ok h.receipt]
    simp

/-! ## The receipt -/

/-- The last hash of a chain that goes on from a hash. -/
def endOf (current : Commitment) (links : List Link) : Commitment :=
  links.foldl (fun current link => Sponge.hash (stepPreimage current link)) current

theorem getLast?_extend (current : Commitment) (links : List Link) :
    (extend current links).getLast? = some (endOf current links) := by
  induction links generalizing current with
  | nil => rfl
  | cons link links ih =>
    have hne : extend (Sponge.hash (stepPreimage current link)) links ≠ [] := by
      cases links <;> exact List.cons_ne_nil _ _
    rw [extend, List.getLast?_cons_of_ne_nil hne, ih]
    rfl

theorem last_eq_ok {links : List Link} {receipt : Commitment} :
    last shape initial links = .ok receipt ↔ ∃ bytes, Text.hexBytes? shape = some bytes ∧
      endOf (Sponge.hash (initPreimage bytes initial)) links = receipt := by
  unfold last chain
  cases hbytes : Text.hexBytes? shape with
  | none => exact ⟨nofun, fun ⟨_, h, _⟩ => nomatch h⟩
  | some bytes =>
    change Except.ok ((extend _ links).getLast?.getD default) = .ok receipt ↔ _
    simp [getLast?_extend]

/-- What is left of a proof that was accepted is decided on for any ends and any count. -/
theorem Accepted.decides (h : Accepted proof initial final count) (initial' final' : Commitment)
    (count' : Int) : ∃ accepted, verify proof initial' final' count' = .ok accepted := by
  obtain ⟨bytes, hbytes, -⟩ := last_eq_ok.1 h.receipt
  have hlength := h.backed.length_eq
  have hlast : last proof.shape initial' proof.links = .ok (endOf _ proof.links) :=
    last_eq_ok.2 ⟨bytes, hbytes, rfl⟩
  unfold verify
  split
  · exact ⟨false, rfl⟩
  rw [if_neg (not_not.2 hlength), bind_of_ok ((allBacked_zip hlength).2 h.backed)]
  split
  · exact ⟨false, rfl⟩
  split
  · exact ⟨false, rfl⟩
  · exact ⟨_, bind_of_ok hlast _⟩

/-! ## What a proof is accepted for -/

/-- What the chain of a proof hashes first, if it starts from a commitment. -/
def opening (proof : ReceiptProof) (initial : Commitment) : List Int :=
  initPreimage ((Text.hexBytes? proof.shape).getD []) initial

theorem initPreimage_inj {bytes : List UInt8} {initial' : Commitment}
    (h : initPreimage bytes initial = initPreimage bytes initial') : initial = initial' :=
  Digest.toList_inj.1 (List.append_cancel_left (List.cons.inj h).2)

theorem Accepted.endOf_opening (h : Accepted proof initial final count) :
    endOf (Sponge.hash (opening proof initial)) proof.links = proof.receipt := by
  obtain ⟨bytes, hbytes, hreceipt⟩ := last_eq_ok.1 h.receipt
  rw [opening, hbytes]
  exact hreceipt

/-- The links of a proof decide on its ends, unless there are none. Then the receipt does, if what it
is computed from does not collide. -/
theorem Accepted.ends_eq {initial' final' : Commitment} {count' : Int}
    (h : Accepted proof initial final count) (h' : Accepted proof initial' final' count')
    (hinjective : Set.InjOn Sponge.hash {opening proof initial, opening proof initial'}) :
    initial = initial' ∧ final = final' ∧ count = count' := by
  have hcount : count = count' := h.stepCount.symm.trans h'.stepCount
  have hfollows := h.follows
  have hfollows' := h'.follows
  have hreceipt := h.endOf_opening.trans h'.endOf_opening.symm
  cases hlinks : proof.links with
  | nil =>
    rw [hlinks] at hfollows hfollows' hreceipt
    have hinitial : initial = initial' := initPreimage_inj (hinjective (.inl rfl) (.inr rfl) hreceipt)
    cases hfollows
    cases hfollows'
    exact ⟨hinitial, hinitial, hcount⟩
  | cons link links =>
    rw [hlinks] at hfollows hfollows'
    unfold follow at hfollows hfollows'
    split at hfollows
    case isFalse => cases hfollows
    split at hfollows'
    case isFalse => cases hfollows'
    rename_i hinitial hinitial'
    exact ⟨hinitial.symm.trans hinitial', Option.some.inj (hfollows.symm.trans hfollows'), hcount⟩

/-! ## Proofs of one link -/

theorem ofElements_eq_ok {elements : List Int} {commitment : Commitment} :
    Commitment.ofElements elements = .ok commitment ↔ elements.length = stateSize ∧
      Sponge.hash (Commitment.stateDomain :: elements) = commitment := by
  unfold Commitment.ofElements
  split <;> simp [*]

theorem circuitLink_eq_ok : circuitLink circuit = .ok link ↔
    Commitment.ofElements (circuit.publicValues.take stateSize) = .ok link.1 ∧
      Commitment.ofElements (circuit.publicValues.drop stateSize) = .ok link.2 := by
  obtain ⟨input, output⟩ := link
  unfold circuitLink
  simp only [bind_eq_ok, Except.ok.injEq, Prod.mk.injEq]
  constructor
  · rintro ⟨_, hinput, _, houtput, rfl, rfl⟩
    exact ⟨hinput, houtput⟩
  · rintro ⟨hinput, houtput⟩
    exact ⟨_, hinput, _, houtput, rfl, rfl⟩

/-- What a state commits to that is given by its elements. -/
def commitmentOf (elements : List Int) : Commitment := Sponge.hash (Commitment.stateDomain :: elements)

/-- The elements of a state that consists of numbers in the place of a digest. -/
def ends (n : Int) : List Int := n :: List.replicate 14 0

/-- A proof that carries one circuit, of one link. -/
def oneLink (circuit : Circuit) (link : Link) (count : Int) : ReceiptProof where
  shape := circuit.shapeDigest
  links := [link]
  stepCount := count
  receipt := endOf (Sponge.hash (initPreimage ((Text.hexBytes? circuit.shapeDigest).getD []) link.1)) [link]
  circuits := [circuit]

theorem verify_oneLink (hlink : circuitLink circuit = .ok link) (hsatisfied : circuit.isSatisfied = true)
    (hbounded : count ≤ 1) (hrests : ∀ other ∈ linksFrom count [link], other.1 = other.2) :
    verify (oneLink circuit link count) link.1 link.2 count = .ok true := by
  obtain ⟨bytes, hbytes⟩ := Text.hexBytes?_hexDigest circuit.layoutText.toUTF8
  have hshape : Text.hexBytes? circuit.shapeDigest = some bytes := hbytes
  refine verify_eq_true.2 ⟨rfl, hbounded, .cons ⟨rfl, hlink, hsatisfied⟩ .nil, if_pos rfl, hrests, ?_⟩
  exact last_eq_ok.2 ⟨bytes, hshape, by rw [oneLink, hshape, Option.getD_some]⟩

/-! ## Step counts -/

theorem mem_linksFrom {links : List Link} : link ∈ linksFrom count links ↔
    ∃ i : ℕ, position links.length count ≤ i ∧ links[i]? = some link := by
  simp only [linksFrom, List.mem_iff_getElem?, List.getElem?_drop]
  constructor
  · rintro ⟨i, hi⟩
    exact ⟨_, by omega, hi⟩
  · rintro ⟨i, hle, hi⟩
    refine ⟨i - (position links.length count).toNat, ?_⟩
    rwa [Nat.add_sub_of_le (by omega)]

/-- An accepted proof has the step count that it was asked for. Given any other count, no larger than
the number of its links, it is accepted as well if the links from there on rest; a negative count is
taken from the end. -/
theorem verify_recount (h : verify proof initial final count = .ok true) :
    proof.stepCount = count ∧ ∀ other : Int,
      (verify { proof with stepCount := other } initial final other = .ok true ↔
        other ≤ proof.links.length ∧ ∀ (i : ℕ) (link : Link), proof.links[i]? = some link →
          position proof.links.length other ≤ i → link.1 = link.2) := by
  rw [verify_eq_true] at h
  refine ⟨h.stepCount, fun other => ?_⟩
  rw [verify_eq_true]
  constructor
  · intro hother
    exact ⟨hother.bounded, fun i link hlink hle => hother.rests link (mem_linksFrom.2 ⟨i, hle, hlink⟩)⟩
  · rintro ⟨hbounded, hrests⟩
    refine ⟨rfl, hbounded, h.backed, h.follows, fun link hlink => ?_, h.receipt⟩
    obtain ⟨i, hle, hi⟩ := mem_linksFrom.1 hlink
    exact hrests i link hi hle

/-- A step that leads nowhere can be counted once, not at all, or from the end, but not twice. -/
theorem verify_recount_resting :
    let rest := commitmentOf (ends 0)
    let proof := oneLink (FrameCircuit.withPublic (.empty none) (ends 0 ++ ends 0)) (rest, rest) 0
    verify proof rest rest 0 = .ok true ∧ verify { proof with stepCount := 1 } rest rest 1 = .ok true ∧
      verify { proof with stepCount := -1 } rest rest (-1) = .ok true ∧
      verify { proof with stepCount := 2 } rest rest 2 ≠ .ok true := by
  intro rest proof
  have haccepted : verify proof rest rest 0 = .ok true :=
    verify_oneLink (circuitLink_eq_ok.2 ⟨rfl, rfl⟩) rfl (by decide) (by simp [linksFrom, position])
  obtain ⟨-, hrecount⟩ := verify_recount haccepted
  have hrests (other : ℤ) (i : ℕ) (link : Link) (hlink : proof.links[i]? = some link)
      (_ : position proof.links.length other ≤ i) : link.1 = link.2 := by
    obtain rfl := List.mem_singleton.1 (List.mem_of_getElem? hlink)
    rfl
  exact ⟨haccepted, (hrecount 1).2 ⟨le_rfl, hrests 1⟩, (hrecount (-1)).2 ⟨by decide, hrests (-1)⟩,
    fun htwo => absurd ((hrecount 2).1 htwo).1 (by decide)⟩

/-! ## Witnesses -/

/-- All constraints hold in the field for the values that the assignment gives, whatever it gives to the
variable that stands for one. -/
def Witnessed (circuit : Circuit) : Prop :=
  let weigh := Combination.weigh fun i => ((circuit.assignment.getD i 0 : Int) : Element)
  ∀ k ∈ circuit.constraints.toList, weigh k.a * weigh k.b = weigh k.c

/-- The constraints of every circuit in an accepted proof hold modulo the order. Its public values are
those of two states, and its link is the commitments to them. -/
theorem verify_witnesses (h : verify proof initial final count = .ok true)
    (hlabelled : ∀ circuit ∈ proof.circuits, circuit.labels.size = circuit.constraints.size) :
    List.Forall₂ (fun circuit link =>
      Witnessed circuit ∧ circuit.publicValues.length = 2 * stateSize ∧
      link.1 = Sponge.hash (Commitment.stateDomain :: circuit.publicValues.take stateSize) ∧
      link.2 = Sponge.hash (Commitment.stateDomain :: circuit.publicValues.drop stateSize))
      proof.circuits proof.links := by
  rw [verify_eq_true] at h
  have hbacked := List.forall₂_iff_get.1 h.backed
  refine List.forall₂_iff_get.2 ⟨hbacked.1, fun i h₁ h₂ => ?_⟩
  have hback := hbacked.2 i h₁ h₂
  obtain ⟨hinput, houtput⟩ := circuitLink_eq_ok.1 hback.link
  obtain ⟨hlength, hinput⟩ := ofElements_eq_ok.1 hinput
  obtain ⟨hlength', houtput⟩ := ofElements_eq_ok.1 houtput
  refine ⟨fun k hk => ?_, ?_, hinput.symm, houtput.symm⟩
  · have hholds := (Circuit.isSatisfied_iff (hlabelled _ (List.get_mem _ _))).1 hback.satisfied k hk
    simp only [Circuit.holds, beq_iff_eq] at hholds
    have hfield := congrArg (Int.cast : Int → Element) hholds
    simpa [Combination.cast_evalTerms] using hfield
  · rw [List.length_take] at hlength
    rw [List.length_drop] at hlength'
    simp only [stateSize, pointerSize] at hlength hlength' ⊢
    omega

/-- A circuit whose only constraint binds a five, the first public value, to five times the variable that
stands for one. That variable was overwritten by zero. -/
def unpinned : Circuit :=
  { FrameCircuit.withPublic (.empty none) (ends 5 ++ ends 5) with
    assignment := (0 :: (ends 5 ++ ends 5)).toArray
    constraints := #[⟨[(1, 1)], [(0, 1)], [(0, 5)]⟩]
    labels := #["five"] }

/-- The circuit is accepted with zero for one, which its constraint holds for. -/
theorem verify_witnesses_unpinned :
    let five := commitmentOf (ends 5)
    verify (oneLink unpinned (five, five) 0) five five 0 = .ok true ∧
      unpinned.labels.size = unpinned.constraints.size ∧ unpinned.assignment[0]? = some 0 ∧
      Witnessed unpinned := by
  intro five
  have haccepted : verify (oneLink unpinned (five, five) 0) five five 0 = .ok true :=
    verify_oneLink (circuitLink_eq_ok.2 ⟨rfl, rfl⟩) rfl (by decide) (by simp [linksFrom, position])
  have hwitnesses := verify_witnesses haccepted fun circuit hcircuit => by
    obtain rfl := List.mem_singleton.1 hcircuit
    rfl
  obtain ⟨⟨hwitnessed, -⟩, -⟩ := List.forall₂_cons.1 hwitnesses
  exact ⟨haccepted, rfl, rfl, hwitnessed⟩

end Receipt

end FieldLisp
