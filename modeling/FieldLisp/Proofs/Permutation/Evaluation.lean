import FieldLisp.Proofs.PrimeField
import FieldLisp.Sponge

/-!
# Evaluating the sponge

The permutation is made for machine arithmetic on integers. Here it is stated once more on natural
numbers, in a form that evaluates within proofs: numbers are computed before they are passed on.

* `permute_eq`, `hash_eq`: the two statements agree.
-/

namespace FieldLisp.Permutation.Evaluation

/-! ## Computing numbers before they are passed on -/

/-- Applies a function to a number that is computed first. -/
def force {α : Type} (n : ℕ) (k : ℕ → α) : α := Nat.rec (k 0) (fun m _ => k m.succ) n

theorem force_eq {α : Type} (n : ℕ) (k : ℕ → α) : force n k = k n := by cases n <;> rfl

/-- Applies a function to a list of numbers that are computed first. -/
def forceList {α : Type} : List ℕ → (List ℕ → α) → α
  | [], k => k []
  | x :: xs, k => force x fun x => forceList xs fun xs => k (x :: xs)

theorem forceList_eq {α : Type} (xs : List ℕ) (k : List ℕ → α) : forceList xs k = k xs := by
  induction xs generalizing k with
  | nil => rfl
  | cons x xs ih => rw [forceList, force_eq, ih]

/-! ## The permutation -/

/-- Number of elements of the field. -/
def order : ℕ := 18446744069414584321

def sbox (x : ℕ) : ℕ := x ^ 7 % order

def mixBlock (a b c d : ℕ) : List ℕ :=
  [5 * a + 7 * b + c + 3 * d, 4 * a + 6 * b + c + d, a + 3 * b + 5 * c + 7 * d, a + b + 4 * c + 6 * d]

def sums (xs ys : List ℕ) : List ℕ := List.zipWith (· + ·) xs ys

def mixExternal : List ℕ → List ℕ
  | [a0, a1, a2, a3, b0, b1, b2, b3, c0, c1, c2, c3, d0, d1, d2, d3] =>
    let a := mixBlock a0 a1 a2 a3
    let b := mixBlock b0 b1 b2 b3
    let c := mixBlock c0 c1 c2 c3
    let d := mixBlock d0 d1 d2 d3
    let total := sums (sums a b) (sums c d)
    (sums a total ++ sums b total ++ sums c total ++ sums d total).map (· % order)
  | _ => []

def mixInternal (diagonal lanes : List ℕ) : List ℕ :=
  force (lanes.foldl (· + ·) 0) fun total =>
    List.zipWith (fun x d => (x * d + total) % order) lanes diagonal

/-- Full rounds; what follows takes the constants that are left and the lanes. -/
def fullRounds {α : Type} : ℕ → List ℕ → List ℕ → (List ℕ → List ℕ → α) → α
  | 0, constants, lanes, k => k constants lanes
  | rounds + 1, constants, lanes, k =>
    forceList (List.zipWith (fun x c => sbox (x + c)) lanes constants) fun lanes =>
      forceList (mixExternal lanes) fun lanes => fullRounds rounds (constants.drop 16) lanes k

/-- Partial rounds; what follows takes the constants that are left and the lanes. -/
def partialRounds {α : Type} (diagonal : List ℕ) :
    ℕ → List ℕ → List ℕ → (List ℕ → List ℕ → α) → α
  | rounds + 1, c :: constants, x :: lanes, k =>
    force (sbox (x + c)) fun x =>
      forceList (mixInternal diagonal (x :: lanes)) fun lanes =>
        partialRounds diagonal rounds constants lanes k
  | _, constants, lanes, k => k constants lanes

def roundTable : List ℕ := Permutation.roundTable.toList.map Int.toNat

def diagonal : List ℕ := Permutation.diagonal.toList.map Int.toNat

def permute (lanes : List ℕ) : List ℕ :=
  forceList roundTable fun constants =>
  forceList diagonal fun diagonal =>
  forceList (lanes.map (· % order)) fun lanes =>
  forceList (mixExternal lanes) fun lanes =>
  fullRounds halfFullRounds constants lanes fun constants lanes =>
  partialRounds diagonal Permutation.partialRounds constants lanes fun constants lanes =>
  fullRounds halfFullRounds constants lanes fun _ lanes => lanes

/-! ## The sponge -/

def absorb (capacity block : List ℕ) : List ℕ :=
  (permute (block.map (· % order) ++ List.replicate (Sponge.rate - block.length) 0 ++
    capacity)).take 4

def hash (elements : List ℕ) : List ℕ :=
  (blocks Sponge.rate (Sponge.blockCount elements.length) elements).foldl absorb
    [elements.length % order, 0, 0, 0]

/-! ## Agreement -/

/-- Lanes that hold natural numbers. -/
def Stands (state : Lanes Int) (lanes : List ℕ) : Prop := state.toList = lanes.map Nat.cast

theorem reduce_natCast {n : ℕ} {m : Int} (h : m = n) : Field.reduce m = ((n % order : ℕ) : Int) := by
  subst h
  simp [Field.reduce, Field.order, order]

namespace Stands
variable {state : Lanes Int} {lanes : List ℕ}

theorem length (h : Stands state lanes) : lanes.length = 16 := by
  have := congrArg List.length h
  simpa using this.symm

theorem get (h : Stands state lanes) (i : Fin 16) :
    state.get i = (lanes.getD i 0 : ℕ) := by
  have hget : state.toList[i.val]? = (lanes.map Nat.cast : List Int)[i.val]? := congrArg (·[i.val]?) h
  have hi : i.val < lanes.length := h.length.symm ▸ i.isLt
  simp only [Vector.getElem?_toList, Vector.getElem?_eq_getElem i.isLt, List.getElem?_map,
    List.getElem?_eq_getElem hi, Option.map_some, Option.some.injEq] at hget
  rw [List.getD_eq_getElem _ _ hi]
  exact hget

theorem of_get (hlength : lanes.length = 16)
    (h : ∀ i : Fin 16, state.get i = (lanes.getD i 0 : ℕ)) : Stands state lanes := by
  refine List.ext_getElem (by simp [hlength]) fun i hi hi' => ?_
  have hlt : i < lanes.length := by simpa using hi'
  have hget := h ⟨i, hlength ▸ hlt⟩
  rw [List.getD_eq_getElem _ _ hlt, Vector.get_eq_getElem] at hget
  simpa using hget

/-- Lanes that hold natural numbers are those numbers. -/
theorem parts (h : Stands state lanes) : ∃ a0 a1 a2 a3 b0 b1 b2 b3 c0 c1 c2 c3 d0 d1 d2 d3 : ℕ,
    lanes = [a0, a1, a2, a3, b0, b1, b2, b3, c0, c1, c2, c3, d0, d1, d2, d3] ∧
    state = #v[(a0 : Int), a1, a2, a3, b0, b1, b2, b3, c0, c1, c2, c3, d0, d1, d2, d3] := by
  match lanes, h.length with
  | [a0, a1, a2, a3, b0, b1, b2, b3, c0, c1, c2, c3, d0, d1, d2, d3], _ =>
    exact ⟨a0, a1, a2, a3, b0, b1, b2, b3, c0, c1, c2, c3, d0, d1, d2, d3, rfl,
      Vector.toList_inj.1 h⟩

end Stands

theorem sbox_natCast {n : ℕ} {m : Int} (h : m = n) :
    Permutation.sbox (Field.reduce m) = (sbox n : ℕ) := by
  subst h
  have hpower : Field.reduce ((n : Int) ^ 7) = (sbox n : ℕ) := reduce_natCast (by push_cast; rfl)
  rw [← hpower]
  refine Field.cast_eq_iff.1 ?_
  simp only [Field.cast_reduce, Int.cast_mul]
  push_cast
  ring

/-- Four mixed lanes. -/
theorem mixBlock_natCast (a b c d : ℕ) : ∃ w x y z : ℕ, mixBlock a b c d = [w, x, y, z] ∧
    Permutation.mixBlock #v[(a : Int), b, c, d] = #v[(w : Int), x, y, z] := by
  refine ⟨_, _, _, _, rfl, Vector.toList_inj.1 ?_⟩
  have hlanes : (Permutation.mixBlock #v[(a : Int), b, c, d]).toList =
      ([d + d + (a + b) + (a + b + (a + b) + (a + b + (a + b)) + (b + b + (c + d))),
        a + b + (a + b) + (a + b + (a + b)) + (b + b + (c + d)),
        b + b + (c + d) + (c + d + (c + d) + (c + d + (c + d)) + (d + d + (a + b))),
        c + d + (c + d) + (c + d + (c + d)) + (d + d + (a + b))] : List Int) := rfl
  rw [hlanes]
  simp only [Vector.toList_mk, List.cons.injEq, and_true]
  push_cast
  exact ⟨by ring, by ring, by ring, by ring⟩

/-- The external layer, from the blocks that it mixes. -/
theorem toList_mixExternal (state : Lanes Int) {a0 a1 a2 a3 b0 b1 b2 b3 c0 c1 c2 c3 d0 d1 d2 d3 : Int}
    (ha : Permutation.mixBlock #v[state.get 0, state.get 1, state.get 2, state.get 3] =
      #v[a0, a1, a2, a3])
    (hb : Permutation.mixBlock #v[state.get 4, state.get 5, state.get 6, state.get 7] =
      #v[b0, b1, b2, b3])
    (hc : Permutation.mixBlock #v[state.get 8, state.get 9, state.get 10, state.get 11] =
      #v[c0, c1, c2, c3])
    (hd : Permutation.mixBlock #v[state.get 12, state.get 13, state.get 14, state.get 15] =
      #v[d0, d1, d2, d3]) :
    (Permutation.mixExternal state).toList =
      let total := [0 + a0 + b0 + c0 + d0, 0 + a1 + b1 + c1 + d1, 0 + a2 + b2 + c2 + d2,
        0 + a3 + b3 + c3 + d3]
      List.zipWith (· + ·) [a0, a1, a2, a3, b0, b1, b2, b3, c0, c1, c2, c3, d0, d1, d2, d3]
        (total ++ total ++ total ++ total) := by
  rw [Permutation.mixExternal, ha, hb, hc, hd, Vector.toList_ofFn]
  simp only [List.ofFn_succ, List.ofFn_zero]
  rfl

theorem stands_mixExternal {state : Lanes Int} {lanes : List ℕ} (h : Stands state lanes) :
    Stands ((Permutation.mixExternal state).map Field.reduce) (mixExternal lanes) := by
  obtain ⟨a0, a1, a2, a3, b0, b1, b2, b3, c0, c1, c2, c3, d0, d1, d2, d3, rfl, rfl⟩ := h.parts
  obtain ⟨a4, a5, a6, a7, ha, hA⟩ := mixBlock_natCast a0 a1 a2 a3
  obtain ⟨b4, b5, b6, b7, hb, hB⟩ := mixBlock_natCast b0 b1 b2 b3
  obtain ⟨c4, c5, c6, c7, hc, hC⟩ := mixBlock_natCast c0 c1 c2 c3
  obtain ⟨d4, d5, d6, d7, hd, hD⟩ := mixBlock_natCast d0 d1 d2 d3
  have hlane (x a b c d : ℕ) : Field.reduce (x + (0 + a + b + c + d)) =
      ((x + (a + b + (c + d))) % order : ℕ) := reduce_natCast (by push_cast; ring)
  have hmixed := toList_mixExternal #v[(a0 : Int), a1, a2, a3, b0, b1, b2, b3, c0, c1, c2, c3, d0,
    d1, d2, d3] hA hB hC hD
  rw [Stands, Vector.toList_map, hmixed]
  simp only [mixExternal, ha, hb, hc, hd, sums, List.zipWith_cons_cons, List.zipWith_nil_left,
    List.cons_append, List.nil_append, List.map_cons, List.map_nil, ← hlane]

/-- One full round, with the constants that it takes. -/
theorem stands_fullRound {state : Lanes Int} {lanes : List ℕ} (constants : List ℕ) (round : ℕ)
    (h : Stands state lanes) (hlength : 16 ≤ constants.length)
    (hconstants : ∀ lane : Fin 16, fullConstant round lane = (constants.getD lane 0 : ℕ)) :
    Stands (fullRound state round)
      (mixExternal (List.zipWith (fun x c => sbox (x + c)) lanes constants)) := by
  refine stands_mixExternal (.of_get (by simp [h.length, hlength]) fun i => ?_)
  have hlane : i.val < lanes.length := by rw [h.length]; exact i.isLt
  have hconstant : i.val < constants.length := by omega
  rw [Vector.get_ofFn, sbox_natCast (n := lanes.getD i 0 + constants.getD i 0)
    (by rw [h.get, hconstants]; push_cast; rfl)]
  simp [hlane, hconstant]

theorem fullRounds_eq {α : Type} (rounds start : ℕ) {state : Lanes Int} {lanes : List ℕ}
    (constants : List ℕ) (h : Stands state lanes) (hlength : 16 * rounds ≤ constants.length)
    (hconstants : ∀ r < rounds, ∀ lane : Fin 16,
      fullConstant (start + r) lane = (constants.getD (16 * r + lane) 0 : ℕ))
    (k : List ℕ → List ℕ → α) : ∃ out : List ℕ,
      fullRounds rounds constants lanes k = k (constants.drop (16 * rounds)) out ∧
      Stands ((List.range' start rounds).foldl fullRound state) out := by
  induction rounds generalizing start state lanes constants with
  | zero => exact ⟨lanes, by simp [fullRounds], h⟩
  | succ rounds ih =>
    have hround := stands_fullRound constants start h (by omega)
      fun lane => by simpa using hconstants 0 (by omega) lane
    obtain ⟨out, hout, hstands⟩ := ih (start + 1) (constants.drop 16) hround
      (by rw [List.length_drop]; omega) fun r hr lane => by
        rw [show start + 1 + r = start + (r + 1) by omega, hconstants (r + 1) (by omega)]
        simp only [List.getD_eq_getElem?_getD, List.getElem?_drop]
        congr 3
        omega
    refine ⟨out, ?_, hstands⟩
    rw [fullRounds, forceList_eq, forceList_eq, hout, List.drop_drop]
    congr 2
    omega

theorem stands_partialRound {state : Lanes Int} {x c round : ℕ} {lanes : List ℕ}
    (h : Stands state (x :: lanes)) (hconstant : partialConstant round = c) :
    Stands (partialRound state round) (mixInternal diagonal (sbox (x + c) :: lanes)) := by
  have hset : Stands (setFirst state (sbox (x + c))) (sbox (x + c) :: lanes) := by
    refine .of_get (by simpa using h.length) fun i => ?_
    rw [setFirst, Vector.get_ofFn]
    cases i using Fin.cases with
    | zero => rfl
    | succ i =>
      rw [if_neg (Fin.succ_ne_zero i), h.get]
      rfl
  have hfirst : Permutation.sbox (Field.reduce (first state + partialConstant round)) =
      sbox (x + c) := sbox_natCast (by rw [first, h.get, hconstant]; push_cast; rfl)
  have hdiagonal : ∀ i : Fin 16, Permutation.diagonal.get i = (diagonal.getD i 0 : ℕ) := by
    decide +kernel
  have htotal (lanes : List ℕ) (start : ℕ) : (lanes.map Nat.cast).foldl (· + ·) (start : Int) =
      (lanes.foldl (· + ·) start : ℕ) := by
    induction lanes generalizing start with
    | nil => rfl
    | cons x lanes ih =>
      simp only [List.map_cons, List.foldl_cons]
      rw [← ih]
      push_cast
      rfl
  rw [partialRound, hfirst]
  unfold Permutation.mixInternal
  have hsum := htotal (sbox (x + c) :: lanes) 0
  rw [Nat.cast_zero] at hsum
  rw [← Vector.foldl_toList, hset, hsum]
  have hlength : (sbox (x + c) :: lanes).length = 16 := hset.length
  have hlength' : diagonal.length = 16 := rfl
  refine .of_get (by rw [mixInternal, force_eq, List.length_zipWith, hlength, hlength']; rfl)
    fun i => ?_
  have hi : i.val < (sbox (x + c) :: lanes).length := by
    rw [hset.length]
    exact i.isLt
  have hi' : i.val < diagonal.length := i.isLt
  have hlane : Field.reduce ((setFirst state (sbox (x + c))).get i * Permutation.diagonal.get i +
      ((sbox (x + c) :: lanes).foldl (· + ·) 0 : ℕ)) = (((sbox (x + c) :: lanes).getD i 0 *
        diagonal.getD i 0 + (sbox (x + c) :: lanes).foldl (· + ·) 0) % order : ℕ) :=
    reduce_natCast (by rw [hset.get, hdiagonal]; push_cast; rfl)
  rw [Vector.get_map, scaleLanes, Vector.get_ofFn, hlane, mixInternal, force_eq]
  simp only [List.getD_eq_getElem?_getD, List.getElem?_zipWith, List.getElem?_eq_getElem hi,
    List.getElem?_eq_getElem hi', Option.getD_some]

theorem partialRounds_eq {α : Type} (rounds start : ℕ) {state : Lanes Int} {lanes : List ℕ}
    (constants : List ℕ) (h : Stands state lanes) (hlength : rounds ≤ constants.length)
    (hconstants : ∀ r < rounds, partialConstant (start + r) = (constants.getD r 0 : ℕ))
    (k : List ℕ → List ℕ → α) : ∃ out : List ℕ,
      partialRounds diagonal rounds constants lanes k = k (constants.drop rounds) out ∧
      Stands ((List.range' start rounds).foldl partialRound state) out := by
  induction rounds generalizing start state lanes constants with
  | zero => exact ⟨lanes, by simp [partialRounds], h⟩
  | succ rounds ih =>
    match lanes, h.length, constants, hlength with
    | x :: lanes, _, c :: constants, hcount =>
      have hround := stands_partialRound h (hconstants 0 (by omega))
      obtain ⟨out, hout, hstands⟩ := ih (start + 1) constants hround
        (Nat.le_of_succ_le_succ hcount) fun r hr => by
          rw [show start + 1 + r = start + (r + 1) by omega, hconstants (r + 1) (by omega)]
          rfl
      refine ⟨out, ?_, hstands⟩
      rw [partialRounds, force_eq, forceList_eq]
      exact hout

/-- The permutation on natural numbers is the permutation. -/
theorem stands_permute {input : Lanes Int} {lanes : List ℕ} (h : Stands input lanes) :
    Stands (Permutation.permute input) (permute lanes) := by
  have hinput : Stands (input.map Field.reduce) (lanes.map (· % order)) := by
    rw [Stands, Vector.toList_map, h, List.map_map, List.map_map]
    exact List.map_congr_left fun n _ => reduce_natCast rfl
  obtain ⟨opening, hopening, hstands⟩ := fullRounds_eq halfFullRounds 0 roundTable
    (stands_mixExternal hinput) (by decide +kernel) (by decide +kernel)
    fun constants lanes => partialRounds diagonal Permutation.partialRounds constants lanes
      fun constants lanes => fullRounds halfFullRounds constants lanes fun _ lanes => lanes
  obtain ⟨middle, hmiddle, hstands⟩ := partialRounds_eq Permutation.partialRounds 0
    (roundTable.drop 64) hstands (by decide +kernel)
    (by decide +kernel) fun constants lanes => fullRounds halfFullRounds constants lanes fun _ lanes => lanes
  obtain ⟨closing, hclosing, hstands⟩ := fullRounds_eq halfFullRounds halfFullRounds
    (roundTable.drop 86) hstands (by decide +kernel)
    (by decide +kernel) fun _ lanes => lanes
  have hpermute : permute lanes = closing := by
    simp only [permute, forceList_eq]
    rw [hopening]
    refine hmiddle.trans ?_
    rw [List.drop_drop]
    exact hclosing
  rw [hpermute]
  unfold Permutation.permute
  rw [List.range_eq_range', List.range_eq_range']
  exact hstands

theorem toList_absorb {capacity : Digest Int} {numbers block : List ℕ}
    (hcapacity : capacity.toList = numbers.map Nat.cast) (hblock : block.length ≤ Sponge.rate) :
    (Sponge.absorb capacity (block.map Nat.cast)).toList = (absorb numbers block).map Nat.cast := by
  have hnumbers : numbers.length = 4 := by
    have := congrArg List.length hcapacity
    simpa using this.symm
  have hlanes : Stands (Sponge.lanes ((block.map Nat.cast).map Field.reduce) capacity)
      ((block.map (· % order)) ++ List.replicate (Sponge.rate - block.length) 0 ++ numbers) := by
    refine .of_get ?_ fun i => ?_
    · simp only [Sponge.rate] at hblock ⊢
      simp only [List.length_append, List.length_map, List.length_replicate, hnumbers]
      omega
    · have hfilled : (block.map (· % order) ++ List.replicate (Sponge.rate - block.length) 0).length =
          Sponge.rate := by
        rw [List.length_append, List.length_map, List.length_replicate]
        omega
      rw [Sponge.lanes, Vector.get_ofFn]
      split
      · rename_i hi
        rw [List.getD_append _ _ _ _ (by omega)]
        by_cases hin : i.val < block.length
        · rw [List.getD_append _ _ _ _ (by simpa using hin), List.getD_eq_getElem _ _ (by simpa),
            List.getD_eq_getElem _ _ (by simpa), List.getElem_map, List.getElem_map, List.getElem_map]
          exact reduce_natCast rfl
        · rw [List.getD_eq_default _ _ (by simpa using hin),
            List.getD_append_right _ _ _ _ (by simpa using hin), List.getD_eq_getElem?_getD,
            List.getElem?_replicate]
          split <;> rfl
      · rename_i hi
        rw [List.getD_append_right _ _ _ _ (by omega), hfilled, hcapacity]
        exact List.getD_map _ _ _
  have hpermute := stands_permute hlanes
  have hfront (state : Lanes Int) : (front state).toList = state.toList.take 4 := by
    refine List.ext_getElem (by simp) fun i hi hi' => ?_
    match i, hi with
    | 0, _ | 1, _ | 2, _ | 3, _ => simp [front, Digest.toList, Vector.get_eq_getElem]
  rw [Sponge.absorb, hfront, hpermute, absorb, List.map_take]

theorem toList_foldl_absorb {count : ℕ} {elements numbers : List ℕ} {capacity : Digest Int}
    (hcapacity : capacity.toList = numbers.map Nat.cast) :
    ((blocks Sponge.rate count (elements.map Nat.cast)).foldl Sponge.absorb capacity).toList =
      ((blocks Sponge.rate count elements).foldl absorb numbers).map Nat.cast := by
  induction count generalizing elements capacity numbers with
  | zero => exact hcapacity
  | succ count ih =>
    simp only [blocks, List.foldl_cons, ← List.map_take, ← List.map_drop]
    exact ih (toList_absorb hcapacity (List.length_take_le _ _))

/-- The digest of a list of natural numbers. -/
theorem toList_hash (elements : List ℕ) :
    (Sponge.hash (elements.map Nat.cast)).toList = (hash elements).map Nat.cast := by
  rw [Sponge.hash, List.length_map]
  refine toList_foldl_absorb ?_
  rw [Sponge.initialCapacity, reduce_natCast rfl]
  rfl

/-- The digest of a list of numbers from zero up. -/
theorem toList_hash_of_nonneg {elements : List Int} (h : ∀ x ∈ elements, 0 ≤ x) :
    (Sponge.hash elements).toList = (hash (elements.map Int.toNat)).map Nat.cast := by
  rw [← toList_hash, List.map_map]
  congr 2
  exact (List.map_id elements).symm.trans
    (List.map_congr_left fun x hx => (Int.toNat_of_nonneg (h x hx)).symm)

end FieldLisp.Permutation.Evaluation
