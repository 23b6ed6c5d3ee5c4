import FieldLisp.Proofs.Canonical
import FieldLisp.Proofs.PrimeField

/-!
# The permutation is a permutation

Every layer can be undone on the field elements that the lanes stand for: the S-box because seven is
prime to the number of units, the linear layers because their matrices are invertible. The matrix of
the external layer is that of a small block, mixed over four blocks. The matrix of the internal one is
a diagonal to which ones are added everywhere. Its entries are as good as random, so that its
determinant is not zero has to be computed.

* `Lossless`: what the lanes stand for after a step tells what they stood for before;
* `lossless_mixExternal`, `lossless_mixInternal`: the linear layers;
* `lossless_permute`: all rounds, by induction on the rounds that are left;
* `permuteList_bijOn`: on lists of sixteen canonical elements, which are finitely many, the
  permutation is one to one and onto.
-/

namespace FieldLisp.Permutation

open FieldLisp.Field (Element)

/-- The field elements that the lanes stand for. -/
def elements (state : Lanes Int) (lane : Fin 16) : Element := state.get lane

@[simp] theorem elements_apply (state : Lanes Int) (lane : Fin 16) :
    elements state lane = (state.get lane : Element) := rfl

theorem elements_map_reduce (state : Lanes Int) :
    elements (state.map Field.reduce) = elements state := by
  funext lane
  simp [Vector.get_eq_getElem]

/-- Canonical states are told apart by what they stand for. -/
theorem eq_of_elements {x y : Lanes Int} (hx : Canonical x) (hy : Canonical y)
    (h : elements x = elements y) : x = y := by
  apply Vector.ext
  intro i hi
  exact (Field.cast_inj (hx ⟨i, hi⟩) (hy ⟨i, hi⟩)).1 (congrFun h ⟨i, hi⟩)

/-- What the lanes stand for afterwards tells what they stood for before. -/
def Lossless (step : Lanes Int → Lanes Int) : Prop :=
  ∀ ⦃x y⦄, elements (step x) = elements (step y) → elements x = elements y

namespace Lossless
variable {step step' : Lanes Int → Lanes Int}

theorem comp (h' : Lossless step') (h : Lossless step) : Lossless (step' ∘ step) :=
  fun _ _ heq => h (h' heq)

theorem reduced (h : Lossless step) : Lossless fun state => (step state).map Field.reduce := by
  intro x y heq
  simp only [elements_map_reduce] at heq
  exact h heq

theorem foldl {round : Lanes Int → ℕ → Lanes Int} (h : ∀ r, Lossless (round · r)) (rounds : List ℕ) :
    Lossless fun state => rounds.foldl round state := by
  induction rounds with
  | nil => exact fun _ _ => id
  | cons r rounds ih => exact ih.comp (h r)

end Lossless

/-- A factor that is not zero in the field can be cancelled. -/
theorem eq_of_scaled {n : Int} (hn : Field.reduce n ≠ 0) {x y : Element}
    (h : (n : Element) * x = n * y) : x = y := by
  refine mul_left_cancel₀ (fun hzero => hn ?_) h
  exact Field.reduce_eq_of_cast Field.canonical_zero (by rw [hzero, Int.cast_zero])

/-! ## The S-box -/

theorem cast_sbox (n : Int) : ((sbox n : Int) : Element) = (n : Element) ^ 7 := by
  simp only [sbox, Field.cast_reduce, Int.cast_mul]
  ring

/-- Seven times the exponent is one more than four times the number of units. -/
theorem pow_seven_injective : Function.Injective fun x : Element => x ^ 7 := by
  have root (x : Element) : (x ^ 7) ^ 10540996611094048183 = x := by
    rcases eq_or_ne x 0 with rfl | hx
    · simp
    · have hexponent : 7 * 10540996611094048183 = (18446744069414584321 - 1) * 4 + 1 := by norm_num
      rw [← pow_mul, hexponent, pow_succ, pow_mul, ZMod.pow_card_sub_one_eq_one hx, one_pow, one_mul]
  intro x y h
  rw [← root x, ← root y]
  exact congrArg (· ^ 10540996611094048183) h

/-- An S-box behind a constant tells what went into it. -/
theorem cast_eq_of_sbox {m n constant : Int}
    (h : ((sbox (Field.reduce (m + constant)) : Int) : Element) = sbox (Field.reduce (n + constant))) :
    (m : Element) = n := by
  rw [cast_sbox, cast_sbox, Field.cast_reduce, Field.cast_reduce] at h
  have hsum := pow_seven_injective h
  push_cast at hsum
  exact add_right_cancel hsum

/-! ## The external layer -/

/-- The rows of the matrix of a block. -/
theorem get_mixBlock (z : Vector Int 4) :
    (mixBlock z).get 0 = 5 * z.get 0 + 7 * z.get 1 + z.get 2 + 3 * z.get 3 ∧
    (mixBlock z).get 1 = 4 * z.get 0 + 6 * z.get 1 + z.get 2 + z.get 3 ∧
    (mixBlock z).get 2 = z.get 0 + 3 * z.get 1 + 5 * z.get 2 + 7 * z.get 3 ∧
    (mixBlock z).get 3 = z.get 0 + z.get 1 + 4 * z.get 2 + 6 * z.get 3 := by
  have hrows : mixBlock z = #v[5 * z.get 0 + 7 * z.get 1 + z.get 2 + 3 * z.get 3,
      4 * z.get 0 + 6 * z.get 1 + z.get 2 + z.get 3,
      z.get 0 + 3 * z.get 1 + 5 * z.get 2 + 7 * z.get 3,
      z.get 0 + z.get 1 + 4 * z.get 2 + 6 * z.get 3] := by
    unfold mixBlock
    refine Vector.toList_inj.1 ?_
    simp only [Vector.toList_mk, List.cons.injEq, and_true]
    exact ⟨by ring, by ring, by ring, by ring⟩
  rw [hrows]
  exact ⟨rfl, rfl, rfl, rfl⟩

theorem cast_eq_of_mixBlock {x y : Vector Int 4}
    (h : ∀ place, ((mixBlock x).get place : Element) = (mixBlock y).get place) (place : Fin 4) :
    (x.get place : Element) = y.get place := by
  obtain ⟨hx0, hx1, hx2, hx3⟩ := get_mixBlock x
  obtain ⟨hy0, hy1, hy2, hy3⟩ := get_mixBlock y
  have h0 := hx0 ▸ hy0 ▸ h 0
  have h1 := hx1 ▸ hy1 ▸ h 1
  have h2 := hx2 ▸ hy2 ▸ h 2
  have h3 := hx3 ▸ hy3 ▸ h 3
  push_cast at h0 h1 h2 h3
  -- Eight times the inverse matrix has these entries.
  apply eq_of_scaled (n := 8) (by decide)
  push_cast
  match place with
  | 0 => linear_combination -h0 + 3 * h1 - 6 * h2 + 7 * h3
  | 1 => linear_combination h0 - h1 + 4 * h2 - 5 * h3
  | 2 => linear_combination -6 * h0 + 7 * h1 - h2 + 3 * h3
  | 3 => linear_combination 4 * h0 - 5 * h1 + h2 - h3

/-- One of the four blocks of lanes, mixed. -/
def mixedBlock (state : Lanes Int) (k : Fin 4) : Vector Int 4 :=
  mixBlock (Vector.ofFn fun place : Fin 4 => state.get ⟨4 * k + place, by omega⟩)

theorem get_mixExternal (state : Lanes Int) (k place : Fin 4) :
    (mixExternal state).get ⟨4 * k + place, by omega⟩ =
      (mixedBlock state k).get place + ∑ j, (mixedBlock state j).get place := by
  set mixed : Vector (Vector Int 4) 4 := Vector.ofFn (mixedBlock state) with hmixed
  have hlayer : mixExternal state = Vector.ofFn fun lane : Fin 16 =>
      (mixed.get ⟨lane.val / 4, by omega⟩)[lane.val % 4] + (Vector.ofFn fun place : Fin 4 =>
        mixed.foldl (fun total block => total + block.get place) 0)[lane.val % 4] := rfl
  have hquotient : (⟨(4 * k + place) / 4, by omega⟩ : Fin 4) = k := Fin.ext (by simp; omega)
  have hplace : (4 * k + place : ℕ) % 4 = place := by omega
  have hsum : mixed.foldl (fun total block => total + block.get place) 0 =
      ∑ j, (mixedBlock state j).get place := by
    rw [Fin.sum_univ_four, ← zero_add ((mixedBlock state 0).get place)]
    rfl
  rw [hlayer, Vector.get_ofFn]
  simp only [hquotient, hplace, Vector.getElem_ofFn]
  have hblock : mixed.get k = mixedBlock state k := Vector.get_ofFn _ _
  change (mixed.get k).get place + _ = _
  rw [hblock]
  exact congrArg ((mixedBlock state k).get place + ·) hsum

theorem lossless_mixExternal : Lossless mixExternal := by
  intro x y h
  have hlane (k place : Fin 4) := congrFun h ⟨4 * k + place, by omega⟩
  simp only [elements_apply, get_mixExternal, Fin.sum_univ_four] at hlane
  push_cast at hlane
  -- The four lanes at one place add up to five times the sum of the mixed blocks there.
  have hblock (k place : Fin 4) :
      ((mixedBlock x k).get place : Element) = (mixedBlock y k).get place := by
    apply eq_of_scaled (n := 5) (by decide)
    push_cast
    linear_combination 5 * hlane k place -
      (hlane 0 place + hlane 1 place + hlane 2 place + hlane 3 place)
  funext lane
  have hmixed := cast_eq_of_mixBlock (hblock ⟨lane / 4, by omega⟩) ⟨lane % 4, by omega⟩
  have hdivision : (⟨4 * (lane / 4) + lane % 4, by omega⟩ : Fin 16) = lane :=
    Fin.ext (Nat.div_add_mod _ _)
  simpa only [Vector.get_ofFn, hdivision, elements_apply] using hmixed

/-! ## The internal layer -/

/-- A diagonal to which ones are added everywhere is invertible, if its determinant is not zero. -/
theorem eq_zero_of_diagonal {n : ℕ} {d z : Fin n → Element} (hd : ∀ i, d i ≠ 0)
    (hdeterminant : ∏ j, d j + ∑ i, ∏ j ∈ Finset.univ.erase i, d j ≠ 0)
    (h : ∀ i, z i * d i + ∑ j, z j = 0) : z = 0 := by
  have hsum : ∑ j, z j = 0 := by
    have hscaled (i : Fin n) :
        z i * ∏ j, d j = -((∑ j, z j) * ∏ j ∈ Finset.univ.erase i, d j) := by
      rw [← Finset.mul_prod_erase Finset.univ d (Finset.mem_univ i)]
      linear_combination (∏ j ∈ Finset.univ.erase i, d j) * h i
    have htotal := Finset.sum_congr rfl fun i (_ : i ∈ Finset.univ) => hscaled i
    rw [← Finset.sum_mul, Finset.sum_neg_distrib, ← Finset.mul_sum] at htotal
    refine (mul_eq_zero.1 (?_ : (∑ j, z j) * _ = 0)).resolve_right hdeterminant
    linear_combination htotal
  funext i
  have hlane := h i
  rw [hsum, add_zero] at hlane
  exact (mul_eq_zero.1 hlane).resolve_right (hd i)

/-- The determinant of the internal layer. -/
theorem determinant_ne_zero : ∏ j, (diagonal.get j : Element) +
    ∑ i, ∏ j ∈ Finset.univ.erase i, (diagonal.get j : Element) ≠ 0 := by
  have hcomputed : Field.reduce
      (∏ j, diagonal.get j + ∑ i, ∏ j ∈ Finset.univ.erase i, diagonal.get j) ≠ 0 := by
    decide +kernel
  intro hzero
  refine hcomputed (Field.reduce_eq_of_cast Field.canonical_zero ?_)
  push_cast
  exact hzero

theorem cast_diagonal_ne_zero (lane : Fin 16) : (diagonal.get lane : Element) ≠ 0 := by
  have hcomputed : ∀ lane, Field.reduce (diagonal.get lane) ≠ 0 := by decide +kernel
  intro hzero
  exact hcomputed lane (Field.reduce_eq_of_cast Field.canonical_zero (by rw [hzero, Int.cast_zero]))

theorem foldl_add_eq_sum (state : Lanes Int) : state.foldl (· + ·) 0 = ∑ lane, state.get lane := by
  have hlist : state.toList = List.ofFn state.get := by
    refine List.ext_getElem (by simp) fun i _ _ => ?_
    rw [List.getElem_ofFn, Vector.getElem_toList]
    rfl
  rw [← Vector.foldl_toList, ← List.sum_eq_foldl, hlist, List.sum_ofFn]

theorem lossless_mixInternal : Lossless mixInternal := by
  intro x y h
  have hzero := eq_zero_of_diagonal cast_diagonal_ne_zero determinant_ne_zero
    (z := elements x - elements y) fun lane => by
      have hlane := congrFun h lane
      simp only [elements_apply, mixInternal, scaleLanes, foldl_add_eq_sum, Vector.get_ofFn] at hlane
      push_cast at hlane
      simp only [Pi.sub_apply, elements_apply, Finset.sum_sub_distrib]
      linear_combination hlane
  exact sub_eq_zero.1 hzero

/-! ## The rounds -/

theorem lossless_fullRound (round : ℕ) : Lossless (fullRound · round) := by
  refine (lossless_mixExternal.comp fun x y h => ?_).reduced
  funext lane
  have hlane := congrFun h lane
  simp only [elements_apply, Vector.get_ofFn] at hlane
  exact cast_eq_of_sbox hlane

theorem lossless_partialRound (round : ℕ) : Lossless (partialRound · round) := by
  refine (lossless_mixInternal.comp fun x y h => ?_).reduced
  funext lane
  have hlane := congrFun h lane
  simp only [elements_apply, setFirst, Vector.get_ofFn] at hlane
  by_cases hfirst : lane = 0
  · rw [if_pos hfirst, if_pos hfirst] at hlane
    rw [hfirst]
    exact cast_eq_of_sbox hlane
  · rwa [if_neg hfirst, if_neg hfirst] at hlane

theorem lossless_permute : Lossless permute := by
  have start : Lossless fun input : Lanes Int =>
      (mixExternal (input.map Field.reduce)).map Field.reduce :=
    (lossless_mixExternal.comp fun x y h => by simpa only [elements_map_reduce] using h).reduced
  have opening := Lossless.foldl lossless_fullRound (List.range halfFullRounds)
  have middle := Lossless.foldl lossless_partialRound (List.range partialRounds)
  have closing := Lossless.foldl lossless_fullRound (List.range' halfFullRounds halfFullRounds)
  intro x y h
  unfold permute at h
  exact start (opening (middle (closing h)))

/-! ## Lists of canonical elements -/

theorem finite_canonical : {state : Lanes Int | Canonical state}.Finite := by
  refine Set.Finite.of_finite_image (f := elements) (Set.toFinite _) fun x hx y hy => ?_
  exact eq_of_elements hx hy

theorem permute_bijOn : Set.BijOn permute {state | Canonical state} {state | Canonical state} := by
  have hmaps : Set.MapsTo permute {state | Canonical state} {state | Canonical state} :=
    fun state _ => permute_canonical state
  refine (finite_canonical.injOn_iff_bijOn_of_mapsTo hmaps).1 fun x hx y hy h => ?_
  exact eq_of_elements hx hy (lossless_permute (congrArg elements h))

/-- Lists of sixteen canonical elements. -/
def CanonicalLists : Set (List Int) := {xs | xs.length = 16 ∧ ∀ x ∈ xs, Field.Canonical x}

theorem permuteList_toList (state : Lanes Int) :
    permuteList state.toList = .ok (permute state).toList := by
  unfold permuteList
  rw [dif_pos (by simp)]
  rfl

theorem image_toList_canonical :
    Vector.toList '' {state : Lanes Int | Canonical state} = CanonicalLists := by
  ext xs
  constructor
  · rintro ⟨state, hstate, rfl⟩
    refine ⟨by simp, fun x hx => ?_⟩
    obtain ⟨i, hi, rfl⟩ := Vector.getElem_of_mem (Vector.mem_toList_iff.1 hx)
    exact hstate ⟨i, hi⟩
  · rintro ⟨hlength, hcanonical⟩
    refine ⟨⟨xs.toArray, by simpa using hlength⟩, fun lane => hcanonical _ ?_, rfl⟩
    simp [Vector.get_eq_getElem]

/-- On lists of sixteen canonical elements the permutation gives such a list, different ones for
different ones, and every one of them. -/
theorem permuteList_bijOn :
    Set.BijOn permuteList CanonicalLists (Except.ok '' CanonicalLists) := by
  rw [← image_toList_canonical]
  refine ⟨?_, ?_, ?_⟩
  · rintro _ ⟨state, hstate, rfl⟩
    exact ⟨_, ⟨_, permute_bijOn.mapsTo hstate, rfl⟩, (permuteList_toList state).symm⟩
  · rintro _ ⟨x, hx, rfl⟩ _ ⟨y, hy, rfl⟩ h
    rw [permuteList_toList, permuteList_toList, Except.ok.injEq] at h
    rw [permute_bijOn.injOn hx hy (Vector.toList_inj.1 h)]
  · rintro _ ⟨_, ⟨y, hy, rfl⟩, rfl⟩
    obtain ⟨x, hx, rfl⟩ := permute_bijOn.surjOn hy
    exact ⟨_, ⟨x, hx, rfl⟩, permuteList_toList x⟩

end FieldLisp.Permutation
