import FieldLisp.Circuit.Operand
import FieldLisp.Proofs.Circuit.BuiltFrame
import FieldLisp.Proofs.Circuit.Scope
import FieldLisp.Proofs.Circuit.Sponge

/-!
# Witnesses that fit what is built

Values and terms of a combination are computed apart from each other, and so are a constraint and
the assignment that is to satisfy it. Whatever operations are applied one after the other, they fit:

* `Operation`: one operation on combinations that were obtained before, or on numbers;
* `Obtains`: what a sequence of operations obtains from a fresh circuit;
* `Consistent`: what holds of a circuit and of the combinations obtained so far;
* `Operation.consistent`: an operation that succeeds keeps this up;
* `obtained_consistent`: so does every sequence of operations.
-/

namespace FieldLisp

open FieldLisp.Field (Element)
open EStateM (bind_eq_ok pure_eq_ok)

namespace Circuit

/-- An operation that adds to a circuit or computes with its combinations. -/
inductive Operation where
  | alloc (value : Int)
  | allocPublic (value : Int)
  | add (x y : Operand)
  | sub (x y : Operand)
  | neg (x : Operand)
  | scale (x : Operand) (scalar : Int)
  | mul (x y : Operand)
  | isZero (x : Operand)
  | select (flag x y : Operand)
  | allocBit (value : Bool)
  | bits (x : Operand) (count : ℕ)
  | isNegative (x : Operand)
  | less (x y : Operand)
  | divRem (condition x y : Operand) (count : ℕ)
  | oneHot (index : Int) (count : ℕ)
  | permute (xs : List Operand)
  | sponge (xs : List Operand)

namespace Operation

def operands : Operation → List Operand
  | alloc _ | allocPublic _ | allocBit _ | oneHot _ _ => []
  | neg x | scale x _ | isZero x | bits x _ | isNegative x => [x]
  | add x y | sub x y | mul x y | less x y => [x, y]
  | select flag x y => [flag, x, y]
  | divRem condition x y _ => [condition, x, y]
  | permute xs | sponge xs => xs

/-- Runs the operation; all combinations that it gives are listed. -/
def run : Operation → CircuitM (List Combination)
  | alloc value => do pure [← Circuit.alloc value]
  | allocPublic value => do pure [← Circuit.allocPublic value]
  | add x y => pure [x.toCombination + y.toCombination]
  | sub x y => pure [x.toCombination - y.toCombination]
  | neg x => pure [-x.toCombination]
  | scale x scalar => pure [x.toCombination * scalar]
  | mul x y => do pure [← Circuit.mul x.toCombination y.toCombination]
  | isZero x => do
    let test ← Gadget.isZero x.toCombination
    pure [test.1, test.2]
  | select flag x y => do
    pure [← Gadget.select flag.toCombination x.toCombination y.toCombination]
  | allocBit value => do pure [← Gadget.allocBit value]
  | bits x count => Gadget.bits x.toCombination count
  | isNegative x => do pure [← Gadget.isNegative x.toCombination]
  | less x y => do pure [← Gadget.less x.toCombination y.toCombination]
  | divRem condition x y count => do
    let result ← Gadget.divRem condition.toCombination x.toCombination y.toCombination count
    pure [result.1, result.2]
  | oneHot index count => Gadget.oneHot index count
  | permute xs => Gadget.permuteList (xs.map Operand.toCombination)
  | sponge xs => do
    let image ← Gadget.sponge (xs.map Operand.toCombination)
    pure image.toList

/-- The operation is used as it is meant to be: a choice goes by a flag, what is cut into digits has
no others, division is by operands in range, and an index is one of those that there are. -/
def Honest : Operation → Prop
  | select flag _ _ => flag.toCombination.value = 0 ∨ flag.toCombination.value = 1
  | bits x count => x.toCombination.value < 2 ^ count
  | divRem condition x y count => Gadget.MayDivide count condition.toCombination.value
      x.toCombination.value y.toCombination.value
  | oneHot index count => 0 ≤ index ∧ index < count
  | _ => True

end Operation

/-- What a sequence of honest operations obtains from a fresh circuit, if nothing fails: the circuit
that they leave, and all combinations that they give. Operands are numbers and combinations that
were obtained before. -/
inductive Obtains (limit : Option Int) : List Operation → Circuit → List Combination → Prop
  | fresh : Obtains limit [] (.empty limit) []
  | next {operations : List Operation} {s t : Circuit} {known results : List Combination}
      {operation : Operation} (before : Obtains limit operations s known)
      (operands : ∀ x, .combination x ∈ operation.operands → x ∈ known)
      (honest : operation.Honest) (run : operation.run s = .ok results t) :
      Obtains limit (operations ++ [operation]) t (known ++ results)

/-! ## One operation -/

/-- Known combinations are made of variables that exist; and every valuation that gives variables
their assigned values gives combinations theirs, and satisfies the constraints. -/
structure Consistent (s : Circuit) (known : List Combination) : Prop where
  one : s.assignment.toList[Combination.one]? = some 1
  labelled : s.labels.size = s.constraints.size
  inScope : ∀ x ∈ known, x.InScope s.assignment.size
  faithful : ∀ ω, s.Fits ω → ∀ x ∈ known, x.Faithful ω
  satisfied : ∀ ω, s.Fits ω → s.Satisfied ω

theorem Consistent.size_pos {s : Circuit} {known : List Combination} (h : Consistent s known) :
    0 < s.assignment.size := (List.getElem?_eq_some_iff.1 h.one).1

theorem consistent_empty (limit : Option Int) : Consistent (.empty limit) [] where
  one := rfl
  labelled := rfl
  inScope _ h := by cases h
  faithful _ _ _ h := by cases h
  satisfied _ _ _ h := by cases h

section
variable {α β : Type} {x : CircuitM α} {f : α → β}

theorem Yields.map {n : ℕ} {mid : ℕ → α → Prop} {good : ℕ → β → Prop} (hx : Yields n x mid)
    (h : ∀ m a, mid m a → good m (f a)) : Yields n (x >>= fun a => Pure.pure (f a)) good := by
  intro s b t hn hrun
  obtain ⟨a, u, hxs, hpure⟩ := bind_eq_ok.1 hrun
  obtain ⟨rfl, rfl⟩ := pure_eq_ok.1 hpure
  obtain ⟨hfree, hle, ha⟩ := hx s a u hn hxs
  exact ⟨EStateM.bind_of_ok hfree _, hle, h _ a ha⟩

theorem Meets.map {ω₀ ω : Valuation} {honest : Prop} {mid : α → Prop} {post : β → Prop}
    (hx : Meets ω₀ ω honest x mid) (h : ∀ a, mid a → post (f a)) :
    Meets ω₀ ω honest (x >>= fun a => Pure.pure (f a)) post := by
  intro s b t hs hrun hfits
  obtain ⟨a, u, hxs, hpure⟩ := bind_eq_ok.1 hrun
  obtain ⟨rfl, rfl⟩ := pure_eq_ok.1 hpure
  obtain ⟨hkeep, hmid⟩ := hx s a u hs hxs hfits
  exact ⟨hkeep, fun hsat => h a (hmid hsat)⟩

theorem Grows.map (hx : Grows x) : Grows (x >>= fun a => Pure.pure (f a)) :=
  hx.bind fun _ => .pure _

end

/-- A public variable is a variable of a circuit that expects one more of them. -/
theorem allocPublic_eq_ok {v : Int} {s t : Circuit} {a : Combination}
    (h : allocPublic v s = .ok a t) :
    alloc v { s with publicCount := s.publicCount + 1 } = .ok a t := by
  unfold allocPublic at h
  split at h
  · exact h
  · cases h

theorem meets_allocPublic {ω₀ ω : Valuation} {honest : Prop} (v : Int) :
    Meets ω₀ ω honest (allocPublic v) fun c => c.Faithful ω₀ := by
  intro s a t hs hrun hfits
  have hmeets : Meets ω₀ ω honest (alloc v) _ := meets_alloc v
  obtain ⟨hkeep, hpost⟩ := hmeets { s with publicCount := s.publicCount + 1 } a t hs
    (allocPublic_eq_ok hrun) hfits
  exact ⟨hkeep, fun hsat => (hpost hsat).1⟩

/-- A faithful combination reads the value that it carries. -/
theorem reads_value {ω : Valuation} {x : Combination} (h : x.Faithful ω) : x.Reads ω ω x.value :=
  ⟨h, h.under_eq⟩

theorem meets_permuteList {ω : Valuation} {input : List Combination}
    (h : ∀ x ∈ input, x.Faithful ω) : Meets ω ω True (Gadget.permuteList input)
      fun output => ∀ y ∈ output, y.Faithful ω := by
  unfold Gadget.permuteList
  split
  · rename_i hsize
    set lanes : Permutation.Lanes Combination := ⟨input.toArray, hsize⟩
    have hlanes : Permutation.Related (Combination.Reads ω ω) lanes
        (lanes.map Combination.value) := by
      intro i hi
      rw [Vector.getElem_map]
      exact reads_value (h _ (List.mem_toArray.1 (Array.getElem_mem (hi.trans_eq hsize.symm))))
    refine ((Gadget.meets_permute hlanes).mono (fun _ => rfl) fun _ => id).map
      fun output houtput y hy => ?_
    obtain ⟨i, hi, rfl⟩ := Vector.getElem_of_mem (Vector.mem_toList_iff.1 hy)
    exact (houtput i hi).faithful
  · intro s a t _ hrun
    cases hrun

theorem meets_sponge {ω : Valuation} {elements : List Combination}
    (h : ∀ x ∈ elements, x.Faithful ω) : Meets ω ω True (Gadget.sponge elements)
      fun image => ∀ y ∈ image.toList, y.Faithful ω := by
  have hreads : List.Forall₂ (Combination.Reads ω ω) elements (elements.map Combination.value) :=
    List.forall₂_map_right_iff.2 (List.forall₂_same.2 fun x hx => reads_value (h x hx))
  refine (Gadget.meets_sponge hreads).mono (fun _ => rfl) fun image himage y hy => ?_
  obtain ⟨i, hi, rfl⟩ := List.getElem_of_mem hy
  exact (himage.get hi (himage.length_eq ▸ hi)).faithful

namespace Operation

theorem yields {operation : Operation} {n : ℕ} (hn : 0 < n)
    (h : ∀ x ∈ operation.operands, x.toCombination.InScope n) :
    Yields n operation.run fun m results => ∀ c ∈ results, c.InScope m := by
  have one (m : ℕ) (c : Combination) (hc : c.InScope m) : ∀ d ∈ [c], d.InScope m := by
    simpa using hc
  have two (m : ℕ) (c : Combination × Combination) (hc : c.1.InScope m ∧ c.2.InScope m) :
      ∀ d ∈ [c.1, c.2], d.InScope m := by
    simpa using hc
  cases operation with
  | alloc value => exact (yields_alloc value).map one
  | allocPublic value => exact (yields_allocPublic value).map one
  | add x y =>
    obtain ⟨hx, hy, -⟩ := by simpa only [operands, List.forall_mem_cons] using h
    exact .pure fun _ hm => one _ _ ((hx.add hy).mono hm)
  | sub x y =>
    obtain ⟨hx, hy, -⟩ := by simpa only [operands, List.forall_mem_cons] using h
    exact .pure fun _ hm => one _ _ ((hx.sub hy).mono hm)
  | neg x =>
    obtain ⟨hx, -⟩ := by simpa only [operands, List.forall_mem_cons] using h
    exact .pure fun _ hm => one _ _ (hx.neg.mono hm)
  | scale x scalar =>
    obtain ⟨hx, -⟩ := by simpa only [operands, List.forall_mem_cons] using h
    exact .pure fun _ hm => one _ _ ((hx.scale scalar).mono hm)
  | mul x y =>
    obtain ⟨hx, hy, -⟩ := by simpa only [operands, List.forall_mem_cons] using h
    exact (yields_mul hx hy).map one
  | isZero x => exact (Gadget.yields_isZero hn _).map two
  | select flag x y =>
    obtain ⟨hflag, _, hy, -⟩ := by simpa only [operands, List.forall_mem_cons] using h
    exact (Gadget.yields_select hflag hy).map one
  | allocBit value => exact (Gadget.yields_allocBit value).map one
  | bits x count => exact Gadget.yields_bits _ count
  | isNegative x =>
    obtain ⟨hx, -⟩ := by simpa only [operands, List.forall_mem_cons] using h
    exact (Gadget.yields_isNegative hx).map one
  | less x y =>
    obtain ⟨hx, hy, -⟩ := by simpa only [operands, List.forall_mem_cons] using h
    exact (Gadget.yields_less hn hx hy).map one
  | divRem condition x y count =>
    obtain ⟨hc, _, hy, -⟩ := by simpa only [operands, List.forall_mem_cons] using h
    exact (Gadget.yields_divRem hn hc hy count).map two
  | oneHot index count => exact Gadget.yields_oneHot index count
  | permute xs => exact Gadget.yields_permuteList (List.forall_mem_map.2 h)
  | sponge xs => exact (Gadget.yields_sponge hn (List.forall_mem_map.2 h)).map fun _ _ h => h

theorem meets {operation : Operation} {ω : Valuation}
    (h : ∀ x ∈ operation.operands, x.toCombination.Faithful ω) :
    Meets ω ω operation.Honest operation.run fun results => ∀ c ∈ results, c.Faithful ω := by
  have one (c : Combination) (hc : c.Faithful ω) : ∀ d ∈ [c], d.Faithful ω := by
    simpa using hc
  have two (c : Combination × Combination) (hc : c.1.Faithful ω ∧ c.2.Faithful ω) :
      ∀ d ∈ [c.1, c.2], d.Faithful ω := by
    simpa using hc
  cases operation with
  | alloc value => exact (meets_alloc value).map fun c hc => one c hc.1
  | allocPublic value => exact (meets_allocPublic value).map one
  | add x y =>
    obtain ⟨hx, hy, -⟩ := by simpa only [operands, List.forall_mem_cons] using h
    exact .pure (one _ (hx.add hy))
  | sub x y =>
    obtain ⟨hx, hy, -⟩ := by simpa only [operands, List.forall_mem_cons] using h
    exact .pure (one _ (hx.sub hy))
  | neg x =>
    obtain ⟨hx, -⟩ := by simpa only [operands, List.forall_mem_cons] using h
    exact .pure (one _ hx.neg)
  | scale x scalar =>
    obtain ⟨hx, -⟩ := by simpa only [operands, List.forall_mem_cons] using h
    exact .pure (one _ (hx.scale scalar))
  | mul x y =>
    obtain ⟨hx, hy, -⟩ := by simpa only [operands, List.forall_mem_cons] using h
    exact ((meets_mul hx hy).mono (fun _ => rfl) fun _ => id).map fun c hc => one c hc.1
  | isZero x =>
    obtain ⟨hx, -⟩ := by simpa only [operands, List.forall_mem_cons] using h
    exact ((Gadget.meets_isZero hx).mono (fun _ => rfl) fun _ => id).map
      fun c hc => two c ⟨hc.faithful_zero, hc.faithful_inverse⟩
  | select flag x y =>
    obtain ⟨hflag, hx, hy, -⟩ := by simpa only [operands, List.forall_mem_cons] using h
    refine ((Gadget.meets_select hflag hx hy).mono (fun hhonest => ⟨rfl, ?_⟩) fun _ => id).map
      fun c hc => one c hc.1
    rw [hflag.under_eq]
    rcases hhonest with hvalue | hvalue
    · exact .inl (by rw [hvalue, Int.cast_zero])
    · exact .inr (by rw [hvalue, Int.cast_one])
  | allocBit value =>
    exact ((Gadget.meets_allocBit value).mono (fun _ => rfl) fun _ => id).map
      fun c hc => one c hc.faithful
  | bits x count =>
    obtain ⟨hx, -⟩ := by simpa only [operands, List.forall_mem_cons] using h
    exact (Gadget.meets_bits hx count).mono (fun hlt => ⟨rfl, hlt⟩)
      fun _ hdigits d hd => (hdigits.2.1 d hd).1
  | isNegative x =>
    obtain ⟨hx, -⟩ := by simpa only [operands, List.forall_mem_cons] using h
    exact ((Gadget.meets_isNegative hx).mono (fun _ => rfl) fun _ => id).map
      fun c hc => one c hc.faithful
  | less x y =>
    obtain ⟨hx, hy, -⟩ := by simpa only [operands, List.forall_mem_cons] using h
    exact ((Gadget.meets_less hx hy).mono (fun _ => rfl) fun _ => id).map
      fun c hc => one c hc.1
  | divRem condition x y count =>
    obtain ⟨hc, hx, hy, -⟩ := by simpa only [operands, List.forall_mem_cons] using h
    exact ((Gadget.meets_divRem hc hx hy).mono (fun hmay => ⟨rfl, hmay⟩) fun _ => id).map
      fun c hc => two c ⟨hc.1.1, hc.2.1⟩
  | oneHot index count =>
    refine Gadget.meets_oneHot.mono (fun hrange => ⟨rfl, hrange⟩) fun _ hflags f hf => ?_
    obtain ⟨i, hi, rfl⟩ := List.getElem_of_mem hf
    exact (hflags.2.isFlag i hi).faithful
  | permute xs => exact meets_permuteList (List.forall_mem_map.2 h)
  | sponge xs => exact (meets_sponge (List.forall_mem_map.2 h)).map fun _ => id

/-- A run without a limit adds variables, and a label to each constraint. -/
theorem extends_of_ok {operation : Operation} {s t : Circuit} {results : List Combination}
    (hs : s.limit = none) (h : operation.run s = .ok results t) :
    s.assignment.toList <+: t.assignment.toList ∧
      (s.labels.size = s.constraints.size → t.labels.size = t.constraints.size) := by
  have of_extends (hext : Extends s t) : s.assignment.toList <+: t.assignment.toList ∧
      (s.labels.size = s.constraints.size → t.labels.size = t.constraints.size) :=
    ⟨hext.assignment, hext.labelled⟩
  have of_grows (hgrows : Grows operation.run) := of_extends (hgrows.extends_of_ok hs h)
  cases operation with
  | alloc value => exact of_grows (grows_alloc value).map
  | allocPublic value =>
    obtain ⟨a, u, hrun, hpure⟩ := bind_eq_ok.1 h
    obtain ⟨-, rfl⟩ := pure_eq_ok.1 hpure
    have hext : Extends { s with publicCount := s.publicCount + 1 } u :=
      (grows_alloc value).extends_of_ok hs (allocPublic_eq_ok hrun)
    exact ⟨hext.assignment, hext.labelled⟩
  | add | sub | neg | scale => exact of_grows (.pure _)
  | mul x y => exact of_grows (grows_mul _ _).map
  | isZero x => exact of_grows (Gadget.grows_isZero _).map
  | select flag x y => exact of_grows (Gadget.grows_select _ _ _).map
  | allocBit value => exact of_grows (Gadget.grows_allocBit value).map
  | bits x count => exact of_grows (Gadget.grows_bits _ count)
  | isNegative x => exact of_grows (Gadget.grows_isNegative _).map
  | less x y => exact of_grows (Gadget.grows_less _ _).map
  | divRem condition x y count => exact of_grows (Gadget.grows_divRem _ _ _ count).map
  | oneHot index count => exact of_grows (Gadget.grows_oneHot index count)
  | permute xs =>
    change Gadget.permuteList _ s = _ at h
    unfold Gadget.permuteList at h
    split at h
    · exact of_extends ((Gadget.grows_permute _).map.extends_of_ok hs h)
    · cases h
  | sponge xs => exact of_grows (Gadget.grows_sponge _).map

/-- An operation that is used honestly and succeeds keeps circuit and combinations consistent. -/
theorem consistent {operation : Operation} {s t : Circuit} {known results : List Combination}
    (hs : Consistent s known) (hoperands : ∀ x, .combination x ∈ operation.operands → x ∈ known)
    (hhonest : operation.Honest) (hrun : operation.run s = .ok results t) :
    Consistent t (known ++ results) := by
  have operand {P : Combination → Prop} (hconstant : ∀ v, P (.constant v)) (hknown : ∀ x ∈ known, P x)
      (x : Operand) (hx : x ∈ operation.operands) : P x.toCombination := by
    cases x with
    | number v => exact hconstant v
    | combination x => exact hknown x (hoperands x hx)
  obtain ⟨hfree, hle, hscope⟩ := yields hs.size_pos
    (operand (fun v => .constant v hs.size_pos) hs.inScope) s results t le_rfl hrun
  obtain ⟨hinitial, hlabelled⟩ := extends_of_ok rfl hfree
  have hkept {i : ℕ} {v : Int} (hi : s.assignment.toList[i]? = some v) :
      t.assignment.toList[i]? = some v := by
    obtain ⟨hlt, rfl⟩ := List.getElem?_eq_some_iff.1 hi
    exact List.prefix_iff_getElem?.1 hinitial i hlt
  have hfits {ω : Valuation} (hω : t.Fits ω) : s.Fits ω := fun i v hi => hω i v (hkept hi)
  have hmeets (ω : Valuation) (hω : t.Fits ω) :
      t.Satisfied ω ∧ ∀ c ∈ results, c.Faithful ω := by
    obtain ⟨hkeep, hresults⟩ := meets
      (operand (fun v => Combination.Faithful.constant v) (hs.faithful ω (hfits hω)))
      s.unlimited results t.unlimited rfl hfree hω
    have hsat := hkeep hhonest (hs.satisfied ω (hfits hω))
    exact ⟨hsat, hresults hsat⟩
  refine ⟨hkept hs.one, hlabelled hs.labelled, ?_, ?_, fun ω hω => (hmeets ω hω).1⟩
  · rw [List.forall_mem_append]
    exact ⟨fun x hx => (hs.inScope x hx).mono hle, hscope⟩
  · intro ω hω
    rw [List.forall_mem_append]
    exact ⟨hs.faithful ω (hfits hω), (hmeets ω hω).2⟩

end Operation

/-! ## All operations -/

theorem Obtains.consistent {limit : Option Int} {operations : List Operation} {s : Circuit}
    {known : List Combination} (h : Obtains limit operations s known) : Consistent s known := by
  induction h with
  | fresh => exact consistent_empty limit
  | next _ operands honest run ih => exact Operation.consistent ih operands honest run

/-- Whatever is obtained from a fresh circuit by honest operations that do not fail: every
combination carries the value of its terms under the assignment, with canonical coefficients that
are not zero on variables that exist; and the assignment satisfies every constraint. -/
theorem obtained_consistent {limit : Option Int} {operations : List Operation} {s : Circuit}
    {known : List Combination} (h : Obtains limit operations s known) :
    (∀ x ∈ known, x.value = Combination.evalTerms s.assignment x.terms ∧
      ∀ t ∈ x.terms, t.1 < s.assignment.size ∧ Field.Canonical t.2 ∧ t.2 ≠ 0) ∧
    (∀ k ∈ s.constraints.toList, holds s.assignment k = true) ∧ s.isSatisfied = true := by
  have hs := h.consistent
  have hone : s.assignment.getD Combination.one 0 = 1 := by
    rw [Array.getD_eq_getD_getElem?, ← Array.getElem?_toList, hs.one]
    rfl
  have hfits := fits_ofAssignment hone
  have hsatisfied := (isSatisfied_iff_satisfied hs.labelled hone).2 (hs.satisfied _ hfits)
  refine ⟨fun x hx => ⟨?_, hs.inScope x hx⟩, (isSatisfied_iff hs.labelled).1 hsatisfied, hsatisfied⟩
  refine (hs.faithful _ hfits x hx).value_eq (Field.reduce_canonical _) ?_
  rw [Combination.cast_evalTerms_ofAssignment hone]
  rfl

/-- Five is cut into three digits, the lowest of which chooses between it and seven. -/
theorem obtained_digits_consistent : ∃ s known,
    Obtains (some 5) [.alloc 5, .bits (.combination (.ofVariable 1 5)) 3,
      .select (.combination (.ofVariable 2 1)) (.combination (.ofVariable 1 5)) (.number 7)] s
      known ∧
    known.map (·.value) = [5, 1, 0, 1, 5] ∧ s.constraints.size = 5 ∧
    (∀ x ∈ known, x.value = Combination.evalTerms s.assignment x.terms ∧
      ∀ t ∈ x.terms, t.1 < s.assignment.size ∧ Field.Canonical t.2 ∧ t.2 ≠ 0) ∧
    (∀ k ∈ s.constraints.toList, holds s.assignment k = true) ∧ s.isSatisfied = true := by
  have first : Obtains (some 5) [.alloc 5] _ _ := .next .fresh (fun _ h => by cases h) trivial rfl
  have second : Obtains (some 5) [.alloc 5, .bits (.combination (.ofVariable 1 5)) 3] _ _ :=
    first.next (by simp [Operation.operands]; decide) (show (5 : Int) < 2 ^ 3 by decide) rfl
  have third : Obtains (some 5) [.alloc 5, .bits (.combination (.ofVariable 1 5)) 3,
      .select (.combination (.ofVariable 2 1)) (.combination (.ofVariable 1 5)) (.number 7)] _ _ :=
    second.next (by simp [Operation.operands]; decide) (.inr rfl) rfl
  exact ⟨_, _, third, by decide, by decide, obtained_consistent third⟩

end Circuit

end FieldLisp
