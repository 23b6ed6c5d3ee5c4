import FieldLisp.Proofs.Machine.Course

/-!
# What rules cost

The model in which an operation has no value, and only its cost counts. No rule branches on data, so a
rule has one cost:

* `CostM`: the slots that a run asks for, and by how many variables it adds more than constraints,
  those of its slots aside;
* `EvalPhase.lookup_cost`: the lookup of a symbol, whose cost depends on the depth of the search;
* `Course.net`, `Course.Numbers`: the cost of a phase, in which the rules share their slots;
* `EvalPhase.net_course`, `EvalPhase.numbers_course`: how the depth of a lookup changes that of the
  evaluation phase.
-/

namespace FieldLisp

open StepModel

/-- A run with its cost. -/
@[ext] structure CostM (α : Type) where
  value : α
  /-- Variables less constraints, without those of slots. -/
  net : ℤ
  /-- Number of children of each slot that was asked for. -/
  slots : List ℤ

namespace CostM

instance : Monad CostM where
  pure a := ⟨a, 0, []⟩
  bind x f := ⟨(f x.value).value, x.net + (f x.value).net, x.slots ++ (f x.value).slots⟩

theorem net_bind (x : CostM α) (f : α → CostM β) : (x >>= f).net = x.net + (f x.value).net := rfl

instance : LawfulMonad CostM := LawfulMonad.mk' _
  (fun x => CostM.ext rfl (add_zero x.net) (List.append_nil x.slots))
  (fun _ _ => CostM.ext rfl (zero_add _) rfl)
  (fun _ _ _ => CostM.ext rfl (add_assoc _ _ _) (List.append_assoc _ _ _))

/-- Variables less constraints, where no slot is asked for. -/
def charge (net : ℤ) (a : α) : CostM α := ⟨a, net, []⟩

/-- Asks for a slot, and binds some of its combinations. -/
def slot (arity bindings : ℕ) (a : α) : CostM α := ⟨a, -bindings, [arity]⟩

end CostM

instance : ElementModel Unit where
  const _ := ()
  add _ _ := ()
  sub _ _ := ()

instance : PointerModel Unit where
  const _ := ()

open CostM in
instance : StepModel CostM Unit Unit where
  makePointer _ _ := pure ()
  payload _ := pure ()
  mul _ _ := pure ()
  div _ _ := pure ((), ())
  isZero _ := pure ()
  -- every number that is split into digits takes one constraint more than there are digits
  isNegative _ := charge (-2) ()
  less _ _ := charge (-6) ()
  divRem _ _ _ := charge (-2) ((), ())
  select _ _ _ := pure ()
  selectPointer _ _ _ := pure ()
  tagIs _ _ := pure ()
  pointerEq _ _ := pure ()
  hash _ children _ := slot children.length (1 + 5 * children.length) ()
  -- the tag of the node, and its digest
  unhash _ arity _ := slot arity.toNat 5 (List.replicate arity.toNat ())
  emit _ _ := pure ()

/-! ## Phases -/

namespace Course

variable {κ σ : Type} (x : Course CostM Unit Unit κ σ)

/-- All that comes before the rules. -/
def opening : CostM (List (κ × Unit)) := x.read >>= x.guards

/-- A rule, run on what the phase reads. -/
def rule (key : κ) : CostM (Step Unit Unit) := x.run key x.read.value

/-- Variables less constraints of a phase, without those of slots. The selectors add up to one and
force the guards, and each rule binds its outcome. -/
def net (bindings : ℕ) : ℤ :=
  x.opening.net - 1 - x.opening.value.length +
    (x.opening.value.map fun p => (x.rule p.1).net - bindings).sum

/-- Whether the phase asks for a slot. All rules number their slots from the same place on. -/
def Numbers (arity : ℤ) (index : ℕ) : Prop :=
  index < x.opening.slots.count arity ∨ ∃ p ∈ x.opening.value,
    index < x.opening.slots.count arity + (x.rule p.1).slots.count arity

theorem mem_slots_of_numbers {arity : ℤ} {index : ℕ} (h : x.Numbers arity index) :
    arity ∈ x.opening.slots ∨ ∃ p ∈ x.opening.value, arity ∈ (x.rule p.1).slots := by
  by_contra! hnone
  obtain ⟨hopening, hrules⟩ := hnone
  rw [Numbers, List.count_eq_zero.2 hopening] at h
  rcases h with h | ⟨p, hp, h⟩
  · exact absurd h (Nat.not_lt_zero _)
  · rw [List.count_eq_zero.2 (hrules p hp)] at h
    exact absurd h (Nat.not_lt_zero _)

end Course

/-! ## The lookup of a symbol -/

namespace EvalPhase

theorem search_cost (sought : Unit) (depth : ℕ) (state : Search Unit Unit) :
    (search sought depth state : CostM _).net = -5 * depth ∧
      (search sought depth state : CostM _).slots = List.replicate depth 3 := by
  induction depth generalizing state with
  | zero => exact ⟨rfl, rfl⟩
  | succ depth ih =>
    obtain ⟨hnet, hslots⟩ := ih state
    -- flags and selections are free: a node that is inspected is taken apart, and that is all
    have hnode : (search sought (depth + 1) state : CostM _).net =
        0 + (0 + (-5 + 0 + (0 + (0 + (0 + (0 + (0 +
          (search sought depth state : CostM _).net))))))) := rfl
    refine ⟨?_, congrArg (3 :: ·) hslots⟩
    rw [hnode, hnet]
    push_cast
    ring

/-- Each node that a lookup may inspect asks for a slot; two more are for closing a function over the
node that binds it. -/
theorem lookup_cost (depth : ℕ) (s : Scope Unit Unit) :
    (lookup depth s : CostM _).net = (lookup 0 s : CostM _).net - 5 * depth ∧
      (lookup depth s : CostM _).slots = List.replicate depth 3 ++ [3, 3] := by
  let state : Search Unit Unit := ⟨(), (), (), (), ()⟩
  obtain ⟨hnet, hslots⟩ := search_cost () depth state
  have hrest : (lookup depth s : CostM _).net =
      (search () depth state : CostM _).net + (lookup 0 s : CostM _).net := rfl
  refine ⟨?_, congrArg (· ++ [3, 3]) hslots⟩
  rw [hrest, hnet]
  ring

/-- The course of the evaluation phase, as far as its cost goes. -/
abbrev costs (depth : ℕ) : Course CostM Unit Unit EvalRule (Scope Unit Unit) := course depth () () ()

theorem rule_eq {rule : EvalRule} (h : rule ≠ .lookup) (depth : ℕ) :
    (costs depth).rule rule = (costs 0).rule rule := by
  cases rule with
  | lookup => exact absurd rfl h
  | _ => rfl

/-- Each node that a lookup may inspect takes five constraints, beside its slot. -/
theorem net_course (depth bindings : ℕ) :
    (costs depth).net bindings = (costs 0).net bindings - 5 * depth := by
  have hrule (rule : EvalRule) : ((costs depth).rule rule).net =
      ((costs 0).rule rule).net - if rule = .lookup then 5 * (depth : ℤ) else 0 := by
    split
    · rename_i h
      subst h
      exact (lookup_cost depth _).1
    · rename_i h
      rw [rule_eq h, sub_zero]
  have hopening : (costs depth).opening = (costs 0).opening := rfl
  have hrules : (costs 0).opening.value = EvalRule.all.map fun rule => (rule, ()) := rfl
  simp only [Course.net, hopening, hrules, hrule, List.map_map, Function.comp_def]
  simp [EvalRule.all]
  ring

/-- A lookup asks for most slots of three children. Its depth decides on no others. -/
theorem numbers_course (depth : ℕ) (arity : ℤ) (index : ℕ) :
    (costs depth).Numbers arity index ↔
      if arity = 3 then index < depth + 2 else (costs 0).Numbers arity index := by
  have hrules (depth : ℕ) : (costs depth).Numbers arity index ↔
      index < (costs 0).opening.slots.count arity ∨ ∃ rule, index <
        (costs 0).opening.slots.count arity + ((costs depth).rule rule).slots.count arity := by
    have hvalue : (costs depth).opening.value = EvalRule.all.map fun rule => (rule, ()) := rfl
    simp only [Course.Numbers, hvalue, List.mem_map, EvalRule.mem_all, true_and,
      exists_exists_eq_and]
    rfl
  have hlookup (depth : ℕ) : ((costs depth).rule .lookup).slots.count arity =
      if arity = 3 then depth + 2 else 0 := by
    change ((lookup depth _ : CostM _).slots).count arity = _
    rw [(lookup_cost depth _).2]
    rcases eq_or_ne arity 3 with rfl | h
    · simp
    · simp [h, h.symm, List.count_eq_zero]
  rw [hrules]
  split
  · rename_i h
    subst h
    have hopening : (costs 0).opening.slots.count 3 = 0 := rfl
    have hothers {rule : EvalRule} (h : rule ≠ .lookup) :
        ((costs 0).rule rule).slots.count 3 ≤ 1 := by
      cases rule <;> first | exact absurd rfl h | decide
    simp only [if_true] at hlookup
    simp only [hopening, Nat.not_lt_zero, false_or, Nat.zero_add]
    constructor
    · rintro ⟨rule, hrule⟩
      rcases eq_or_ne rule .lookup with rfl | h
      · exact hlookup depth ▸ hrule
      · rw [rule_eq h] at hrule
        have := hothers h
        omega
    · exact fun h => ⟨.lookup, (hlookup depth).symm ▸ h⟩
  · rename_i h
    have hsame (rule : EvalRule) : ((costs depth).rule rule).slots.count arity =
        ((costs 0).rule rule).slots.count arity := by
      rcases eq_or_ne rule .lookup with rfl | hrule
      · rw [hlookup, hlookup, if_neg h, if_neg h]
      · rw [rule_eq hrule]
    simp only [hsame]
    exact (hrules 0).symm

/-- Nodes have two, three or four children. -/
theorem arity_of_numbers {depth : ℕ} {arity : ℤ} {index : ℕ} (h : (costs depth).Numbers arity index) :
    arity ∈ ([2, 3, 4] : List ℤ) := by
  have hothers : ∀ rule ∈ EvalRule.all, rule ≠ .lookup →
      ∀ arity ∈ ((costs 0).rule rule).slots, arity ∈ ([2, 3, 4] : List ℤ) := by decide
  rcases Course.mem_slots_of_numbers _ h with h | ⟨⟨rule, _⟩, -, h⟩
  · have hopening : ∀ arity ∈ (costs 0).opening.slots, arity ∈ ([2, 3, 4] : List ℤ) := by decide
    exact hopening arity h
  · rcases eq_or_ne rule .lookup with rfl | hrule
    · change arity ∈ (lookup depth _ : CostM _).slots at h
      rw [(lookup_cost depth _).2] at h
      obtain rfl : arity = 3 := by
        rcases List.mem_append.1 h with h | h
        · exact List.eq_of_mem_replicate h
        · simpa using h
      decide
    · exact hothers rule rule.mem_all hrule arity (rule_eq hrule depth ▸ h)

end EvalPhase

namespace ContPhase

/-- The course of the continuation phase, as far as its cost goes. -/
abbrev costs : Course CostM Unit Unit ContRule (Scope Unit Unit) := course ⟨(), (), (), ()⟩

/-- Nodes have two, three or four children. -/
theorem arity_of_numbers {arity : ℤ} {index : ℕ} (h : costs.Numbers arity index) :
    arity ∈ ([2, 3, 4] : List ℤ) := by
  have hopening : ∀ arity ∈ costs.opening.slots, arity ∈ ([2, 3, 4] : List ℤ) := by decide
  have hrules : ∀ rule ∈ ContRule.all, ∀ arity ∈ (costs.rule rule).slots,
      arity ∈ ([2, 3, 4] : List ℤ) := by decide
  rcases Course.mem_slots_of_numbers _ h with h | ⟨⟨rule, _⟩, -, h⟩
  · exact hopening arity h
  · exact hrules rule rule.mem_all arity h

end ContPhase

end FieldLisp
