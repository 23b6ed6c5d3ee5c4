import FieldLisp.Fault

/-! # Configuration

Bounds that the machine and its circuit share. Only the lookup depth changes what a step does, and
with it the shape of the circuit. -/

namespace FieldLisp

structure Config where
  /-- Environment nodes that one lookup may inspect. -/
  lookupDepth : Nat
  /-- Constraints that one frame's circuit may have, if there is a bound. -/
  maxConstraints : Option Nat
  /-- Frames whose circuits are built at the same time, if the caller chooses. -/
  workers : Option Nat
  /-- A lookup inspects at least one node. -/
  lookupDepth_pos : 0 < lookupDepth := by decide

namespace Config

def standard : Config := ⟨4, none, none, by decide⟩

instance : Inhabited Config := ⟨standard⟩

private def positive (fault : Int → Fault) : Option Int → Except Fault (Option Nat)
  | none => .ok none
  | some n => if 1 ≤ n then .ok (some n.toNat) else .error (fault n)

/-- A configuration of bounds that make sense; the first that does not is reported. -/
def make (lookupDepth : Int) (maxConstraints workers : Option Int) : Except Fault Config :=
  if h : 1 ≤ lookupDepth then do
    let maxConstraints ← positive .constraintLimit maxConstraints
    let workers ← positive .workerCount workers
    .ok ⟨lookupDepth.toNat, maxConstraints, workers, by omega⟩
  else .error (.lookupDepth lookupDepth)

private theorem positive_eq_ok {fault : Int → Fault} {given : Option Int} {bound : Option Nat}
    (h : positive fault given = .ok bound) :
    bound.map Int.ofNat = given ∧ ∀ n ∈ given, 1 ≤ n := by
  unfold positive at h
  cases given with
  | none =>
    cases h
    refine ⟨rfl, fun n hn => ?_⟩
    cases hn
  | some n =>
    dsimp only at h
    split at h
    case isFalse => cases h
    case isTrue hpositive =>
      cases h
      have hn : Int.ofNat n.toNat = n := Int.toNat_of_nonneg (by omega)
      refine ⟨congrArg some hn, fun m hm => ?_⟩
      cases hm
      exact hpositive

/-- What is made has the bounds that were given, and they are positive. -/
theorem bounds_of_make {lookupDepth : Int} {maxConstraints workers : Option Int} {config : Config}
    (h : make lookupDepth maxConstraints workers = .ok config) :
    config.lookupDepth = lookupDepth ∧
      config.maxConstraints.map Int.ofNat = maxConstraints ∧ (∀ n ∈ maxConstraints, 1 ≤ n) ∧
      config.workers.map Int.ofNat = workers ∧ ∀ n ∈ workers, 1 ≤ n := by
  unfold make at h
  split at h
  case isFalse => cases h
  case isTrue hdepth =>
    cases hlimit : positive .constraintLimit maxConstraints with
    | error fault =>
      rw [hlimit] at h
      cases h
    | ok limit =>
      rw [hlimit] at h
      cases hthreads : positive .workerCount workers with
      | error fault =>
        rw [hthreads] at h
        cases h
      | ok threads =>
        rw [hthreads] at h
        cases h
        have hnonneg : 0 ≤ lookupDepth := by omega
        exact ⟨Int.toNat_of_nonneg hnonneg, (positive_eq_ok hlimit).1, (positive_eq_ok hlimit).2,
          positive_eq_ok hthreads⟩

end Config

end FieldLisp
