import Mathlib

/-!
# Runs that succeed

An operation that may fail succeeds step by step:

* `bind_eq_ok`: a sequence succeeds if its parts do, one after the other;
* `length_mapM_eq_ok`: a loop returns a result for each entry;
* `toList_mapM_eq_ok`: a loop over a vector is the loop over its entries.
-/

namespace EStateM

variable {ε σ α β : Type}

theorem bind_eq_ok {x : EStateM ε σ α} {f : α → EStateM ε σ β} {s : σ} {b : β} {u : σ} :
    (x >>= f) s = .ok b u ↔ ∃ a t, x s = .ok a t ∧ f a t = .ok b u := by
  change EStateM.bind x f s = _ ↔ _
  unfold EStateM.bind
  cases x s <;> simp

theorem bind_of_ok {x : EStateM ε σ α} {s : σ} {a : α} {t : σ} (h : x s = .ok a t)
    (f : α → EStateM ε σ β) : (x >>= f) s = f a t := by
  change EStateM.bind x f s = _
  rw [EStateM.bind, h]

theorem bind_of_error {x : EStateM ε σ α} {e : ε} {s t : σ} (h : x s = .error e t)
    (f : α → EStateM ε σ β) : (x >>= f) s = .error e t := by
  change EStateM.bind x f s = _
  rw [EStateM.bind, h]

theorem pure_eq_ok {a b : α} {s t : σ} :
    (pure a : EStateM ε σ α) s = .ok b t ↔ a = b ∧ s = t := by
  change EStateM.Result.ok a s = .ok b t ↔ _
  rw [EStateM.Result.ok.injEq]

theorem map_eq_ok {f : α → β} {x : EStateM ε σ α} {s : σ} {b : β} {u : σ} :
    (f <$> x) s = .ok b u ↔ ∃ a, x s = .ok a u ∧ f a = b := by
  rw [← bind_pure_comp, bind_eq_ok]
  simp only [pure_eq_ok]
  constructor
  · rintro ⟨a, t, hx, rfl, rfl⟩
    exact ⟨a, hx, rfl⟩
  · rintro ⟨a, hx, rfl⟩
    exact ⟨a, u, hx, rfl, rfl⟩

theorem length_mapM_eq_ok {f : α → EStateM ε σ β} {xs : List α} {s t : σ} {ys : List β}
    (h : xs.mapM f s = .ok ys t) : ys.length = xs.length := by
  induction xs generalizing s ys with
  | nil =>
    cases h
    rfl
  | cons x xs ih =>
    rw [List.mapM_cons] at h
    obtain ⟨y, _, -, h⟩ := bind_eq_ok.1 h
    obtain ⟨zs, _, hzs, h⟩ := bind_eq_ok.1 h
    cases h
    rw [List.length_cons, List.length_cons, ih hzs]

theorem toList_mapM {n : ℕ} (f : α → EStateM ε σ β) (xs : Vector α n) :
    Vector.toList <$> xs.mapM f = xs.toList.mapM f := by
  have harray : Vector.toArray <$> xs.mapM f = xs.toArray.mapM f := Vector.toArray_mapM
  have hlist : Array.toList <$> xs.toArray.mapM f = xs.toArray.toList.mapM f := Array.toList_mapM
  rw [← harray, Functor.map_map] at hlist
  exact hlist

/-- A loop over a vector is the loop over its entries. -/
theorem toList_mapM_eq_ok_iff {n : ℕ} {f : α → EStateM ε σ β} {xs : Vector α n} {s t : σ}
    {ys : Vector β n} : xs.toList.mapM f s = .ok ys.toList t ↔ xs.mapM f s = .ok ys t := by
  rw [← toList_mapM, map_eq_ok]
  constructor
  · rintro ⟨zs, hzs, heq⟩
    rwa [← Vector.toList_inj.1 heq]
  · exact fun h => ⟨ys, h, rfl⟩

theorem toList_mapM_eq_ok {n : ℕ} {f : α → EStateM ε σ β} {xs : Vector α n} {s t : σ}
    {ys : Vector β n} (h : xs.mapM f s = .ok ys t) : xs.toList.mapM f s = .ok ys.toList t :=
  toList_mapM_eq_ok_iff.2 h

end EStateM

namespace Except

variable {ε α β : Type}

theorem bind_eq_ok {x : Except ε α} {f : α → Except ε β} {b : β} :
    (x >>= f) = .ok b ↔ ∃ a, x = .ok a ∧ f a = .ok b := by
  change Except.bind x f = _ ↔ _
  unfold Except.bind
  cases x <;> simp

theorem bind_of_ok {x : Except ε α} {a : α} (h : x = .ok a) (f : α → Except ε β) :
    x >>= f = f a := by
  rw [h]
  rfl

end Except
