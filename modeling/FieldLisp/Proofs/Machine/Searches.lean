import FieldLisp.Proofs.Machine.Turns

/-!
# Searches

A symbol is searched for in the nodes of an environment, from the top and so many of them:

* `Store.search_here`, `Store.search_further`: what a search does at a node;
* `Store.search_deeper`: a longer search comes to the same end;
* `Store.Leads`: the environments that a search comes to;
* `Store.valueAt`, `Store.lookup_node`: what a symbol is bound to in a node;
* `EvalPhase.look_at`, `EvalPhase.look_closed`: what the lookup of a symbol comes to.
-/

namespace FieldLisp

open Store

variable {s u : Store} {e env p node sought : Pointer} {d d' depth : ℕ}

namespace Store

/-- A search that comes to an end within its bound comes to the same end within a larger one. -/
theorem search_deeper (h : u.search sought d p ≠ .beyond) (hd : d ≤ d') :
    u.search sought d' p = u.search sought d p := by
  induction d generalizing p d' with
  | zero =>
    unfold search at h ⊢
    by_cases hisEnv : p.tag.isEnv = true
    · rw [if_pos hisEnv] at h
      exact absurd rfl h
    · rw [if_neg hisEnv, if_neg hisEnv]
  | succ d ih =>
    obtain ⟨d', rfl⟩ := Nat.exists_eq_add_one_of_ne_zero (by omega : d' ≠ 0)
    unfold search at h ⊢
    by_cases hisEnv : p.tag.isEnv = true
    · rw [if_pos hisEnv] at h ⊢
      rw [if_pos hisEnv]
      dsimp only at h ⊢
      by_cases hsought : u.part p 0 = sought
      · rw [if_pos hsought, if_pos hsought]
      · rw [if_neg hsought] at h ⊢
        rw [if_neg hsought]
        exact ih h (Nat.le_of_succ_le_succ hd)
    · rw [if_neg hisEnv, if_neg hisEnv]

/-- What is found is found by a longer search. -/
theorem search_mono (h : u.search sought d p = .at node) (hd : d ≤ d') : u.search sought d' p = .at node := by
  have hfound : u.search sought d p ≠ .beyond := by
    rw [h]
    exact nofun
  rw [search_deeper hfound hd, h]

theorem search_here (hisEnv : p.tag.isEnv = true) (hsought : u.part p 0 = sought) :
    u.search sought (d + 1) p = .at p := by
  rw [search, if_pos hisEnv]
  exact if_pos hsought

theorem search_further (hisEnv : p.tag.isEnv = true) (hsought : u.part p 0 ≠ sought) :
    u.search sought (d + 1) p = u.search sought d (u.part p 2) := by
  rw [search, if_pos hisEnv, if_neg hsought]

/-- A search for a symbol that begins at one environment comes to another one. -/
inductive Leads (u : Store) (sought : Pointer) : Pointer → Pointer → Prop
  | here (env : Pointer) : Leads u sought env env
  | further {node env : Pointer} (isEnv : node.tag.isEnv = true) (other : u.part node 0 ≠ sought)
      (leads : u.Leads sought (u.part node 2) env) : Leads u sought node env

/-- The environments that a search comes to in a larger store it comes to where they are. -/
theorem Leads.before (h : u.Leads sought p env) (hu : s.Extends u) (hs : s.Sound) (hp : s.Holds p) :
    s.Leads sought p env := by
  induction h with
  | here => exact .here _
  | further hisEnv hother _ ih =>
    have harity := Tag.arity_of_isEnv hisEnv
    have hpart := hu.part_eq hs harity hp
    rw [hpart] at hother ih
    exact .further hisEnv hother (ih (hs.holds_part harity hp 2))

/-- The value of a symbol that is bound in a node. -/
def valueAt (u : Store) (node : Pointer) : Pointer :=
  if node.tag = .recEnv ∧ (u.part node 1).tag = .function then
    nodePointer .function [u.part (u.part node 1) 0, u.part (u.part node 1) 1, node]
  else u.part node 1

theorem lookup_at (h : u.search sought d p = .at node) : (u.lookup d sought p).1 = .ok (u.valueAt node) := by
  unfold lookup valueAt
  rw [h]
  dsimp only
  split <;> rfl

/-- A symbol that has a value is found in a node. -/
theorem lookup_eq_ok {v : Pointer} (h : (u.lookup d sought p).1 = .ok v) :
    ∃ node, u.search sought d p = .at node ∧ u.valueAt node = v := by
  cases hsearch : u.search sought d p with
  | «at» node =>
    rw [lookup_at hsearch] at h
    exact ⟨node, rfl, Except.ok.inj h⟩
  | unbound | beyond =>
    unfold lookup at h
    rw [hsearch] at h
    cases h

/-- In an environment with one more node a symbol has the value of this node, or the one that it has below. -/
theorem lookup_node (hisEnv : p.tag.isEnv = true) (d : ℕ) (sought : Pointer) :
    (u.lookup (d + 1) sought p).1 =
      if u.part p 0 = sought then .ok (u.valueAt p) else (u.lookup d sought (u.part p 2)).1 := by
  by_cases hsought : u.part p 0 = sought
  · rw [if_pos hsought, lookup_at (search_here hisEnv hsought)]
  · rw [if_neg hsought]
    unfold lookup
    rw [search_further hisEnv hsought]

end Store

/-! ## Values of symbols -/

namespace EvalPhase

section
variable (hexpr : s.expression e = .variable)
include hexpr

theorem look_variable : look depth e env s = (found env (s.lookup depth e env).1, (s.lookup depth e env).2) := by
  simp only [look, hexpr]

/-- A symbol has the value that it is bound to. -/
theorem look_at (hfound : s.search e depth env = .at node)
    (hplain : ¬(node.tag = .recEnv ∧ (s.part node 1).tag = .function)) :
    look depth e env s = (.value (s.part node 1), s) := by
  simp only [look_variable hexpr, Store.lookup, hfound, if_neg hplain, found]

/-- A function that a symbol is bound to recursively is closed over the binding. -/
theorem look_closed (hfound : s.search e depth env = .at node) (hrecursive : node.tag = .recEnv)
    (hfunction : (s.part node 1).tag = .function) :
    look depth e env s =
      (.value (nodePointer .function [s.part (s.part node 1) 0, s.part (s.part node 1) 1, node]),
        s.put .function [s.part (s.part node 1) 0, s.part (s.part node 1) 1, node]) := by
  simp only [look_variable hexpr, Store.lookup, hfound, if_pos (And.intro hrecursive hfunction), found]

end

end EvalPhase

end FieldLisp
