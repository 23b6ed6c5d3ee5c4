import FieldLisp.Proofs.Machine.Arithmetic

/-!
# Budgets

What a larger budget adds to the frames of an evaluation:

* `Machine.run_take`, `Machine.evaluate_take`: a smaller budget cuts the same frames short;
* `Machine.evaluate_later`: an evaluation comes to the same on all that the store becomes;
* `Machine.evaluate_valid`: an evaluation that returns is valid, and a larger budget only adds frames to it.
-/

namespace FieldLisp.Machine

open Store
open EStateM (bind_eq_ok pure_eq_ok)

variable {config : Config} {s t : Store} {cancelled : Bool}

/-! ## Runs -/

section
variable {state : State} {taken frames : List Frame} {reason : Reason}

theorem stop?_succ (cancelled : Bool) (m n : ℕ) (state : State) :
    stop? cancelled (m + 1) state = stop? cancelled (n + 1) state := rfl

/-- A smaller budget cuts the same frames short. -/
theorem run_take {m n : ℕ} {frames' : List Frame} {reason' : Reason} {t' : Store} (hmn : m ≤ n)
    (hm : run config cancelled m state taken s = .ok (frames, reason) t)
    (hn : run config cancelled n state taken s = .ok (frames', reason') t') :
    frames = frames'.take (taken.length + m) := by
  induction m generalizing n state taken s with
  | zero =>
    obtain ⟨hframes, -⟩ := pure_eq_ok.1 hm
    obtain ⟨rfl, -⟩ := Prod.mk.inj hframes
    obtain ⟨added, rfl, -⟩ := run_ran hn
    rw [Nat.add_zero, ← List.length_reverse, List.take_left]
  | succ m ih =>
    obtain ⟨n, rfl⟩ := Nat.exists_eq_add_one_of_ne_zero (by omega : n ≠ 0)
    unfold run at hm hn
    rw [stop?_succ cancelled n m] at hn
    cases hstop : stop? cancelled (m + 1) state with
    | some found =>
      rw [hstop] at hm hn
      obtain ⟨hframes, -⟩ := pure_eq_ok.1 hm
      obtain ⟨hframes', -⟩ := pure_eq_ok.1 hn
      obtain ⟨rfl, -⟩ := Prod.mk.inj hframes
      obtain ⟨rfl, -⟩ := Prod.mk.inj hframes'
      rw [List.take_of_length_le (by simp)]
    | none =>
      rw [hstop] at hm hn
      obtain ⟨F, u, hstep, hrest⟩ := bind_eq_ok.1 hm
      obtain ⟨F', u', hstep', hrest'⟩ := bind_eq_ok.1 hn
      cases hstep.symm.trans hstep'
      have h := ih (Nat.le_of_succ_le_succ hmn) hrest hrest'
      rwa [List.length_cons, Nat.add_right_comm] at h

end

/-! ## Evaluations -/

variable {maxSteps : Int} {expr : Pointer} {env : Option Pointer} {E : Evaluation}

theorem evaluate_take {m n : Int} {E' : Evaluation} {t' : Store} (hmn : m ≤ n)
    (hm : evaluate config m cancelled expr env s = .ok E t)
    (hn : evaluate config n cancelled expr env s = .ok E' t') :
    E.frames = E'.frames.take m.toNat := by
  obtain ⟨-, -, -, hinitial, hrun⟩ := evaluate_eq_ok.1 hm
  obtain ⟨-, -, -, hinitial', hrun'⟩ := evaluate_eq_ok.1 hn
  rw [hinitial] at hrun
  rw [hinitial'] at hrun'
  have h := run_take (Int.toNat_le_toNat hmn) hrun hrun'
  rwa [List.length_nil, Nat.zero_add] at h

/-- What is evaluated on a store comes to the same on all that the store becomes. -/
theorem evaluate_later {s u : Store} (hs : Reachable s) (hexpr : s.Holds expr)
    (henv : ∀ p ∈ env, s.Holds p) (hbuilds : s.Builds u)
    (h : evaluate config maxSteps cancelled expr env u = .ok E t)
    (hinjective : Set.InjOn Sponge.hash t.content) :
    ∃ v, evaluate config maxSteps cancelled expr env s = .ok E v := by
  have hheld {p : Pointer} (hp : s.Holds p) : u.Holds p := hbuilds.retains.extends_.holds hp
  have hu := hbuilds.reachable hs
  obtain ⟨hanswer, hafter⟩ := eq_ok_iff.1 h
  have hlater := builds_evaluate config maxSteps cancelled hu hexpr.canonical
    fun p hp => (henv p hp).canonical
  rw [hafter] at hlater
  have hcontent : (after (evaluate config maxSteps cancelled expr env) u).content ∪ s.content ⊆
      t.content := by
    rw [hafter]
    exact Set.union_subset subset_rfl
      (hbuilds.retains.content_subset.trans hlater.retains.content_subset)
  have hsame := evaluate_agrees config maxSteps cancelled hu hs (hheld hexpr) hexpr
    (fun p hp => hheld (henv p hp)) henv (hinjective.mono hcontent)
  exact ⟨_, eq_ok_iff.2 ⟨hsame.symm.trans hanswer, rfl⟩⟩

/-- An evaluation that returns is valid, and a larger budget only adds frames to it: from the same store,
on the store that the smaller one left, and on the store that the larger one left. -/
theorem evaluate_valid {m : Int} (hs : Reachable s) (hexpr : s.Holds expr)
    (henv : ∀ p ∈ env, s.Holds p) (h : evaluate config m cancelled expr env s = .ok E t) :
    ValidTrace config m cancelled (.initial expr (env.getD .nil)) s E t ∧
    ∀ (n : Int) (E' : Evaluation) (t' : Store), m ≤ n →
      (evaluate config n cancelled expr env s = .ok E' t' → E.frames = E'.frames.take m.toNat ∧
        ∀ E'' t'', evaluate config m cancelled expr env t' = .ok E'' t'' →
          Set.InjOn Sponge.hash t''.content → E''.frames = E'.frames.take m.toNat) ∧
      (evaluate config n cancelled expr env t = .ok E' t' → Set.InjOn Sponge.hash t'.content →
        E.frames = E'.frames.take m.toNat) := by
  have builds {k : Int} {E : Evaluation} {t : Store}
      (h : evaluate config k cancelled expr env s = .ok E t) : s.Builds t := by
    have hbuilds := builds_evaluate config k cancelled hs hexpr.canonical
      fun p hp => (henv p hp).canonical
    rwa [(eq_ok_iff.1 h).2] at hbuilds
  refine ⟨validTrace hs hexpr henv h, fun n E' t' hmn => ⟨fun h' => ⟨evaluate_take hmn h h', ?_⟩, ?_⟩⟩
  · intro E'' t'' h'' hinjective
    obtain ⟨v, hsame⟩ := evaluate_later hs hexpr henv (builds h') h'' hinjective
    exact evaluate_take hmn hsame h'
  · intro h' hinjective
    obtain ⟨v, hsame⟩ := evaluate_later hs hexpr henv (builds h) h' hinjective
    exact evaluate_take hmn h hsame

/-- The expression `(+ 1 2)`, evaluated with a budget of three steps and of four, on the same store or on the one that
the other evaluation left. -/
theorem evaluate_valid_sum : ∃ s, Reachable s ∧ s.Holds Addition.expression ∧ ∃ E t,
    evaluate .standard 3 false Addition.expression none s = .ok E t ∧
    ValidTrace .standard 3 false (.initial Addition.expression .nil) s E t ∧ E.reason = .maxStepsReached ∧
    (∃ E' t', evaluate .standard 4 false Addition.expression none s = .ok E' t' ∧ E'.reason = .completed ∧
      E'.frames.length = 4 ∧ E.frames = E'.frames.take 3 ∧
      ∃ E'' t'', evaluate .standard 3 false Addition.expression none t' = .ok E'' t'' ∧
        E''.frames = E'.frames.take 3) ∧
    ∃ E' t', evaluate .standard 4 false Addition.expression none t = .ok E' t' ∧ E'.reason = .completed ∧
      E.frames = E'.frames.take 3 := by
  have hthree : (0 : ℤ) ≤ 3 := by decide
  have hfour : (0 : ℤ) ≤ 4 := by decide
  obtain ⟨s, -, h⟩ := Addition.reads false
  have hnone : ∀ p ∈ (none : Option Pointer), s.Holds p := nofun
  obtain ⟨E, t, hE, ht, -, hreason⟩ := Addition.evaluates .standard hthree h
  obtain ⟨E', t', hE', ht', hcompleted', -⟩ := Addition.evaluates .standard hfour h
  -- Both evaluations leave stores that still have the expression.
  obtain ⟨E₁, t₁, hE₁, ht₁, -⟩ := Addition.evaluates .standard hthree ht'
  obtain ⟨E₂, t₂, hE₂, ht₂, hcompleted₂, -⟩ := Addition.evaluates .standard hfour ht
  obtain ⟨hvalid, hbudgets⟩ := evaluate_valid h.bounded.reachable h.holds hnone hE
  obtain ⟨htake, hlater⟩ := (hbudgets 4 E' t' (by decide)).1 hE'
  refine ⟨s, h.bounded.reachable, h.holds, E, t, hE, hvalid, (hreason (by decide)).1, ?_, ?_⟩
  · obtain ⟨hcompleted, -, hlength⟩ := hcompleted' (by decide)
    exact ⟨E', t', hE', hcompleted, hlength, htake, E₁, t₁, hE₁,
      hlater E₁ t₁ hE₁ (Addition.injOn_preimages.mono ht₁.bounded.content)⟩
  · exact ⟨E₂, t₂, hE₂, (hcompleted₂ (by decide)).1,
      (hbudgets 4 E₂ t₂ (by decide)).2 hE₂ (Addition.injOn_preimages.mono ht₂.bounded.content)⟩

end FieldLisp.Machine
