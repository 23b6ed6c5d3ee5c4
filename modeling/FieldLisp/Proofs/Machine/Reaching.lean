import FieldLisp.Proofs.Machine.Faithful
import FieldLisp.Proofs.Machine.Traces

/-!
# What steps lead to

A bounded number of steps leads from one state to another. What they take in is in the store that all
steps up to the bound leave, the one that fails included. Where a continuation is given, only the steps
count up to the one that hands it a value:

* `Machine.stepsTo`: so many steps, up to the one that hands a value to a given continuation;
* `Machine.Reaches`: at most so many steps, before that one, lead from a state to another;
* `Machine.Stage`: a state on a store, from which so many steps, up to that one, take in nothing that is
  not in a given store without collisions;
* `Machine.Stage.silent`, `Machine.Stage.resumes`: how a step goes on without a value, and with one.
-/

namespace FieldLisp.Machine

open Store

variable {config : Config} {st st' st'' : State} {s t u : Store} {F : Frame} {frames : List Frame}

/-! ## Steps -/

namespace Ran

theorem append {frames' : List Frame} (h : Ran config st s frames t)
    (h' : Ran config (finalState st frames) t frames' u) : Ran config st s (frames ++ frames') u := by
  induction h with
  | nil => exact h'
  | cons hstep _ ih =>
    rw [finalState_cons] at h'
    exact .cons hstep (ih h')

/-- What steps come to is held by the store that they leave. -/
theorem reachable (h : Ran config st s frames t) (hs : Reachable s) (hst : st.Held s) :
    Reachable t ∧ (finalState st frames).Held t := by
  induction h with
  | nil => exact ⟨hs, hst⟩
  | cons hstep _ ih =>
    obtain ⟨hs', hst'⟩ := reachable_step hs hst hstep
    rw [finalState_cons]
    exact ih hs' hst'

/-- So many steps, taken one after the other. -/
theorem steps_eq (h : Ran config st s frames t) : steps config frames.length st s = .ok frames t := by
  induction h with
  | nil => rfl
  | cons hstep _ ih =>
    rw [List.length_cons, steps, EStateM.bind_of_ok hstep, EStateM.bind_of_ok ih]
    rfl

end Ran

theorem after_steps_of_ok (n : ℕ) (h : step config st s = .ok F t) :
    after (steps config (n + 1) st) s = after (steps config n F.output) t := by
  unfold after
  rw [steps, EStateM.bind_of_ok h]
  cases hrest : steps config n F.output t with
  | ok frames u => rw [EStateM.bind_of_ok hrest]; rfl
  | error fault u => rw [EStateM.bind_of_error hrest]

theorem after_steps_of_error (n : ℕ) {fault : Fault} (h : step config st s = .error fault t) :
    after (steps config (n + 1) st) s = t := by
  unfold after
  rw [steps, EStateM.bind_of_error h]

/-! ### Up to a continuation -/

/-- A frame that hands a value to the continuation, if one is given. -/
def HandsTo (F : Frame) (last : Option Pointer) : Prop := F.returned = true ∧ last = some F.intermediate.cont

instance (F : Frame) (last : Option Pointer) : Decidable (HandsTo F last) := inferInstanceAs (Decidable (_ ∧ _))

/-- Takes so many steps, or as many as lead to one that hands a value to the continuation. -/
def stepsTo (config : Config) (last : Option Pointer) : ℕ → State → StoreM (List Frame)
  | 0, _ => pure []
  | n + 1, st => do
    let F ← step config st
    if HandsTo F last then pure [F] else
    let frames ← stepsTo config last n F.output
    pure (F :: frames)

theorem not_handsTo_none (F : Frame) : ¬HandsTo F none := fun h => nomatch h.2

variable {last : Option Pointer}

theorem after_stepsTo_of_ok (last : Option Pointer) (n : ℕ) (h : step config st s = .ok F t) :
    after (stepsTo config last (n + 1) st) s =
      if HandsTo F last then t else after (stepsTo config last n F.output) t := by
  unfold after
  rw [stepsTo, EStateM.bind_of_ok h]
  by_cases hlast : HandsTo F last
  · rw [if_pos hlast, if_pos hlast]
    rfl
  · rw [if_neg hlast, if_neg hlast]
    cases hrest : stepsTo config last n F.output t with
    | ok frames u => rw [EStateM.bind_of_ok hrest]; rfl
    | error fault u => rw [EStateM.bind_of_error hrest]

theorem after_stepsTo_of_error (last : Option Pointer) (n : ℕ) {fault : Fault}
    (h : step config st s = .error fault t) : after (stepsTo config last (n + 1) st) s = t := by
  unfold after
  rw [stepsTo, EStateM.bind_of_error h]

/-- If no continuation is given, all steps are taken. -/
theorem stepsTo_none (config : Config) (n : ℕ) (st : State) : stepsTo config none n st = steps config n st := by
  induction n generalizing st with
  | zero => rfl
  | succ n ih =>
    rw [stepsTo, steps]
    congr 1
    funext F
    rw [if_neg (not_handsTo_none F), ih]

/-- What the evaluation phase takes in is taken in by the step, also by one that fails. -/
theorem grows_after_stepsTo (config : Config) (last : Option Pointer) (n : ℕ) (hs : Reachable s) (hst : st.Held s) :
    s.Grows (after (stepsTo config last n st) s) ∧
      (0 < n → (middle config st s).2.Grows (after (stepsTo config last n st) s)) := by
  induction n generalizing st s with
  | zero => exact ⟨.refl (reachable_sound hs), fun h => absurd h (Nat.lt_irrefl 0)⟩
  | succ n ih =>
    have hsound := reachable_sound hs
    obtain ⟨hgrows, hmiddle⟩ := middle_moves config hsound hst
    obtain ⟨hgrows', hnext⟩ := ContPhase.reduct_moves hgrows.sound hmiddle
    have hall : (middle config st s).2.Grows (after (stepsTo config last (n + 1) st) s) := by
      rcases step_cases config hsound hst with ⟨F, hstep, hfollows⟩ | ⟨v, fault, -, -, hstep⟩
      · rw [after_stepsTo_of_ok last n hstep, hfollows.output]
        split
        · exact hgrows'
        · exact hgrows'.trans (ih ((hgrows.trans hgrows').reachable hs) hnext).1
      · rw [after_stepsTo_of_error last n hstep]
        exact .refl hgrows.sound
    exact ⟨hgrows.trans hall, fun _ => hall⟩

theorem grows_after_steps (config : Config) (n : ℕ) (hs : Reachable s) (hst : st.Held s) :
    s.Grows (after (steps config n st) s) ∧
      (0 < n → (middle config st s).2.Grows (after (steps config n st) s)) := by
  rw [← stepsTo_none]
  exact grows_after_stepsTo config none n hs hst

theorem after_stepsTo_mono {m n : ℕ} (hmn : m ≤ n) (hs : Reachable s) (hst : st.Held s) :
    (after (stepsTo config last m st) s).Grows (after (stepsTo config last n st) s) := by
  induction m generalizing n st s with
  | zero => exact (grows_after_stepsTo config last n hs hst).1
  | succ m ih =>
    obtain ⟨n, rfl⟩ := Nat.exists_eq_add_one_of_ne_zero (by omega : n ≠ 0)
    have hsound := reachable_sound hs
    rcases step_cases config hsound hst with ⟨F, hstep, -⟩ | ⟨v, fault, -, -, hstep⟩
    · obtain ⟨hs', hst'⟩ := reachable_step hs hst hstep
      rw [after_stepsTo_of_ok last m hstep, after_stepsTo_of_ok last n hstep]
      split
      · exact .refl (reachable_sound hs')
      · exact ih (Nat.le_of_succ_le_succ hmn) hs' hst'
    · rw [after_stepsTo_of_error last m hstep, after_stepsTo_of_error last n hstep]
      exact .refl (middle_moves config hsound hst).1.sound

theorem after_steps_mono {m n : ℕ} (hmn : m ≤ n) (hs : Reachable s) (hst : st.Held s) :
    (after (steps config m st) s).Grows (after (steps config n st) s) := by
  rw [← stepsTo_none, ← stepsTo_none]
  exact after_stepsTo_mono hmn hs hst

/-- Up to the continuation no more is taken in than by all steps. -/
theorem after_stepsTo_grows (config : Config) (last : Option Pointer) (n : ℕ) (hs : Reachable s) (hst : st.Held s) :
    (after (stepsTo config last n st) s).Grows (after (steps config n st) s) := by
  induction n generalizing st s with
  | zero => exact .refl (reachable_sound hs)
  | succ n ih =>
    have hsound := reachable_sound hs
    rcases step_cases config hsound hst with ⟨F, hstep, -⟩ | ⟨v, fault, -, -, hstep⟩
    · obtain ⟨hs', hst'⟩ := reachable_step hs hst hstep
      rw [after_stepsTo_of_ok last n hstep, after_steps_of_ok n hstep]
      split
      · exact (grows_after_steps config n hs' hst').1
      · exact ih hs' hst'
    · rw [after_stepsTo_of_error last n hstep, after_steps_of_error n hstep]
      exact .refl (middle_moves config hsound hst).1.sound

/-! ## What steps lead to -/

/-- At most so many steps lead from one state to another, and none of them hands the continuation a value. -/
def Reaches (config : Config) (last : Option Pointer) (n : ℕ) (st : State) (s : Store) (st' : State) (t : Store) :
    Prop :=
  ∃ frames, Ran config st s frames t ∧ frames.length ≤ n ∧ finalState st frames = st' ∧
    ∀ F ∈ frames, ¬HandsTo F last

namespace Reaches
variable {m n : ℕ}

theorem refl (n : ℕ) (st : State) (s : Store) : Reaches config last n st s st s :=
  ⟨[], .nil st s, Nat.zero_le n, rfl, List.forall_mem_nil _⟩

theorem trans (h : Reaches config last m st s st' t) (h' : Reaches config last n st' t st'' u) :
    Reaches config last (m + n) st s st'' u := by
  obtain ⟨frames, hran, hlength, rfl, hgoes⟩ := h
  obtain ⟨frames', hran', hlength', rfl, hgoes'⟩ := h'
  refine ⟨frames ++ frames', hran.append hran', ?_, finalState_append _ _ _, List.forall_mem_append.2 ⟨hgoes, hgoes'⟩⟩
  rw [List.length_append]
  omega

theorem mono (h : Reaches config last m st s st' t) (hmn : m ≤ n) : Reaches config last n st s st' t := by
  obtain ⟨frames, hran, hlength, hrest⟩ := h
  exact ⟨frames, hran, hlength.trans hmn, hrest⟩

theorem step (h : step config st s = .ok F t) (hgoes : ¬HandsTo F last) : Reaches config last 1 st s F.output t :=
  ⟨[F], .cons h (.nil _ _), Nat.le_refl 1, rfl, List.forall_mem_singleton.2 hgoes⟩

end Reaches

/-- A state on a store, from which so many steps, up to the one that hands the continuation a value, take in nothing
that is not in another store. -/
structure Stage (config : Config) (last : Option Pointer) (bound : Store) (n : ℕ) (st : State) (s : Store) : Prop where
  reachable : Reachable s
  held : st.Held s
  room : (after (stepsTo config last n st) s).Within bound

namespace Stage

variable {bound : Store} {m n : ℕ} (h : Stage config last bound n st s)
include h

theorem sound : s.Sound := reachable_sound h.reachable

theorem mono (hmn : m ≤ n) : Stage config last bound m st s :=
  ⟨h.reachable, h.held, (after_stepsTo_mono hmn h.reachable h.held).within.trans h.room⟩

theorem within : s.Within bound := (grows_after_stepsTo config last n h.reachable h.held).1.within.trans h.room

theorem faithful (hbound : bound.Faithful) : s.Faithful := h.within.faithful h.sound hbound

theorem middle_within (hpositive : 0 < n) : (middle config st s).2.Within bound :=
  ((grows_after_stepsTo config last n h.reachable h.held).2 hpositive).within.trans h.room

omit h in
/-- A step from a stage leads to a stage with room for one step less. -/
theorem next (h : Stage config last bound (n + 1) st s) (hstep : step config st s = .ok F t)
    (hgoes : ¬HandsTo F last) : Stage config last bound n F.output t ∧ s.Grows t := by
  obtain ⟨hreachable, hheld⟩ := reachable_step h.reachable h.held hstep
  have hroom := h.room
  rw [after_stepsTo_of_ok last n hstep, if_neg hgoes] at hroom
  obtain ⟨rfl, -⟩ := step_ok h.sound h.held hstep
  exact ⟨⟨hreachable, hheld, hroom⟩, (next_moves config h.sound h.held).1⟩

omit h in
/-- So do the steps that lead from it somewhere. -/
theorem reaches (h : Stage config last bound (m + n) st s) (hreaches : Reaches config last m st s st' t) :
    Stage config last bound n st' t ∧ s.Grows t := by
  obtain ⟨frames, hran, hlength, rfl, hgoes⟩ := hreaches
  induction hran generalizing m with
  | nil => exact ⟨h.mono (by omega), .refl h.sound⟩
  | @cons st s t u F frames hstep hran ih =>
    rw [List.length_cons] at hlength
    rw [List.forall_mem_cons] at hgoes
    have hfirst : Stage config last bound (m - 1 + n + 1) st s := h.mono (by omega)
    obtain ⟨hnext, hgrows⟩ := hfirst.next hstep hgoes.1
    obtain ⟨hlast, hgrows'⟩ := ih hnext (by omega) hgoes.2
    rw [finalState_cons]
    exact ⟨hlast, hgrows.trans hgrows'⟩

omit h in
/-- A step without a value goes on to what its evaluation phase leaves. -/
theorem silent (h : Stage config last bound (n + 1) st s) (hmiddle : middle config st s = (⟨st', false⟩, t)) :
    Reaches config last 1 st s st' t ∧ Stage config last bound n st' t ∧ s.Grows t := by
  have hsilent : report? config st s = none := by
    unfold report?
    rw [hmiddle]
    rfl
  have hnext : Machine.next config st s = (st', t) := by
    unfold Machine.next
    rw [hmiddle]
    rfl
  obtain ⟨F, hstep, hfollows⟩ := step_silent config h.sound h.held hsilent
  have houtput := hfollows.output
  rw [hnext] at hstep houtput
  have hgoes : ¬HandsTo F last := by
    rintro ⟨hreturned, -⟩
    rw [hfollows.returned, hmiddle] at hreturned
    cases hreturned
  obtain ⟨hstage, hgrows⟩ := h.next hstep hgoes
  have hreaches := Reaches.step hstep hgoes
  rw [houtput] at hstage hreaches
  exact ⟨hreaches, hstage, hgrows⟩

omit h in
/-- A step with a value hands it to the continuation, if no error value stands below it. -/
theorem resumes (h : Stage config last bound (n + 1) st s) (hmiddle : middle config st s = (⟨st', true⟩, t))
    (hclean : t.Clean st'.expr) :
    ∃ F, step config st s = .ok F (ContPhase.resume st' t).2 ∧ Follows config st s F ∧
      F.output = (ContPhase.resume st' t).1 := by
  obtain ⟨hgrows, hheld⟩ := middle_moves config h.sound h.held
  rw [hmiddle] at hgrows hheld
  have hnext : Machine.next config st s = ContPhase.resume st' t := by
    unfold Machine.next
    rw [hmiddle]
    rfl
  rcases step_cases config h.sound h.held with ⟨F, hstep, hfollows⟩ | ⟨v, fault, hreported, hrender, -⟩
  · have houtput := hfollows.output
    rw [hnext] at hstep houtput
    exact ⟨F, hstep, hfollows, houtput⟩
  · obtain ⟨-, rfl⟩ := report?_eq_some hreported
    rw [hmiddle] at hrender
    obtain ⟨text, htext⟩ := hclean.exists_render (hgrows.reachable h.reachable) (State.held_iff.1 hheld).1
    rw [htext] at hrender
    cases hrender

end Stage

end FieldLisp.Machine
