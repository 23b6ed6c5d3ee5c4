import FieldLisp.Proofs.Machine.Lockstep

/-!
# How runs end

A run goes on for ever, halts, or raises an exception. As long as nothing collides, which of these it is does not
depend on the store that it begins on:

* `Machine.Meets`: two runs come to one state;
* `Machine.steps_agree`: two runs from one state are the same for so many steps;
* `Machine.Ongoing`, `Machine.Ends`: both still go on after so many frames, or both end in the same way;
* `Machine.Alike`: both go on until something collides, both halt in one state, or both raise the same exception;
* `Machine.ongoing_or_ends`, `Machine.InStep.ongoing_or_ends`: runs from one state do one of these, and so do runs with
  one pursuit;
* `Machine.RanTo.rests`, `Machine.RanTo.final_eq`: a run that has halted rests in its state.
-/

namespace FieldLisp.Machine

open Store
open EStateM (bind_eq_ok bind_of_ok bind_of_error)

variable {s s' t t' : Store} {config : Config} {st st' : State} {frames frames' : List Frame} {base base' : Pointer}
  {pursuit : Pursuit}

/-! ## One state for both -/

/-- Two runs come to one state, the second one so many frames later, and have reported the same. -/
structure Meets (config : Config) (lag : ℕ) (st : State) (s : Store) (st' : State) (s' : Store)
    (frames frames' : List Frame) (final : State) (t t' : Store) : Prop where
  left : RanTo config st s frames final t
  right : RanTo config st' s' frames' final t'
  matched : Matched lag frames frames'

/-- Two runs that stop with an error value come to one state. -/
theorem InStep.meets {lag : ℕ} {F F' : Frame} {final : State} {u u' : Store}
    (h : InStep config lag st s st' s' frames frames' base base' pursuit t t')
    (hstep : step config (pursuit.on base) t = .ok F u) (hstep' : step config (pursuit.on base') t' = .ok F' u')
    (hF : F.output = final) (hF' : F'.output = final) (hemitted : F'.emitted = F.emitted) :
    Meets config lag st s st' s' (frames ++ [F]) (frames' ++ [F']) final u u' := by
  have hran := RanTo.step hstep
  have hran' := RanTo.step hstep'
  rw [hF] at hran
  rw [hF'] at hran'
  have hmatched : Matched 0 [F] [F'] := ⟨rfl, by simp [hemitted]⟩
  exact ⟨h.left.trans hran, h.right.trans hran', h.matched.append hmatched⟩

/-! ## One state on two stores -/

theorem answer_steps_of_ok {F : Frame} (n : ℕ) (h : step config st s = .ok F t) :
    answer (steps config (n + 1) st) s = (answer (steps config n F.output) t).map (F :: ·) := by
  unfold answer
  rw [steps, bind_of_ok h]
  cases hrest : steps config n F.output t with
  | ok frames u => rw [bind_of_ok hrest]; rfl
  | error fault u => rw [bind_of_error hrest]; rfl

theorem answer_steps_of_error (n : ℕ) {fault : Fault} (h : step config st s = .error fault t) :
    answer (steps config (n + 1) st) s = .error fault := by
  unfold answer
  rw [steps, bind_of_error h]

/-- Two runs from one state are the same. -/
theorem steps_agree (n : ℕ) (hs : Reachable s) (hs' : Reachable s') (hst : st.Held s) (hst' : st.Held s')
    (hinjective : Set.InjOn Sponge.hash
      ((after (steps config n st) s).content ∪ (after (steps config n st) s').content)) :
    answer (steps config n st) s = answer (steps config n st) s' := by
  induction n generalizing st s s' with
  | zero => rfl
  | succ n ih =>
    have hgrows := (grows_after_steps config (n + 1) hs' hst').1
    have hsame := step_agrees config hs hs' hst hst' (hinjective.mono
      (Set.union_subset_union (content_step_subset n hs hst) hgrows.content_subset))
    cases hstep : step config st s with
    | ok F t =>
      have hstep' : step config st s' = .ok F (after (step config st) s') :=
        eq_ok_iff.2 ⟨hsame.symm.trans (eq_ok_iff.1 hstep).1, rfl⟩
      obtain ⟨ht, hheld⟩ := reachable_step hs hst hstep
      obtain ⟨ht', hheld'⟩ := reachable_step hs' hst' hstep'
      rw [after_steps_of_ok n hstep, after_steps_of_ok n hstep'] at hinjective
      rw [answer_steps_of_ok n hstep, answer_steps_of_ok n hstep', ih ht ht' hheld hheld' hinjective]
    | error fault t =>
      have hstep' : step config st s' = .error fault (after (step config st) s') :=
        eq_error_iff.2 ⟨hsame.symm.trans (eq_error_iff.1 hstep).1, rfl⟩
      rw [answer_steps_of_error n hstep, answer_steps_of_error n hstep']

/-! ## Endings -/

theorem ranTo_of_steps {n : ℕ} (h : steps config n st s = .ok frames t) :
    frames.length = n ∧ RanTo config st s frames (finalState st frames) t := by
  induction n generalizing st s frames with
  | zero =>
    cases h
    exact ⟨rfl, .nil config st _⟩
  | succ n ih =>
    obtain ⟨F, u, hstep, hrest⟩ := bind_eq_ok.1 h
    obtain ⟨others, r, hothers, hframes⟩ := bind_eq_ok.1 hrest
    cases hframes
    obtain ⟨hlength, hran⟩ := ih hothers
    rw [List.length_cons, hlength, finalState_cons]
    exact ⟨rfl, (RanTo.step hstep).trans hran⟩

/-- The run never halts, and raises nothing. -/
def Endless (config : Config) (st : State) (s : Store) : Prop :=
  ∀ n, ∃ frames final t, n ≤ frames.length ∧ RanTo config st s frames final t ∧ final.isHalted = false

/-- The run raises an exception. -/
def Raises (config : Config) (st : State) (s : Store) (fault : Fault) : Prop :=
  ∃ n t, steps config n st s = .error fault t

/-- Two runs still go on after so many frames, the second one some frames later, and have reported the same. -/
def Ongoing (config : Config) (lag n : ℕ) (st : State) (s : Store) (st' : State) (s' : Store) : Prop :=
  ∃ frames frames' final final' t t', n ≤ frames.length ∧ RanTo config st s frames final t ∧
    RanTo config st' s' frames' final' t' ∧ Matched lag frames frames' ∧
      final.isHalted = false ∧ final'.isHalted = false

/-- Two runs end in the same way, the second one so many frames later. -/
inductive Ends (config : Config) (lag : ℕ) (st : State) (s : Store) (st' : State) (s' : Store) : Prop
  /-- Both halt in one state, and have reported the same. -/
  | halts (frames frames' : List Frame) (final : State) (t t' : Store)
      (meets : Meets config lag st s st' s' frames frames' final t t') (halted : final.isHalted = true)
  /-- Both raise the same exception. -/
  | raises (fault : Fault) (left : Raises config st s fault) (right : Raises config st' s' fault)

/-- Two runs are alike, the second one so many frames later. -/
inductive Alike (config : Config) (lag : ℕ) (st : State) (s : Store) (st' : State) (s' : Store) : Prop
  /-- Both go on, for as many frames as nothing collides in. -/
  | endless (ongoing : ∀ n, Apart config lag n st s st' s' → Ongoing config lag n st s st' s')
  /-- Both end in the same way. -/
  | ends (ends : Ends config lag st s st' s')

theorem Raises.before {fault : Fault} (h : Raises config st' t fault) (hran : RanTo config st s frames st' t) :
    Raises config st s fault := by
  obtain ⟨n, u, hsteps⟩ := h
  exact ⟨_, u, hran.raises hsteps⟩

/-- Two runs are alike if for any number of frames they still go on, or have ended in the same way. -/
theorem Alike.of_forall {lag : ℕ} (h : ∀ n, Apart config lag n st s st' s' →
    Ongoing config lag n st s st' s' ∨ Ends config lag st s st' s') : Alike config lag st s st' s' := by
  by_cases hends : Ends config lag st s st' s'
  · exact .ends hends
  · apply Alike.endless
    intro n hapart
    exact (h n hapart).resolve_right hends

section
variable {lag lag' n : ℕ} {st₁ st₁' : State} (hran : RanTo config st s frames st₁ t)
  (hran' : RanTo config st' s' frames' st₁' t') (hmatched : Matched lag frames frames')
include hran hran' hmatched

theorem Ongoing.before (h : Ongoing config lag' n st₁ t st₁' t') :
    Ongoing config (lag + lag') (frames.length + n) st s st' s' := by
  obtain ⟨others, others', final, final', u, u', hlength, hothers, hothers', hreported, hmoving, hmoving'⟩ := h
  refine ⟨_, _, final, final', u, u', ?_, hran.trans hothers, hran'.trans hothers', hmatched.append hreported, hmoving,
    hmoving'⟩
  rw [List.length_append]
  omega

/-- Two runs end in the same way if they come to states from which they do. -/
theorem Ends.before (h : Ends config lag' st₁ t st₁' t') : Ends config (lag + lag') st s st' s' := by
  cases h with
  | raises fault left right => exact .raises fault (left.before hran) (right.before hran')
  | halts others others' final u u' meets halted =>
    exact .halts _ _ final u u'
      ⟨hran.trans meets.left, hran'.trans meets.right, hmatched.append meets.matched⟩ halted

end

/-- Two runs from one state still go on after so many steps, or have ended in the same way. -/
theorem ongoing_or_ends {n : ℕ} (hs : Reachable s) (hs' : Reachable s') (hst : st.Held s) (hst' : st.Held s')
    (hapart : Apart config 0 n st s st s') : Ongoing config 0 n st s st s' ∨ Ends config 0 st s st s' := by
  have hsame := steps_agree n hs hs' hst hst' hapart
  cases hsteps : steps config n st s with
  | error fault t =>
    have hsteps' : steps config n st s' = .error fault (after (steps config n st) s') :=
      eq_error_iff.2 ⟨hsame.symm.trans (eq_error_iff.1 hsteps).1, rfl⟩
    exact .inr (.raises fault ⟨n, t, hsteps⟩ ⟨n, _, hsteps'⟩)
  | ok frames t =>
    have hsteps' : steps config n st s' = .ok frames (after (steps config n st) s') :=
      eq_ok_iff.2 ⟨hsame.symm.trans (eq_ok_iff.1 hsteps).1, rfl⟩
    obtain ⟨hlength, hran⟩ := ranTo_of_steps hsteps
    obtain ⟨-, hran'⟩ := ranTo_of_steps hsteps'
    have hmatched : Matched 0 frames frames := ⟨rfl, rfl⟩
    cases hhalted : (finalState st frames).isHalted with
    | true => exact .inr (.halts _ _ _ _ _ ⟨hran, hran', hmatched⟩ hhalted)
    | false => exact .inl ⟨_, _, _, _, _, _, hlength.ge, hran, hran', hmatched, hhalted, hhalted⟩

/-- Two runs with one pursuit go on for so many frames or end in the same way, if they do so once both have handed on a
value. -/
theorem InStep.ongoing_or_ends {lag n : ℕ}
    (h : InStep config lag st s st' s' frames frames' base base' pursuit t t')
    (hbase : base.tag.isHalted = false) (hbase' : base'.tag.isHalted = false)
    (hapart : Apart config 0 n (pursuit.on base) t (pursuit.on base') t')
    (hreturns : ∀ more more' pursuit' u u' v env, more.length < n → t.Grows u → t'.Grows u' →
      InStep config lag st s st' s' (frames ++ more) (frames' ++ more') base base' pursuit' u u' →
      Apart config 0 (n - more.length) (pursuit'.on base) u (pursuit'.on base') u' →
      (middle config (pursuit'.on base) u).1 = ⟨⟨v, env, base⟩, true⟩ →
      (middle config (pursuit'.on base') u').1 = ⟨⟨v, env, base'⟩, true⟩ →
        Ongoing config lag (frames.length + n) st s st' s' ∨ Ends config lag st s st' s') :
    Ongoing config lag (frames.length + n) st s st' s' ∨ Ends config lag st s st' s' := by
  rcases h.stays_or_departs hbase hbase' hapart with
    ⟨more, more', pursuit', u, u', hlength, hreached⟩ |
    ⟨more, more', pursuit', u, u', hlength, hgrows, hgrows', hreached, hlater, hdeparts⟩
  · left
    refine ⟨_, _, _, _, u, u', ?_, hreached.left, hreached.right, hreached.matched, stackOn_not_halted hbase _,
      stackOn_not_halted hbase' _⟩
    rw [List.length_append, hlength]
  · cases hdeparts with
    | returns v env hvalue hvalue' =>
      exact hreturns more more' pursuit' u u' v env hlength hgrows hgrows' hreached hlater hvalue hvalue'
    | stops F F' r r' env code hstep hstep' hF hF' hemitted =>
      exact .inr (.halts _ _ _ _ _ (hreached.meets hstep hstep' hF hF' hemitted) rfl)
    | raises fault r r' hstep hstep' =>
      have hsteps : steps config 1 (pursuit'.on base) u = .error fault r := bind_of_error hstep _
      have hsteps' : steps config 1 (pursuit'.on base') u' = .error fault r' := bind_of_error hstep' _
      exact .inr (.raises fault ⟨_, r, hreached.left.raises hsteps⟩ ⟨_, r', hreached.right.raises hsteps'⟩)

/-! ## Rest -/

/-- From a state at rest any number of steps can be taken, and they change nothing. -/
theorem steps_rest (n : ℕ) (hs : Reachable s) (hst : st.Held s) (hhalted : st.isHalted = true) :
    ∃ frames, steps config n st s = .ok frames s := by
  induction n with
  | zero => exact ⟨[], rfl⟩
  | succ n ih =>
    obtain ⟨F, hstep, houtput⟩ := step_rests config (reachable_sound hs) hst hhalted
    obtain ⟨frames, hsteps⟩ := ih
    rw [← houtput] at hsteps
    rw [steps, bind_of_ok hstep, bind_of_ok hsteps]
    exact ⟨F :: frames, rfl⟩

theorem Ran.final_of_halted (h : Ran config st s frames t) (hs : Reachable s) (hst : st.Held s)
    (hhalted : st.isHalted = true) : finalState st frames = st := by
  induction h with
  | nil => rfl
  | cons hstep _ ih =>
    obtain ⟨F, hrests, houtput⟩ := step_rests config (reachable_sound hs) hst hhalted
    cases hstep.symm.trans hrests
    rw [finalState_cons, houtput]
    rw [houtput] at ih
    exact ih hs hst hhalted

/-- A run that has halted stays in its state. -/
theorem RanTo.final_eq {final final' : State} (h : RanTo config st s frames final t) (hs : Reachable s)
    (hst : st.Held s) (hhalted : final.isHalted = true) (h' : RanTo config st s frames' final' t')
    (hle : frames.length ≤ frames'.length) : final' = final := by
  obtain ⟨hran, rfl⟩ := h
  obtain ⟨hran', rfl⟩ := h'
  induction hran generalizing frames' with
  | nil => exact hran'.final_of_halted hs hst hhalted
  | cons hstep _ ih =>
    cases hran' with
    | nil => cases hle
    | cons hstep' hrest' =>
      cases hstep.symm.trans hstep'
      obtain ⟨hu, hheld⟩ := reachable_step hs hst hstep
      rw [finalState_cons] at hhalted
      rw [finalState_cons, finalState_cons]
      exact ih hu hheld (Nat.le_of_succ_le_succ hle) hhalted hrest'

/-- A run that has not halted has started no frame at rest. -/
theorem RanTo.moving {final : State} (h : RanTo config st s frames final t) (hs : Reachable s) (hst : st.Held s)
    (hmoving : final.isHalted = false) : ∀ F ∈ frames, F.input.isHalted = false := by
  obtain ⟨hran, rfl⟩ := h
  induction hran with
  | nil => exact List.forall_mem_nil _
  | @cons st s t u F frames hstep hrest ih =>
    obtain ⟨hu, hheld⟩ := reachable_step hs hst hstep
    have hinput := input_of_step hstep
    refine List.forall_mem_cons.2 ⟨?_, ih hu hheld (by rwa [finalState_cons] at hmoving)⟩
    rw [hinput, Bool.eq_false_iff]
    intro hhalted
    rw [(Ran.cons hstep hrest).final_of_halted hs hst hhalted, hhalted] at hmoving
    cases hmoving

/-- Before a run comes to rest it goes through all states that it comes to. -/
theorem RanTo.rest {final : State} (h : RanTo config st s frames final t) (hs : Reachable s) (hst : st.Held s)
    (hhalted : final.isHalted = true) (h' : RanTo config st s frames' st' t') (hmoving : st'.isHalted = false) :
    ∃ others, frames = frames' ++ others ∧ RanTo config st' t' others final t := by
  obtain ⟨hran', rfl⟩ := h'
  induction hran' generalizing frames with
  | nil => exact ⟨frames, rfl, h⟩
  | @cons st s t' u F frames' hstep' hrest' ih =>
    obtain ⟨hran, hfinal⟩ := h
    cases hran with
    | nil =>
      subst hfinal
      have hrested := (Ran.cons hstep' hrest').final_of_halted hs hst hhalted
      rw [hrested] at hmoving
      cases hmoving.symm.trans hhalted
    | cons hstep hrest =>
      cases hstep.symm.trans hstep'
      obtain ⟨hu, hheld⟩ := reachable_step hs hst hstep
      rw [finalState_cons] at hfinal hmoving ⊢
      obtain ⟨others, rfl, hothers⟩ := ih ⟨hrest, hfinal⟩ hu hheld hmoving
      exact ⟨others, rfl, hothers⟩

section
variable {final final' : State} (h : RanTo config st s frames final t) (hs : Reachable s) (hst : st.Held s)
  (hhalted : final.isHalted = true)
include h hs hst hhalted

/-- A run halts in one state only. -/
theorem RanTo.halts_once (h' : RanTo config st s frames' final' t') (hhalted' : final'.isHalted = true) :
    final = final' := by
  rcases le_total frames.length frames'.length with hle | hle
  · exact (h.final_eq hs hst hhalted h' hle).symm
  · exact h'.final_eq hs hst hhalted' h hle

theorem RanTo.not_endless : ¬Endless config st s := by
  intro hendless
  obtain ⟨others, final', u, hlength, hran, hmoving⟩ := hendless frames.length
  rw [h.final_eq hs hst hhalted hran hlength, hhalted] at hmoving
  cases hmoving

end

/-- A run that has halted rests: it raises nothing, and takes in no more. -/
theorem RanTo.rests (h : RanTo config st s frames st' t) (hs : Reachable s) (hst : st.Held s)
    (hhalted : st'.isHalted = true) (n : ℕ) :
    (∃ others u, steps config n st s = .ok others u) ∧ (after (steps config n st) s).content ⊆ t.content := by
  obtain ⟨hran, rfl⟩ := h
  induction hran generalizing n with
  | nil =>
    obtain ⟨others, hsteps⟩ := steps_rest n hs hst hhalted
    exact ⟨⟨others, _, hsteps⟩, by rw [(eq_ok_iff.1 hsteps).2]⟩
  | @cons st s t u F frames hstep hrest ih =>
    obtain ⟨hu, hheld⟩ := reachable_step hs hst hstep
    rw [finalState_cons] at hhalted
    cases n with
    | zero =>
      have hran := RanTo.mk (Ran.cons hstep hrest) rfl
      exact ⟨⟨[], s, rfl⟩, (hran.grows hs hst).content_subset⟩
    | succ n =>
      obtain ⟨⟨others, r, hsteps⟩, hcontent⟩ := ih hu hheld n hhalted
      rw [after_steps_of_ok n hstep, steps, bind_of_ok hstep, bind_of_ok hsteps]
      exact ⟨⟨F :: others, r, rfl⟩, hcontent⟩

end FieldLisp.Machine
