import FieldLisp.Machine.Evaluation
import FieldLisp.Proofs.Machine.Rest

/-!
# Runs

What a run leaves behind, however it ends, and what filling it up adds:

* `Machine.Taken`: a frame is that of a step, on a store that holds what the step starts from;
* `Machine.Leads`: frames of steps lead on from a state;
* `Machine.leads_evaluate`: the frames of a run lead on from its first state, and none starts at rest;
* `Machine.leads_padTrace`: a run that ended at rest is filled up without fail, and what it is filled
  up with rests.
-/

namespace FieldLisp

open EStateM (bind_eq_ok pure_eq_ok)

theorem finalState_cons (initial : State) (F : Frame) (frames : List Frame) :
    finalState initial (F :: frames) = finalState F.output frames := by
  cases frames with
  | nil => rfl
  | cons G frames =>
    have hlast := List.getLast?_eq_some_getLast (List.cons_ne_nil G frames)
    rw [finalState, finalState, List.getLast?_cons_cons, hlast]
    rfl

theorem finalState_append (initial : State) (frames frames' : List Frame) :
    finalState initial (frames ++ frames') = finalState (finalState initial frames) frames' := by
  induction frames generalizing initial with
  | nil => rfl
  | cons F frames ih => rw [List.cons_append, finalState_cons, finalState_cons, ih]

namespace Machine

variable {config : Config} {state : State} {store store' : Store} {F : Frame}

/-- What a step leads to is held by the store that it leaves behind. -/
theorem step_held (hsound : store.Sound) (hheld : state.Held store)
    (hstep : step config state store = .ok F store') : store'.Sound ∧ F.output.Held store' := by
  obtain ⟨P⟩ := own_passage hstep hsound hheld
  rw [← P.store]
  exact ⟨P.sound, P.output_held⟩

/-- The frame is that of a step, on a store that holds what the step starts from. -/
def Taken (config : Config) (F : Frame) : Prop :=
  ∃ store store', store.Sound ∧ F.input.Held store ∧ step config F.input store = .ok F store'

theorem taken_of_step (hsound : store.Sound) (hheld : state.Held store)
    (hstep : step config state store = .ok F store') : F.input = state ∧ Taken config F := by
  obtain ⟨rfl, -⟩ := phases_of_step hstep
  exact ⟨rfl, store, store', hsound, hheld, hstep⟩

/-- Frames of steps, the first from a state and each other one from where the one before it ended. -/
inductive Leads (config : Config) : State → List Frame → Prop
  | nil (state : State) : Leads config state []
  | cons {F : Frame} {frames : List Frame} (taken : Taken config F)
      (rest : Leads config F.output frames) : Leads config F.input (F :: frames)

theorem Leads.taken {frames : List Frame} (h : Leads config state frames) :
    ∀ F ∈ frames, Taken config F := by
  induction h with
  | nil => exact List.forall_mem_nil _
  | cons taken _ ih => exact List.forall_mem_cons.2 ⟨taken, ih⟩

theorem Leads.append {frames frames' : List Frame} (h : Leads config state frames)
    (h' : Leads config (finalState state frames) frames') : Leads config state (frames ++ frames') := by
  induction h with
  | nil => exact h'
  | cons taken _ ih =>
    rw [finalState_cons] at h'
    exact .cons taken (ih h')

/-- A frame that repeats its input leads on from itself. -/
theorem leads_replicate (htaken : Taken config F) (hrests : F.output = F.input) (count : ℕ) :
    Leads config F.input (List.replicate count F) := by
  induction count with
  | zero => exact .nil _
  | succ count ih =>
    refine .cons htaken ?_
    rwa [hrests]

theorem finalState_replicate (hrests : F.output = F.input) (count : ℕ) :
    finalState F.input (List.replicate count F) = F.input := by
  induction count with
  | zero => rfl
  | succ count ih => rw [List.replicate_succ, finalState_cons, hrests, ih]

/-! ## Runs -/

/-- A run that stops adds no frame. -/
theorem leads_stop {taken frames : List Frame} {found reason : Reason} (hsound : store.Sound)
    (hheld : state.Held store)
    (hrun : (pure (taken.reverse, found) : StoreM (List Frame × Reason)) store =
      .ok (frames, reason) store') :
    ∃ added, frames = taken.reverse ++ added ∧ Leads config state added ∧
      (∀ F ∈ added, F.isIdentity = false) ∧ store'.Sound ∧ (finalState state added).Held store' := by
  obtain ⟨hframes, rfl⟩ := pure_eq_ok.1 hrun
  refine ⟨[], ?_, .nil _, List.forall_mem_nil _, hsound, hheld⟩
  rw [List.append_nil]
  exact (Prod.mk.inj hframes).1.symm

/-- A run adds frames that lead on from its state, and starts none at rest. -/
theorem leads_run {cancelled : Bool} {budget : ℕ} {taken frames : List Frame} {reason : Reason}
    (hsound : store.Sound) (hheld : state.Held store)
    (hrun : run config cancelled budget state taken store = .ok (frames, reason) store') :
    ∃ added, frames = taken.reverse ++ added ∧ Leads config state added ∧
      (∀ F ∈ added, F.isIdentity = false) ∧ store'.Sound ∧ (finalState state added).Held store' := by
  induction budget generalizing state taken store with
  | zero => exact leads_stop hsound hheld hrun
  | succ budget ih =>
    rw [run] at hrun
    cases hstop : stop? cancelled (budget + 1) state with
    | some found =>
      rw [hstop] at hrun
      exact leads_stop hsound hheld hrun
    | none =>
      rw [hstop] at hrun
      obtain ⟨F, store₁, hstep, hrest⟩ := bind_eq_ok.1 hrun
      obtain ⟨hsound₁, hheld₁⟩ := step_held hsound hheld hstep
      obtain ⟨rfl, htaken⟩ := taken_of_step hsound hheld hstep
      obtain ⟨added, hframes, hleads, hmoves, hlast⟩ := ih hsound₁ hheld₁ hrest
      have hmoves₁ : F.isIdentity = false := by
        unfold stop? at hstop
        split at hstop
        · cases hstop
        · exact Bool.eq_false_iff.2 ‹_›
      refine ⟨F :: added, by simpa using hframes, .cons htaken hleads,
        List.forall_mem_cons.2 ⟨hmoves₁, hmoves⟩, ?_⟩
      rwa [finalState_cons]

variable {maxSteps : Int} {cancelled : Bool} {expr : Pointer} {env : Option Pointer} {E : Evaluation}

theorem internPointer_eq_ok {p q : Pointer} :
    Store.internPointer p store = .ok q store' ↔ store.contains p = true ∧ p = q ∧ store = store' := by
  unfold Store.internPointer
  split <;> simp [*]

theorem held_initial {expr env : Pointer} (hexpr : store.Holds expr) (henv : store.Holds env) :
    (State.initial expr env).Held store := by
  simp only [State.Held, State.pointers, State.initial, List.mem_cons, List.not_mem_nil, or_false,
    forall_eq_or_imp, forall_eq]
  exact ⟨hexpr, henv, store.holds_immediate (Pointer.immediate_canonical .outermost 0) rfl⟩

/-- An evaluation is a run from the expression and the environment, which are in the store. -/
theorem evaluate_eq_ok :
    evaluate config maxSteps cancelled expr env store = .ok E store' ↔ 0 ≤ maxSteps ∧
      store.contains expr = true ∧ store.contains (env.getD .nil) = true ∧
      E.initial = .initial expr (env.getD .nil) ∧
      run config cancelled maxSteps.toNat E.initial [] store = .ok (E.frames, E.reason) store' := by
  have hrun (env : Pointer) : (do
      let ran ← run config cancelled maxSteps.toNat (.initial expr env) []
      pure ⟨ran.1, ran.2, .initial expr env⟩ : StoreM Evaluation) store = .ok E store' ↔
        E.initial = .initial expr env ∧
          run config cancelled maxSteps.toNat E.initial [] store = .ok (E.frames, E.reason) store' := by
    rw [bind_eq_ok]
    constructor
    · rintro ⟨⟨frames, reason⟩, _, hrun, hresult⟩
      obtain ⟨rfl, rfl⟩ := pure_eq_ok.1 hresult
      exact ⟨rfl, hrun⟩
    · rintro ⟨hinitial, hrun⟩
      obtain ⟨frames, reason, initial⟩ := E
      obtain rfl := hinitial
      exact ⟨_, _, hrun, rfl⟩
  unfold evaluate
  by_cases hnegative : maxSteps < 0
  · rw [if_pos hnegative]
    exact ⟨nofun, fun h => absurd h.1 (not_le.2 hnegative)⟩
  rw [if_neg hnegative]
  dsimp only
  rw [bind_eq_ok]
  simp only [internPointer_eq_ok]
  constructor
  · rintro ⟨_, _, ⟨hcontains, rfl, rfl⟩, h⟩
    refine ⟨not_lt.1 hnegative, hcontains, ?_⟩
    cases env with
    | none => exact ⟨store.holds_nil.contains, (hrun _).1 h⟩
    | some env =>
      obtain ⟨_, _, henv, h⟩ := bind_eq_ok.1 h
      obtain ⟨hcontains, rfl, rfl⟩ := internPointer_eq_ok.1 henv
      exact ⟨hcontains, (hrun _).1 h⟩
  · rintro ⟨-, hcontains, hcontains', h⟩
    refine ⟨_, _, ⟨hcontains, rfl, rfl⟩, ?_⟩
    cases env with
    | none => exact (hrun _).2 h
    | some env => exact bind_eq_ok.2 ⟨_, _, internPointer_eq_ok.2 ⟨hcontains', rfl, rfl⟩, (hrun _).2 h⟩

/-- The frames of a run lead on from its first state, and none starts at rest. -/
theorem leads_evaluate (hsound : store.Sound) (hexpr : expr.Canonical)
    (henv : ∀ p ∈ env, p.Canonical)
    (hrun : evaluate config maxSteps cancelled expr env store = .ok E store') :
    E.initial = .initial expr (env.getD .nil) ∧ Leads config E.initial E.frames ∧
      (∀ F ∈ E.frames, F.isIdentity = false) ∧ store'.Sound ∧ E.final.Held store' := by
  obtain ⟨-, hcontains, hcontains', hinitial, hrun⟩ := evaluate_eq_ok.1 hrun
  have hheld : E.initial.Held store := by
    rw [hinitial]
    refine held_initial ⟨hexpr, hcontains⟩ ⟨?_, hcontains'⟩
    cases env with
    | none => exact Pointer.immediate_canonical .nil 0
    | some env => exact henv env rfl
  obtain ⟨added, hframes, hleads, hmoves, hsound', hlast⟩ := leads_run hsound hheld hrun
  rw [List.reverse_nil, List.nil_append] at hframes
  rw [← hframes] at hleads hmoves hlast
  exact ⟨hinitial, hleads, hmoves, hsound', hlast⟩

/-! ## Filling up -/

/-- A frame that starts at rest ends where it starts. -/
theorem Taken.output_eq (h : Taken config F) (hidentity : F.isIdentity = true) : F.output = F.input := by
  obtain ⟨store, store', hsound, hheld, hstep⟩ := h
  obtain ⟨G, store'', hstep', houtput⟩ := @step_of_halted config _ _ hsound hheld hidentity
  cases hstep.symm.trans hstep'
  exact houtput

/-- A trace that ended at rest is filled up without fail. What it is filled up with leads on from where
it ended, and rests there. -/
theorem leads_padTrace {frames : List Frame} {length : Int} {start : Option State} {final : State}
    (hsound : store.Sound) (hheld : final.Held store) (hhalted : final.isHalted = true)
    (hfinal : (frames.getLast?.map Frame.output).or start = some final)
    (hlength : (frames.length : Int) ≤ length) : ∃ padding store',
      padTrace config frames length start store = .ok (frames ++ padding) store' ∧
        ((frames ++ padding).length : Int) = length ∧ Leads config final padding ∧
        (∀ F ∈ padding, F.isIdentity = true) ∧ finalState final padding = final := by
  unfold padTrace
  rw [if_neg (not_lt.2 hlength)]
  by_cases hfull : length = frames.length
  · rw [if_pos hfull]
    refine ⟨[], store, ?_, ?_, .nil _, List.forall_mem_nil _, rfl⟩
    · rw [List.append_nil]
      rfl
    · rw [List.append_nil, hfull]
  · obtain ⟨F, store', hstep, houtput⟩ := @step_of_halted config _ _ hsound hheld hhalted
    obtain ⟨rfl, htaken⟩ := taken_of_step hsound hheld hstep
    rw [if_neg hfull, hfinal]
    dsimp only
    rw [if_pos hhalted, EStateM.bind_of_ok hstep]
    refine ⟨_, store', rfl, ?_, leads_replicate htaken houtput _, ?_, finalState_replicate houtput _⟩
    · rw [List.length_append, List.length_replicate]
      omega
    · intro G hG
      rw [(List.mem_replicate.1 hG).2]
      exact hhalted

end Machine

end FieldLisp
