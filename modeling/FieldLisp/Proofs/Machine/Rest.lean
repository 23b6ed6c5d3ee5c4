import FieldLisp.Proofs.Machine.StepTracking

/-!
# States at rest

A step from a state at rest is always computed, and leaves the state as it is. No rule that it
follows reports anything, so nothing can lack a written form:

* `EvalPhase.computed_terminal`, `ContPhase.computed_pass`: the two phases are computed without fail;
* `Machine.step_of_halted`: the step repeats its state.
-/

namespace FieldLisp

open Workspace
open EStateM (bind_of_ok)

theorem EvalPhase.computed_terminal {c : Setting} (hcomputes : c.Computes) (depth : ℕ)
    {expr env cont : Pointer} {expr' env' cont' : MarkedPointer} (hexpr : SamePointer expr expr')
    (henv : SamePointer env env') (hcont : SamePointer cont cont') :
    Course.Computed c False (computing hcomputes).evalScope .terminal (course depth expr env cont)
      (course depth expr' env' cont') := by
  let : StepModel ComputeM Int Pointer := reporting fun _ _ => pure ()
  have h := Course.related_eval (computingSilently hcomputes) depth hexpr henv hcont
  exact ⟨h.read, h.guards, h.run .terminal⟩

theorem ContPhase.computed_pass {c : Setting} (hcomputes : c.Computes) {x : Step Int Pointer}
    {y : Step (Marked Int) MarkedPointer} (h : Step.Related SameElement SamePointer x y) :
    Course.Computed c False (computing hcomputes).contScope .pass (course x) (course y) := by
  let : StepModel ComputeM Int Pointer := reporting fun _ _ => pure ()
  have h := Course.related_cont (computingSilently hcomputes) h
  exact ⟨h.read, h.guards, h.run .pass⟩

namespace Machine

variable {config : Config} {state : State} {store : Store} {w : Workspace} {W : MarkWorld}

/-- The evaluation phase leaves a state at rest as it is, and produces no value. -/
theorem evalPhase_of_halted (hsound : store.Sound) (hheld : state.Held store)
    (hhalted : state.isHalted = true) : ∃ mid w W,
      evalPhase config state (.ofStore store) = .ok (.terminal, mid) w ∧ Mirrors w W ∧
        Step.Related SameElement SamePointer mid (state.marked false) ∧
        (state.marked false).Concluded W.store := by
  have hcomputes : Setting.own.Computes := Setting.selected_computes _ _ _
  have hproper : Setting.own.Proper := Setting.selected_proper (fun _ => rfl) _
  have hidle : (Setting.own.idle Setting.own.fill).Proper :=
    ⟨hproper.length, hproper.signs, hproper.sealed⟩
  have hmarked := hheld.marked false
  obtain ⟨scope, W₁, head, out, W₂, hfollows, -, -⟩ := EvalPhase.follows hcomputes hproper hidle
    config.lookupDepth (W := (MarkWorld.ofStore store).beginPhase .eval) hsound hmarked.expr
    hmarked.env hmarked.cont fun _ _ _ _ => .inl rfl
  obtain ⟨_, _, hread, -, -, hexpr, henv, hcont, -⟩ := EvalPhase.yields_prelude hcomputes hproper
    (W := (MarkWorld.ofStore store).beginPhase .eval) hsound hmarked.expr hmarked.env hmarked.cont
  cases hfollows.read.symm.trans hread
  have hrule : EvalPhase.firing state.expr head state.cont = .terminal :=
    if_pos ((Tag.contains_halts _).trans hhalted)
  change Course.Follows _ _ _ _ _ (EvalPhase.firing state.expr head state.cont) _ _ at hfollows
  rw [hrule] at hfollows
  obtain ⟨mid, w, hmid, hrelated, hmirrors⟩ := ((EvalPhase.computed_terminal hcomputes
    config.lookupDepth ⟨rfl, hheld.canonical.1⟩ ⟨rfl, hheld.canonical.2.1⟩
    ⟨rfl, hheld.canonical.2.2⟩).compute EvalRule.nodup_all (EvalRule.mem_all _) hfollows
    (mirrors_ofStore hsound)).resolve_right And.left
  obtain rfl : state.marked false = out := by
    have hout := hfollows.run
    cases hout
    rw [hexpr, henv, hcont]
    rfl
  exact ⟨mid, w, W₂, hmid, hmirrors, hrelated, hfollows.concluded⟩

/-- Without a value, the continuation phase passes the state on. -/
theorem contPhase_of_marked {mid : Step Int Pointer} (hmirrors : Mirrors w W)
    (hrelated : Step.Related SameElement SamePointer mid (state.marked false))
    (hconcluded : (state.marked false).Concluded W.store) : ∃ out w',
      contPhase mid w = .ok (.pass, out) w' ∧
        Step.Related SameElement SamePointer out (state.marked false) := by
  have hcomputes : Setting.own.Computes := Setting.selected_computes _ _ _
  have hproper : Setting.own.Proper := Setting.selected_proper (fun _ => rfl) _
  have hidle : (Setting.own.idle Setting.own.fill).Proper :=
    ⟨hproper.length, hproper.signs, hproper.sealed⟩
  have hret : (state.marked false).ret = .bit true false := rfl
  obtain ⟨scope, W₁, out, W₂, hfollows, -⟩ := ContPhase.follows hcomputes hproper hidle
    (W := W.beginPhase .cont) hmirrors.sound hconcluded hret nofun
  obtain ⟨_, _, hread, -, hvalue, henv, hcont, -⟩ := ContPhase.yields_prelude hcomputes hproper
    (W := W.beginPhase .cont) hmirrors.sound hconcluded hret
  cases hfollows.read.symm.trans hread
  obtain ⟨out', w', hout', hrelated', -⟩ := ((ContPhase.computed_pass hcomputes hrelated).compute
    ContRule.nodup_all (ContRule.mem_all _) hfollows hmirrors).resolve_right And.left
  obtain rfl : state.marked false = out := by
    have hout := hfollows.run
    cases hout
    rw [hvalue, henv, hcont]
    rfl
  exact ⟨out', w', hout', hrelated'⟩

/-- A step from a state at rest is computed, and repeats the state. -/
theorem step_of_halted (hsound : store.Sound) (hheld : state.Held store)
    (hhalted : state.isHalted = true) :
    ∃ F store', step config state store = .ok F store' ∧ F.output = state := by
  obtain ⟨mid, w, W, hmid, hmirrors, hrelated, hconcluded⟩ :=
    @evalPhase_of_halted config _ _ hsound hheld hhalted
  obtain ⟨out, w', hout, hrelated'⟩ := contPhase_of_marked hmirrors hrelated hconcluded
  let F : Frame := ⟨state, ⟨out.expr, out.env, out.cont⟩, .terminal, .pass,
    ⟨mid.expr, mid.env, mid.cont⟩, mid.ret != 0, w'.slots, w'.emitted.reverse⟩
  have hframe : frame config state (.ofStore store) = .ok F w' := by
    unfold frame
    rw [bind_of_ok hmid]
    dsimp only
    rw [bind_of_ok hout]
    rfl
  refine ⟨F, w'.store, by rw [step, hframe], ?_⟩
  change (⟨out.expr, out.env, out.cont⟩ : State) = state
  rw [hrelated'.expr.eq, hrelated'.env.eq, hrelated'.cont.eq]
  rfl

end Machine

end FieldLisp
