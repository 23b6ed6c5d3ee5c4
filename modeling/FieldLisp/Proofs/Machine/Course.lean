import FieldLisp.Machine.Step
import FieldLisp.Proofs.Machine.ComputationTracking
import FieldLisp.Proofs.Machine.ContOutcome
import FieldLisp.Proofs.Machine.ContSimulation
import FieldLisp.Proofs.Machine.EvalSimulation

/-!
# The course of a phase

A phase takes the same course in every model: it reads a state, asks for the guard of each rule, and
runs rules on what it has read.

* `Course`: a phase over a model;
* `Course.Related`: a simulation between two models goes along with their courses;
* `Course.Follows`: in the marked model the guard of one rule holds, and this rule has a reliable
  outcome;
* `Course.compute_ok`: computing the phase finds that rule and that outcome;
* `Machine.evalPhase_eq`, `Machine.contPhase_eq`: the phases of the machine are such computations.
-/

namespace FieldLisp

open MarkM
open EStateM (bind_of_ok bind_of_error)

/-- A phase of a step over a model: what it reads, the guards, and the rules. -/
structure Course (m : Type → Type) (E P κ σ : Type) where
  read : m σ
  guards : σ → m (List (κ × E))
  run : κ → σ → m (Step E P)

section
variable {m : Type → Type} {E P : Type} [Monad m] [ElementModel E] [PointerModel P]
  [StepModel m E P]

/-- The evaluation phase of a state. -/
def EvalPhase.course (depth : ℕ) (expr env cont : P) :
    Course m E P EvalRule (EvalPhase.Scope E P) :=
  ⟨EvalPhase.prelude expr env cont, EvalPhase.guards, EvalPhase.run depth⟩

/-- The continuation phase after an outcome of the evaluation phase. -/
def ContPhase.course (mid : Step E P) : Course m E P ContRule (ContPhase.Scope E P) :=
  ⟨ContPhase.prelude mid, ContPhase.guards, ContPhase.run⟩

end

namespace Course

section
variable {m₁ m₂ : Type → Type} {E₁ E₂ P₁ P₂ κ σ₁ σ₂ : Type} [Monad m₁] [Monad m₂]
  [ElementModel E₁] [ElementModel E₂] [PointerModel P₁] [PointerModel P₂] [StepModel m₁ E₁ P₁]
  [StepModel m₂ E₂ P₂]

/-- Two models take their courses in step. -/
structure Related (sim : Simulation m₁ m₂ E₁ E₂ P₁ P₂) (rel : σ₁ → σ₂ → Prop)
    (x : Course m₁ E₁ P₁ κ σ₁) (y : Course m₂ E₂ P₂ κ σ₂) : Prop where
  read : sim.run rel x.read y.read
  guards : ∀ {s t}, rel s t → sim.run (FlagsRelated sim.elem) (x.guards s) (y.guards t)
  run : ∀ {s t} (rule : κ), rel s t → sim.run sim.step (x.run rule s) (y.run rule t)

variable [LawfulMonad m₁] [LawfulMonad m₂] (sim : Simulation m₁ m₂ E₁ E₂ P₁ P₂)

theorem related_eval (depth : ℕ) {expr env cont : P₁} {expr' env' cont' : P₂}
    (hexpr : sim.pointer expr expr') (henv : sim.pointer env env') (hcont : sim.pointer cont cont') :
    Related sim sim.evalScope (EvalPhase.course depth expr env cont)
      (EvalPhase.course depth expr' env' cont') where
  read := sim.evalPrelude hexpr henv hcont
  guards := sim.evalGuards
  run rule h := sim.evalRun h depth rule

theorem related_cont {x : Step E₁ P₁} {y : Step E₂ P₂} (h : sim.step x y) :
    Related sim sim.contScope (ContPhase.course x) (ContPhase.course y) where
  read := sim.contPrelude h
  guards := sim.contGuards
  run rule h := sim.contRun h rule

end

end Course

/-! ## The marked model -/

/-- The setting of a rule that is not selected. -/
def Setting.idle (c : Setting) (fill : SlotKey → List Pointer) : Setting :=
  { c with gate := false, fill }

namespace MarkWorld

/-- A phase begins. -/
def beginPhase (W : MarkWorld) (phase : Phase) : MarkWorld :=
  { W with cursor := W.cursor.beginPhase phase }

/-- The rules of the phase begin. -/
def beginRules (W : MarkWorld) : MarkWorld := { W with cursor := W.cursor.beginRules }

end MarkWorld

variable {c : Setting} {κ σ τ : Type}

/-- A phase of the marked model runs through: it reads the state, the guard of one rule holds and no
other, and this rule has a reliable outcome. -/
structure Course.Follows [DecidableEq κ] (y : Course (MarkM c) (Marked Int) MarkedPointer κ σ)
    (rules : List κ) (W : MarkWorld) (scope : σ) (W₁ : MarkWorld) (live : κ)
    (out : Step (Marked Int) MarkedPointer) (W₂ : MarkWorld) : Prop where
  read : y.read.run W = some (scope, W₁)
  guards : y.guards scope = pure (rules.map fun rule => (rule, .bit true (rule == live)))
  run : (y.run live scope).run W₁.beginRules = some (out, W₂)
  concluded : out.Concluded W₂.store

/-! ## Computing a phase -/

/-- Computes a phase: the rule that applied and its outcome. -/
def Course.compute (name : κ → String) (phase : Phase) (x : Course ComputeM Int Pointer κ σ) :
    ComputeM (κ × Step Int Pointer) := do
  Workspace.onCursor (·.beginPhase phase)
  let scope ← x.read
  let guards ← x.guards scope
  let rule ← Workspace.ask fun _ => dispatch name guards
  Workspace.onCursor (·.beginRules)
  let outcome ← x.run rule scope
  pure (rule, outcome)

/-- The guards that hold are those of one rule. -/
theorem firing_map [DecidableEq κ] {rules : List κ} {live : κ} (hnodup : rules.Nodup)
    (hlive : live ∈ rules) :
    firing (rules.map fun rule => (rule, Workspace.bit (rule == live))) = [live] := by
  have hset (rule : κ) : (decide (Workspace.bit (rule == live) ≠ 0)) = (rule == live) := by
    cases rule == live <;> rfl
  have hfilter : rules.filter (fun rule => rule == live) = [live] := by
    rw [List.filter_beq, List.count_eq_one_of_mem hnodup hlive]
    rfl
  rw [firing, List.filter_map, List.map_map]
  change (rules.filter fun rule => decide (Workspace.bit (rule == live) ≠ 0)).map id = _
  simp only [hset, hfilter, List.map_id]

/-- Elements that are computed are those of the marked model. -/
theorem eq_map_of_related {rules : List κ} {value : κ → Bool} {guards : List (κ × Int)}
    (h : FlagsRelated Workspace.SameElement guards
      (rules.map fun rule => (rule, .bit true (value rule)))) :
    guards = rules.map fun rule => (rule, Workspace.bit (value rule)) := by
  induction rules generalizing guards with
  | nil => exact List.forall₂_nil_right_iff.1 h
  | cons rule rules ih =>
    obtain ⟨guard, rest, ⟨hrule, hvalue⟩, hrest, rfl⟩ := List.forall₂_cons_right_iff.1 h
    rw [List.map_cons, ← ih hrest]
    exact congrArg (· :: rest) (Prod.ext hrule hvalue.eq)

namespace Workspace

theorem Mirrors.beginPhase {w : Workspace} {W : MarkWorld} (h : Mirrors w W) (phase : Phase) :
    Mirrors { w with cursor := w.cursor.beginPhase phase } (W.beginPhase phase) :=
  ⟨h.store, by rw [h.cursor]; rfl, h.slots, h.sound, h.records⟩

theorem Mirrors.beginRules {w : Workspace} {W : MarkWorld} (h : Mirrors w W) :
    Mirrors { w with cursor := w.cursor.beginRules } W.beginRules :=
  ⟨h.store, by rw [h.cursor]; rfl, h.slots, h.sound, h.records⟩

end Workspace

open Workspace in
/-- As far as one rule is concerned, the course of a computation goes along with that of the marked
model. If it `reports` values, it may fail for want of a written form. -/
structure Course.Computed {σ' : Type} (c : Setting) (reports : Prop) (rel : σ' → σ → Prop) (live : κ)
    (x : Course ComputeM Int Pointer κ σ') (y : Course (MarkM c) (Marked Int) MarkedPointer κ σ) :
    Prop where
  read : Workspace.Computed c reports rel x.read y.read
  guards : ∀ {s t}, rel s t →
    Workspace.Computed c reports (FlagsRelated SameElement) (x.guards s) (y.guards t)
  run : ∀ {s t}, rel s t → Workspace.Computed c reports (Step.Related SameElement SamePointer)
    (x.run live s) (y.run live t)

open Workspace in
/-- A phase that is computed follows the rule that the marked model follows. -/
theorem Course.Computed.compute [DecidableEq κ] {σ' : Type} {reports : Prop} {name : κ → String}
    {phase : Phase} {x : Course ComputeM Int Pointer κ σ'}
    {y : Course (MarkM c) (Marked Int) MarkedPointer κ σ} {rel : σ' → σ → Prop} {rules : List κ}
    {live : κ} (hxy : Computed c reports rel live x y) (hnodup : rules.Nodup)
    {W W₁ W₂ : MarkWorld} {scope : σ} (hlive : live ∈ rules)
    {out : Step (Marked Int) MarkedPointer}
    (hfollows : y.Follows rules (W.beginPhase phase) scope W₁ live out W₂) {w : Workspace}
    (hw : Mirrors w W) :
    (∃ o w', x.compute name phase w = .ok (live, o) w' ∧
      Step.Related SameElement SamePointer o out ∧ Mirrors w' W₂) ∨
      (reports ∧ Unwritten (x.compute name phase w)) := by
  unfold Course.compute
  rw [bind_of_ok (rfl : onCursor (·.beginPhase phase) w = _)]
  rcases hxy.read _ _ _ _ (hw.beginPhase phase) hfollows.read with
    ⟨s, w₁, hread, hscope, hw₁⟩ | ⟨hreports, fault, v, p, hread, hp⟩
  swap
  · exact .inr ⟨hreports, fault, v, p, bind_of_error hread _, hp⟩
  rw [bind_of_ok hread]
  rcases hxy.guards hscope _ _ _ _ hw₁ (by rw [hfollows.guards]; rfl) with
    ⟨guards, w₂, hguards, hflags, hw₂⟩ | ⟨hreports, fault, v, p, hguards, hp⟩
  swap
  · exact .inr ⟨hreports, fault, v, p, bind_of_error hguards _, hp⟩
  have hdispatch : ask (fun _ => dispatch name guards) w₂ = .ok live w₂ := by
    rw [eq_map_of_related hflags]
    simp only [ask, dispatch, firing_map hnodup hlive]
  rw [bind_of_ok hguards, bind_of_ok hdispatch, bind_of_ok (rfl : onCursor (·.beginRules) w₂ = _)]
  rcases hxy.run hscope _ _ _ _ hw₂.beginRules hfollows.run with
    ⟨o, w₃, hrun, ho, hw₃⟩ | ⟨hreports, fault, v, p, hrun, hp⟩
  · rw [bind_of_ok hrun]
    exact .inl ⟨o, w₃, rfl, ho, hw₃⟩
  · exact .inr ⟨hreports, fault, v, p, bind_of_error hrun _, hp⟩

open Workspace in
/-- A phase that is computed, if it is, follows the rule that the marked model follows. -/
theorem Course.compute_ok [DecidableEq κ] {σ' : Type} (hcomputes : c.Computes) {name : κ → String}
    {phase : Phase} {x : Course ComputeM Int Pointer κ σ'} {y : Course (MarkM c) (Marked Int) MarkedPointer κ σ}
    {rel : σ' → σ → Prop} (hxy : Related (computing hcomputes) rel x y) {rules : List κ}
    (hnodup : rules.Nodup) {W W₁ W₂ : MarkWorld} {scope : σ} {live : κ} (hlive : live ∈ rules)
    {out : Step (Marked Int) MarkedPointer}
    (hfollows : y.Follows rules (W.beginPhase phase) scope W₁ live out W₂) {w w' : Workspace}
    (hw : Mirrors w W) {rule : κ} {o : Step Int Pointer} (hx : x.compute name phase w = .ok (rule, o) w') :
    rule = live ∧ Step.Related SameElement SamePointer o out ∧ Mirrors w' W₂ := by
  have hcomputed : Computed c True rel live x y :=
    ⟨hxy.read, hxy.guards, hxy.run live⟩
  rcases hcomputed.compute hnodup hlive hfollows hw with ⟨o', v, hx', ho, hv⟩ | ⟨-, fault, v, p, hx', -⟩
  · rw [hx] at hx'
    cases hx'
    exact ⟨rfl, ho, hv⟩
  · rw [hx] at hx'
    cases hx'

theorem Machine.evalPhase_eq (config : Config) (state : State) : Machine.evalPhase config state =
    (EvalPhase.course config.lookupDepth state.expr state.env state.cont).compute EvalRule.name
      .eval := rfl

theorem Machine.contPhase_eq (mid : Step Int Pointer) : Machine.contPhase mid =
    (ContPhase.course mid).compute ContRule.name .cont := rfl

end FieldLisp
