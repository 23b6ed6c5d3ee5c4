import FieldLisp.Proofs.Machine.StepProgram

/-!
# What steps ask for

* `steadying`: canonical elements and pointers lead to canonical ones;
* `Program.within_step`, `Program.within_evaluate`: a step and an evaluation ask about canonical
  pointers only, and take in no names.
-/

namespace FieldLisp

open Store StepModel

/-- A request about canonical pointers, with no name to take in. -/
def Request.Calm (r : Request) : Prop := r.Canonical ∧ r.Nameless

/-- All requests are about canonical pointers, none takes in a name, and the result is good. -/
def Steady {α : Type} (good : α → Prop) (x : ProgramM α) : Prop :=
  ∀ notes, (x notes).Within Request.Calm fun r => good r.1

namespace Steady

variable {α β : Type} {good : α → Prop} {good' : β → Prop}

theorem pure {a : α} (h : good a) : Steady good (Pure.pure a) := fun _ => h

theorem bind {x : ProgramM α} {f : α → ProgramM β} (hx : Steady good x)
    (hf : ∀ a, good a → Steady good' (f a)) : Steady good' (x >>= f) :=
  fun notes => (hx notes).bind fun r hr => hf r.1 hr r.2

theorem mono {good' : α → Prop} {x : ProgramM α} (hx : Steady good x)
    (h : ∀ a, good a → good' a) : Steady good' x :=
  fun notes => (hx notes).mono (fun _ => id) fun r => h r.1

theorem ofExcept {x : Except Fault α} (h : ∀ a, x = .ok a → good a) :
    Steady good (ProgramM.ofExcept x) := by
  cases x with
  | ok a => exact .pure (h a rfl)
  | error fault => exact fun _ => trivial

theorem fallible (x : Except Fault α) : Steady (fun _ => True) (ProgramM.ofExcept x) :=
  ofExcept fun _ _ => trivial

theorem ask {r : Request} (hr : r.Calm) : Steady r.Fits (ProgramM.ask r) :=
  fun _ => ⟨hr, fun _ hfits => hfits⟩

theorem onCursor (change : SlotCursor → SlotCursor) :
    Steady (fun _ => True) (ProgramM.onCursor change) := fun _ => trivial

theorem claim (arity : Int) (condition : Option Int) :
    Steady (fun _ => True) (ProgramM.claim arity condition) := fun _ => trivial

theorem recordSlot (key : SlotKey) (preimage : List Int) :
    Steady (fun _ => True) (ProgramM.recordSlot key preimage) := fun _ => trivial

theorem tagOf (value : Int) : Steady (fun _ => True) (ProgramM.tagOf value) := fallible _

theorem hash (tag : Int) {children : List Pointer} (hchildren : ∀ c ∈ children, c.Canonical)
    (condition : Option Int) : Steady Pointer.Canonical (ProgramM.hash tag children condition) := by
  refine (claim children.length condition).bind fun key _ => ?_
  cases key with
  | none => exact .pure (Pointer.immediate_canonical .nil 0)
  | some key =>
    refine (tagOf tag).bind fun tag _ => ?_
    refine (ask (r := .node tag children) ⟨hchildren, trivial⟩).bind fun p hp => ?_
    exact (recordSlot key (nodePreimage p.tag children)).bind fun _ _ => .pure hp

theorem unhash {p : Pointer} (hp : p.Canonical) (arity : Int) (condition : Option Int) :
    Steady (fun cs => ∀ c ∈ cs, c.Canonical) (ProgramM.unhash p arity condition) := by
  refine (claim arity condition).bind fun key _ => ?_
  cases key with
  | none =>
    refine .pure fun c hc => ?_
    rw [List.eq_of_mem_replicate hc]
    exact Pointer.immediate_canonical .nil 0
  | some key =>
    refine (ask (r := .children p (some arity)) ⟨hp, trivial⟩).bind fun children hchildren => ?_
    exact (recordSlot key (nodePreimage p.tag children)).bind fun _ _ => .pure hchildren

theorem emit {p : Pointer} (hp : p.Canonical) (condition : Option Int) :
    Steady (fun _ => True) (ProgramM.emit p condition) := by
  unfold ProgramM.emit
  split
  · have hreport : Steady (fun _ => True) (ProgramM.report p) := fun _ => trivial
    refine hreport.bind fun _ _ => ?_
    exact (ask (r := .write p) ⟨hp, trivial⟩).mono fun _ _ => trivial
  · exact .pure trivial

end Steady

theorem canonical_bit (b : Bool) : Field.Canonical (Workspace.bit b) := by
  cases b <;> decide

theorem canonical_divRem {a b : Int} (ha : Field.Canonical a) (hb : Field.Canonical b)
    (hzero : b ≠ 0) : Field.Canonical (a.fdiv b) ∧ Field.Canonical (a.fmod b) := by
  obtain ⟨ha, ha'⟩ := ha
  obtain ⟨hb, hb'⟩ := hb
  rw [Int.fdiv_eq_ediv_of_nonneg a hb, Int.fmod_eq_emod_of_nonneg a hb]
  refine ⟨⟨Int.ediv_nonneg ha hb, ?_⟩, Int.emod_nonneg a hzero, ?_⟩
  · exact (Int.ediv_le_self b ha).trans_lt ha'
  · exact (Int.emod_lt_of_pos a (by omega)).trans hb'

/-- Canonical elements and pointers lead to canonical ones. -/
def steadying : Simulation ProgramM ProgramM Int Int Pointer Pointer where
  elem a _ := Field.Canonical a
  pointer p _ := p.Canonical
  run rel x _ := Steady (fun a => ∃ b, rel a b) x
  pure h := .pure ⟨_, h⟩
  bind hx hf := hx.bind fun a ⟨b, hab⟩ => hf a b hab
  lit n := Field.reduce_canonical n
  add _ _ := Field.reduce_canonical _
  sub _ _ := Field.reduce_canonical _
  ptr hp := hp
  makePointer tag ha := by
    refine (Steady.tagOf _).bind fun tag' _ => .pure ⟨.nil, rfl, ?_⟩
    have hzero : Field.Canonical (StepModel.lit 0 : Int) := Field.reduce_canonical 0
    simp only [List.mem_cons, List.not_mem_nil, or_false, forall_eq_or_imp, forall_eq]
    exact ⟨ha, hzero, hzero, hzero⟩
  payload hp := by
    refine .ofExcept fun value hvalue => ⟨0, ?_⟩
    obtain ⟨d₀, d₁, d₂, d₃, hdigest⟩ := hp.exists_digest
    rw [Pointer.payload, hdigest] at hvalue
    obtain rfl := Except.ok.inj hvalue
    exact hp.2 _ (by simp [hdigest])
  mul _ _ := .pure ⟨0, Field.reduce_canonical _⟩
  div _ _ := by
    refine .ofExcept fun x hx => ⟨(0, 0), ?_⟩
    unfold ProgramM.div at hx
    split_ifs at hx
    · cases hx
      exact ⟨by decide, by decide⟩
    · cases hx
      exact ⟨Field.reduce_canonical _, Field.reduce_canonical 0⟩
  isZero _ := .pure ⟨0, canonical_bit _⟩
  isNegative _ := .pure ⟨0, canonical_bit _⟩
  less _ _ := .pure ⟨0, canonical_bit _⟩
  divRem ha hb _ := by
    refine .ofExcept fun x hx => ⟨(0, 0), ?_⟩
    unfold ProgramM.divRem at hx
    split_ifs at hx with _ hzero
    · cases hx
      exact canonical_divRem ha hb hzero
    · cases hx
      exact ⟨by decide, by decide⟩
  select {a _ x _ y _} _ hx hy := by
    refine .pure ⟨0, ?_⟩
    split_ifs
    · exact hy
    · exact hx
  selectPointer {a _ p _ q _} _ hp hq := by
    refine .pure ⟨.nil, ?_⟩
    split_ifs
    · exact hq
    · exact hp
  tagIs _ _ := .pure ⟨0, canonical_bit _⟩
  pointerEq _ _ := .pure ⟨0, canonical_bit _⟩
  hash _ hps _ := by
    have hchildren := (List.forall₂_and_left (R := fun _ _ => True) _ _).1
      (hps.imp fun _ _ hp => ⟨hp, trivial⟩)
    exact (Steady.hash _ hchildren.1 _).mono fun p hp => ⟨.nil, hp⟩
  unhash := by
    intro p _ arity c _ hp _
    exact (Steady.unhash hp arity c).mono fun cs hcs => ⟨cs, List.forall₂_same.2 hcs⟩
  emit hp _ := (Steady.emit hp _).mono fun _ _ => ⟨(), trivial⟩

theorem Steady.bind_steadying {α β γ : Type} {rel : α → β → Prop} {x : ProgramM α} {y : ProgramM β}
    {good : γ → Prop} {f : α → ProgramM γ} (hx : steadying.run rel x y)
    (hf : ∀ a b, rel a b → Steady good (f a)) : Steady good (x >>= f) := by
  have hx : Steady (fun a => ∃ b, rel a b) x := hx
  exact hx.bind fun a ⟨b, hab⟩ => hf a b hab

theorem steady_evalPhase (config : Config) {state : State} (hstate : state.Canonical) :
    Steady (fun r => r.2.expr.Canonical ∧ r.2.env.Canonical ∧ r.2.cont.Canonical ∧
      Field.Canonical r.2.ret) (ProgramM.evalPhase config state) := by
  obtain ⟨hexpr, henv, hcont⟩ := hstate
  refine (Steady.onCursor _).bind fun _ _ => ?_
  have beside {p : Pointer} (hp : p.Canonical) : steadying.pointer p .nil := hp
  have hprelude := steadying.evalPrelude (beside hexpr) (beside henv) (beside hcont)
  refine Steady.bind_steadying hprelude fun scope _ hscope => ?_
  refine Steady.bind_steadying (steadying.evalGuards hscope) fun guards _ _ => ?_
  refine (Steady.fallible _).bind fun rule _ => ?_
  refine (Steady.onCursor _).bind fun _ _ => ?_
  have hrun := steadying.evalRun hscope config.lookupDepth rule
  refine Steady.bind_steadying hrun fun out _ hout => ?_
  exact .pure ⟨hout.expr, hout.env, hout.cont, hout.ret⟩

theorem steady_contPhase {mid : Step Int Pointer} (hexpr : mid.expr.Canonical)
    (henv : mid.env.Canonical) (hcont : mid.cont.Canonical) (hret : Field.Canonical mid.ret) :
    Steady (fun r => r.2.expr.Canonical ∧ r.2.env.Canonical ∧ r.2.cont.Canonical)
      (ProgramM.contPhase mid) := by
  refine (Steady.onCursor _).bind fun _ _ => ?_
  have hmid : steadying.step mid mid := ⟨hexpr, henv, hcont, hret⟩
  refine Steady.bind_steadying (steadying.contPrelude hmid) fun scope _ hscope => ?_
  refine Steady.bind_steadying (steadying.contGuards hscope) fun guards _ _ => ?_
  refine (Steady.fallible _).bind fun rule _ => ?_
  refine (Steady.onCursor _).bind fun _ _ => ?_
  refine Steady.bind_steadying (steadying.contRun hscope rule) fun out _ hout => ?_
  exact .pure ⟨hout.expr, hout.env, hout.cont⟩

theorem steady_frame (config : Config) {state : State} (hstate : state.Canonical) :
    Steady (fun F => F.output.Canonical) (ProgramM.frame config state) := by
  refine (steady_evalPhase config hstate).bind fun (rule, mid) ⟨hexpr, henv, hcont, hret⟩ => ?_
  refine (steady_contPhase hexpr henv hcont hret).bind fun (returnRule, out) hout => ?_
  exact fun _ => hout

namespace Program

variable {config : Config} {state : State}

theorem within_step (config : Config) (hstate : state.Canonical) :
    (step config state).Within Request.Calm fun F => F.output.Canonical :=
  Within.bind (steady_frame config hstate _) fun _ hF => hF

theorem within_steps (config : Config) (cancelled : Bool) (budget : ℕ) (taken : List Frame)
    (hstate : state.Canonical) :
    (steps config cancelled budget state taken).Within Request.Calm fun _ => True := by
  induction budget generalizing state taken with
  | zero => trivial
  | succ budget ih =>
    unfold steps
    cases Machine.stop? cancelled (budget + 1) state with
    | some reason => trivial
    | none => exact (within_step config hstate).bind fun F hF => ih (F :: taken) hF

theorem within_evaluate (config : Config) (maxSteps : Int) (cancelled : Bool) {expr : Pointer}
    {env : Option Pointer} (hexpr : expr.Canonical) (henv : ∀ p ∈ env, p.Canonical) :
    (evaluate config maxSteps cancelled expr env).Within Request.Calm fun _ => True := by
  have houtermost := Pointer.immediate_canonical .outermost 0
  have hend {env : Pointer} (henv : env.Canonical) :
      (evaluateFrom config cancelled maxSteps.toNat (.initial expr env)).Within Request.Calm
        fun _ => True :=
    Within.bind (within_steps config cancelled maxSteps.toNat [] ⟨hexpr, henv, houtermost⟩)
      fun _ _ => trivial
  have hrequire {p : Pointer} (hp : p.Canonical) :
      (request (.require p)).Within Request.Calm fun _ => True := ⟨⟨hp, trivial⟩, fun _ _ => trivial⟩
  cases env with
  | none =>
    unfold evaluate
    split_ifs
    · trivial
    · exact (hrequire hexpr).bind fun _ _ => hend (Pointer.immediate_canonical .nil 0)
  | some env =>
    unfold evaluate
    split_ifs
    · trivial
    · refine (hrequire hexpr).bind fun _ _ => ?_
      exact (hrequire (henv env rfl)).bind fun _ _ => hend (henv env rfl)

end Program

end FieldLisp
