import FieldLisp.Machine.Evaluation
import FieldLisp.Proofs.Machine.ContSimulation
import FieldLisp.Proofs.Machine.EvalSimulation
import FieldLisp.Proofs.Store.Requests

/-!
# Steps as programs

The rules of the machine, run in a model that asks a store for what it needs instead of holding it. So a
step and an evaluation are trees of requests, and their runs are the runs of the machine:

* `ProgramM`: the model; `Program.step`, `Program.evaluate`: a step and an evaluation in it;
* `asking`: the two models do the same, operation by operation;
* `Program.run_step`, `Program.run_evaluate`: run without a break they are those of the machine.
-/

namespace FieldLisp

open Store StepModel

/-- What has been recorded of a step so far. -/
structure Notes where
  cursor : SlotCursor
  slots : SlotTable
  emitted : List Pointer

/-- The workspace that has these notes beside a store. -/
def Notes.on (notes : Notes) (s : Store) : Workspace := ⟨s, notes.cursor, notes.slots, notes.emitted⟩

/-- A computation that asks a store and takes notes. -/
abbrev ProgramM := StateT Notes Program

namespace ProgramM

variable {α : Type}

def ask (r : Request) : ProgramM r.Answer := fun notes => .ask r fun answer => .done (answer, notes)

def ofExcept : Except Fault α → ProgramM α
  | .ok a => pure a
  | .error fault => fun _ => .fail fault

def onCursor (change : SlotCursor → SlotCursor) : ProgramM Unit := fun notes =>
  .done ((), { notes with cursor := change notes.cursor })

/-- Takes the next slot for a number of children; there is none to fill if the operation is off. -/
def claim (arity : Int) (condition : Option Int) : ProgramM (Option SlotKey) := fun notes =>
  let (key, cursor) := notes.cursor.next arity
  .done (if Workspace.enabled condition then some key else none, { notes with cursor := cursor })

def recordSlot (key : SlotKey) (preimage : List Int) : ProgramM Unit := fun notes =>
  .done ((), { notes with slots := notes.slots.set key preimage })

def report (p : Pointer) : ProgramM Unit := fun notes =>
  .done ((), { notes with emitted := p :: notes.emitted })

def tagOf (value : Int) : ProgramM Tag :=
  ofExcept (match Tag.ofValue? value with
    | some tag => .ok tag
    | none => .error (.unknownTag value))

def hash (tag : Int) (children : List Pointer) (condition : Option Int) : ProgramM Pointer := do
  match ← claim children.length condition with
  | some key => do
    let tag ← tagOf tag
    let p ← ask (.node tag children)
    recordSlot key (nodePreimage p.tag children)
    pure p
  | none => pure .nil

def unhash (p : Pointer) (arity : Int) (condition : Option Int) : ProgramM (List Pointer) := do
  match ← claim arity condition with
  | some key => do
    let children ← ask (.children p (some arity))
    recordSlot key (nodePreimage p.tag children)
    pure children
  | none => pure (List.replicate arity.toNat .nil)

def emit (p : Pointer) (condition : Option Int) : ProgramM Unit :=
  if Workspace.enabled condition then do
    report p
    ask (.write p)
  else pure ()

def div (a b : Int) : Except Fault (Int × Int) :=
  if b = 0 then .ok (0, 1)
  else if Field.reduce b = 0 then .error .zeroInverse
  else .ok (Field.reduce (a * Field.invert b), 0)

def divRem (a b : Int) (condition : Option Int) : Except Fault (Int × Int) :=
  if Workspace.enabled condition then
    if b = 0 then .error .divisionByZero else .ok (a.fdiv b, a.fmod b)
  else .ok (0, 0)

end ProgramM

open ProgramM Workspace in
instance : StepModel ProgramM Int Pointer where
  makePointer tag digest := do
    let tag ← ProgramM.tagOf tag
    pure ⟨tag, digest⟩
  payload p := ofExcept p.payload
  mul a b := pure (Field.reduce (a * b))
  div a b := ofExcept (ProgramM.div a b)
  isZero a := pure (bit (a == 0))
  isNegative a := pure (bit (Field.isNegative a))
  less a b := pure (bit (Field.toSigned a < Field.toSigned b))
  divRem a b condition := ofExcept (ProgramM.divRem a b condition)
  select flag x y := pure (if flag = 0 then y else x)
  selectPointer flag p q := pure (if flag = 0 then q else p)
  tagIs p tag := pure (bit (p.tag == tag))
  pointerEq p q := pure (bit (p == q))
  hash := ProgramM.hash
  unhash := ProgramM.unhash
  emit := ProgramM.emit

namespace ProgramM

/-- The evaluation phase: the rule that applied and its outcome. -/
def evalPhase (config : Config) (state : State) : ProgramM (EvalRule × Step Int Pointer) := do
  onCursor (·.beginPhase .eval)
  let scope ← EvalPhase.prelude state.expr state.env state.cont
  let guards ← EvalPhase.guards scope
  let rule ← ofExcept (dispatch EvalRule.name guards)
  onCursor (·.beginRules)
  let outcome ← EvalPhase.run config.lookupDepth rule scope
  pure (rule, outcome)

/-- The continuation phase: the rule that applied and its outcome. -/
def contPhase (mid : Step Int Pointer) : ProgramM (ContRule × Step Int Pointer) := do
  onCursor (·.beginPhase .cont)
  let scope ← ContPhase.prelude mid
  let guards ← ContPhase.guards scope
  let rule ← ofExcept (dispatch ContRule.name guards)
  onCursor (·.beginRules)
  let outcome ← ContPhase.run rule scope
  pure (rule, outcome)

def frame (config : Config) (state : State) : ProgramM Frame := do
  let (rule, mid) ← evalPhase config state
  let (returnRule, out) ← contPhase mid
  let notes ← get
  pure {
    input := state
    output := ⟨out.expr, out.env, out.cont⟩
    rule := rule
    returnRule := returnRule
    intermediate := ⟨mid.expr, mid.env, mid.cont⟩
    returned := mid.ret != 0
    slots := notes.slots
    emitted := notes.emitted.reverse }

end ProgramM

namespace Program

/-- One step from a state. -/
def step (config : Config) (state : State) : Program Frame := do
  let (frame, _) ← ProgramM.frame config state ⟨.start, [], []⟩
  pure frame

/-- Takes at most `budget` steps. Frames taken so far are given last one first. -/
def steps (config : Config) (cancelled : Bool) :
    Nat → State → List Frame → Program (List Frame × Reason)
  | 0, state, taken =>
    pure (taken.reverse, (Machine.stop? cancelled 0 state).getD .maxStepsReached)
  | budget + 1, state, taken =>
    match Machine.stop? cancelled (budget + 1) state with
    | some reason => pure (taken.reverse, reason)
    | none => do
      let frame ← step config state
      steps config cancelled budget frame.output (frame :: taken)

/-- Steps from a state, until the run stops. -/
def evaluateFrom (config : Config) (cancelled : Bool) (budget : Nat) (initial : State) :
    Program Evaluation := do
  let (frames, reason) ← steps config cancelled budget initial []
  pure ⟨frames, reason, initial⟩

/-- Evaluates an expression in an environment, nil if none is given. -/
def evaluate (config : Config) (maxSteps : Int) (cancelled : Bool) (expr : Pointer) :
    Option Pointer → Program Evaluation
  | none =>
    if maxSteps < 0 then .fail (.negativeSteps maxSteps)
    else do
      request (.require expr)
      evaluateFrom config cancelled maxSteps.toNat (.initial expr .nil)
  | some env =>
    if maxSteps < 0 then .fail (.negativeSteps maxSteps)
    else do
      request (.require expr)
      request (.require env)
      evaluateFrom config cancelled maxSteps.toNat (.initial expr env)

end Program

/-! ## Runs without a break -/

/-- A program that took notes has ended as a computation that held the store. -/
def Coincides {α β : Type} (rel : α → β → Prop) :
    EStateM.Result Fault Store (α × Notes) → EStateM.Result Fault Workspace β → Prop
  | .ok (a, notes) s, .ok b w => rel a b ∧ w = notes.on s
  | .error fault s, .error fault' w => fault = fault' ∧ w.store = s
  | _, _ => False

/-- Run without a break, a program does the same as a computation. -/
def Realizes {α β : Type} (rel : α → β → Prop) (x : ProgramM α) (y : ComputeM β) : Prop :=
  ∀ (notes : Notes) (s : Store), Coincides rel ((x notes).run s) (y (notes.on s))

namespace Realizes

variable {α β γ δ : Type} {rel : α → β → Prop} {rel' : γ → δ → Prop}

theorem pure {a : α} {b : β} (h : rel a b) : Realizes rel (Pure.pure a) (Pure.pure b) :=
  fun _ _ => ⟨h, rfl⟩

theorem bind {x : ProgramM α} {y : ComputeM β} {f : α → ProgramM γ} {g : β → ComputeM δ}
    (hx : Realizes rel x y) (hf : ∀ a b, rel a b → Realizes rel' (f a) (g b)) :
    Realizes rel' (x >>= f) (y >>= g) := by
  intro notes s
  have hx := hx notes s
  change Coincides rel' ((x notes >>= fun r => f r.1 r.2).run s) ((y >>= g) (notes.on s))
  rw [Program.run_bind]
  cases hprogram : (x notes).run s with
  | error fault t =>
    rw [hprogram] at hx
    rw [EStateM.bind_of_error hprogram]
    cases hcomputed : y (notes.on s) with
    | error fault' w =>
      rw [hcomputed] at hx
      rw [EStateM.bind_of_error hcomputed]
      exact hx
    | ok b w =>
      rw [hcomputed] at hx
      exact hx.elim
  | ok r t =>
    obtain ⟨a, notes'⟩ := r
    rw [hprogram] at hx
    rw [EStateM.bind_of_ok hprogram]
    cases hcomputed : y (notes.on s) with
    | error fault' w =>
      rw [hcomputed] at hx
      exact hx.elim
    | ok b w =>
      rw [hcomputed] at hx
      rw [EStateM.bind_of_ok hcomputed]
      obtain ⟨hab, rfl⟩ := hx
      exact hf a b hab notes' t

theorem mono {rel' : α → β → Prop} {x : ProgramM α} {y : ComputeM β} (h : Realizes rel x y)
    (hrel : ∀ a b, rel a b → rel' a b) : Realizes rel' x y := by
  rw [← bind_pure x, ← bind_pure y]
  exact h.bind fun a b hab => .pure (hrel a b hab)

theorem ofExcept (x : Except Fault α) :
    Realizes Eq (ProgramM.ofExcept x) (Workspace.ask fun _ => x) := by
  intro notes s
  cases x with
  | ok a => exact ⟨rfl, rfl⟩
  | error fault => exact ⟨rfl, rfl⟩

/-- A computation that does to its store what a request does. -/
theorem perform (r : Request) {y : ComputeM r.Answer} (hy : ∀ (notes : Notes) (s : Store),
      y (notes.on s) = match r.perform s with
        | .ok a t => .ok a (notes.on t)
        | .error fault t => .error fault (notes.on t)) :
    Realizes Eq (ProgramM.ask r) y := by
  intro notes s
  have hrun : (ProgramM.ask r notes).run s =
      (r.perform >>= fun answer => Pure.pure (answer, notes)) s := rfl
  rw [hrun, hy]
  cases hperform : r.perform s with
  | ok a t =>
    rw [EStateM.bind_of_ok hperform]
    exact ⟨rfl, rfl⟩
  | error fault t =>
    rw [EStateM.bind_of_error hperform]
    exact ⟨rfl, rfl⟩

/-- A question that a request asks, and of whose answer it may tell less. -/
theorem ask {question : Store → Except Fault β} (r : Request) (tell : β → r.Answer)
    (hr : r.perform = Store.ask fun s => (question s).map tell) :
    Realizes (fun a b => a = tell b) (ProgramM.ask r) (Workspace.ask question) := by
  intro notes s
  have hrun : (ProgramM.ask r notes).run s =
      (r.perform >>= fun answer => Pure.pure (answer, notes)) s := rfl
  have hasked : Workspace.ask question (notes.on s) = match question s with
    | .ok b => EStateM.Result.ok b (notes.on s)
    | .error fault => .error fault (notes.on s) := rfl
  have hperform : r.perform s = match (question s).map tell with
    | .ok a => EStateM.Result.ok a s
    | .error fault => .error fault s := by
    rw [hr]
    unfold Store.ask
    dsimp only
    cases question s <;> rfl
  rw [hrun, hasked]
  cases hquestion : question s with
  | ok b =>
    rw [hquestion] at hperform
    rw [EStateM.bind_of_ok hperform]
    exact ⟨rfl, rfl⟩
  | error fault =>
    rw [hquestion] at hperform
    rw [EStateM.bind_of_error hperform]
    exact ⟨rfl, rfl⟩

theorem claim (arity : Int) (condition : Option Int) :
    Realizes Eq (ProgramM.claim arity condition) (Workspace.claim arity condition) :=
  fun _ _ => ⟨rfl, rfl⟩

theorem recordSlot (key : SlotKey) (preimage : List Int) :
    Realizes Eq (ProgramM.recordSlot key preimage) (Workspace.recordSlot key preimage) :=
  fun _ _ => ⟨rfl, rfl⟩

theorem onCursor (change : SlotCursor → SlotCursor) :
    Realizes Eq (ProgramM.onCursor change) (Workspace.onCursor change) := fun _ _ => ⟨rfl, rfl⟩

theorem tagOf (value : Int) : Realizes Eq (ProgramM.tagOf value) (Workspace.tagOf value) := by
  intro notes s
  unfold ProgramM.tagOf Workspace.tagOf
  cases Tag.ofValue? value with
  | some tag => exact ⟨rfl, rfl⟩
  | none => exact ⟨rfl, rfl⟩

theorem hash (tag : Int) (children : List Pointer) (condition : Option Int) :
    Realizes Eq (ProgramM.hash tag children condition) (Workspace.hash tag children condition) := by
  refine (claim children.length condition).bind fun key key' hkey => ?_
  subst hkey
  cases key with
  | none => exact .pure rfl
  | some key =>
    refine (tagOf tag).bind fun tag tag' htag => ?_
    subst htag
    refine (perform (.node tag children) fun notes s => ?_).bind fun p p' hp => ?_
    · unfold Workspace.onStore Request.perform Notes.on
      dsimp only
      cases internNode tag children s <;> rfl
    subst hp
    exact (recordSlot key (nodePreimage p.tag children)).bind fun _ _ _ => .pure rfl

theorem unhash (p : Pointer) (arity : Int) (condition : Option Int) :
    Realizes Eq (ProgramM.unhash p arity condition) (Workspace.unhash p arity condition) := by
  refine (claim arity condition).bind fun key key' hkey => ?_
  subst hkey
  cases key with
  | none => exact .pure rfl
  | some key =>
    have hperform : (Request.children p (some arity)).perform =
        Store.ask fun s => (s.fetch p (some arity)).map id := by simp [Request.perform]
    refine (ask _ id hperform).bind fun children children' h => ?_
    obtain rfl : children = children' := h
    exact (recordSlot key (nodePreimage p.tag children)).bind fun _ _ _ => .pure rfl

theorem emit (p : Pointer) (condition : Option Int) :
    Realizes (fun _ _ => True) (ProgramM.emit p condition) (Workspace.emit p condition) := by
  unfold ProgramM.emit Workspace.emit
  split
  · have hreport : Realizes Eq (ProgramM.report p)
        (modify fun w => { w with emitted := p :: w.emitted }) := fun _ _ => ⟨rfl, rfl⟩
    refine hreport.bind fun _ _ _ => ?_
    exact (ask (.write p) (fun _ => ()) rfl).bind fun _ _ _ => .pure trivial
  · exact .pure trivial

theorem div (a b : Int) :
    Realizes Eq (ProgramM.ofExcept (ProgramM.div a b)) (Workspace.div a b) := by
  intro notes s
  unfold ProgramM.div Workspace.div
  split_ifs <;> exact ⟨rfl, rfl⟩

theorem divRem (a b : Int) (condition : Option Int) :
    Realizes Eq (ProgramM.ofExcept (ProgramM.divRem a b condition))
      (Workspace.divRem a b condition) := by
  intro notes s
  unfold ProgramM.divRem Workspace.divRem
  split_ifs <;> exact ⟨rfl, rfl⟩

end Realizes

theorem eq_of_rel_eq {α : Type} {a b : Option α} (h : Option.Rel Eq a b) : a = b := by
  cases h with
  | some h => rw [h]
  | none => rfl

/-- The two models do the same. -/
def asking : Simulation ProgramM ComputeM Int Int Pointer Pointer where
  elem := Eq
  pointer := Eq
  run := Realizes
  pure := .pure
  bind := .bind
  lit _ := rfl
  add := by
    rintro _ _ _ _ rfl rfl
    rfl
  sub := by
    rintro _ _ _ _ rfl rfl
    rfl
  ptr _ := rfl
  makePointer := by
    rintro a _ tag rfl
    refine (Realizes.tagOf _).bind fun tag tag' htag => ?_
    exact .pure (by rw [htag])
  payload := by
    rintro p _ rfl
    exact .ofExcept p.payload
  mul := by
    rintro _ _ _ _ rfl rfl
    exact .pure rfl
  div := by
    rintro a _ b _ rfl rfl
    exact (Realizes.div a b).mono fun x y h => ⟨congrArg Prod.fst h, congrArg Prod.snd h⟩
  isZero := by
    rintro _ _ rfl
    exact .pure rfl
  isNegative := by
    rintro _ _ rfl
    exact .pure rfl
  less := by
    rintro _ _ _ _ rfl rfl
    exact .pure rfl
  divRem := by
    rintro a _ b _ c d rfl rfl hcondition
    obtain rfl := eq_of_rel_eq hcondition
    exact (Realizes.divRem a b c).mono fun x y h => ⟨congrArg Prod.fst h, congrArg Prod.snd h⟩
  select := by
    rintro _ _ _ _ _ _ rfl rfl rfl
    exact .pure rfl
  selectPointer := by
    rintro _ _ _ _ _ _ rfl rfl rfl
    exact .pure rfl
  tagIs := by
    rintro _ _ _ rfl
    exact .pure rfl
  pointerEq := by
    rintro _ _ _ _ rfl rfl
    exact .pure rfl
  hash := by
    rintro tag _ ps qs c d rfl hchildren hcondition
    rw [List.forall₂_eq_eq_eq] at hchildren
    obtain rfl := hchildren
    obtain rfl := eq_of_rel_eq hcondition
    exact .hash tag ps c
  unhash := by
    rintro p _ arity c d rfl hcondition
    obtain rfl := eq_of_rel_eq hcondition
    rw [List.forall₂_eq_eq_eq]
    exact .unhash p arity c
  emit := by
    rintro p _ c d rfl hcondition
    obtain rfl := eq_of_rel_eq hcondition
    exact .emit p c

theorem eq_of_related {x y : Step Int Pointer} (h : Step.Related Eq Eq x y) : x = y := by
  cases x
  cases y
  obtain ⟨hexpr, henv, hcont, hret⟩ := h
  dsimp only at hexpr henv hcont hret
  rw [hexpr, henv, hcont, hret]

theorem eq_of_flagsRelated {κ : Type} {xs ys : List (κ × Int)} (h : FlagsRelated Eq xs ys) :
    xs = ys := by
  rw [← List.forall₂_eq_eq_eq]
  exact h.imp fun _ _ hxy => Prod.ext hxy.1 hxy.2

theorem realizes_evalPhase (config : Config) (state : State) :
    Realizes Eq (ProgramM.evalPhase config state) (Machine.evalPhase config state) := by
  refine (Realizes.onCursor _).bind fun _ _ _ => ?_
  have same (p : Pointer) : asking.pointer p p := rfl
  have hprelude := asking.evalPrelude (same state.expr) (same state.env) (same state.cont)
  refine Realizes.bind hprelude fun scope scope' hscope => ?_
  refine Realizes.bind (asking.evalGuards hscope) fun guards guards' hguards => ?_
  obtain rfl := eq_of_flagsRelated hguards
  refine (Realizes.ofExcept _).bind fun rule rule' hrule => ?_
  subst hrule
  refine (Realizes.onCursor _).bind fun _ _ _ => ?_
  refine Realizes.bind (asking.evalRun hscope config.lookupDepth rule) fun out out' hout => ?_
  obtain rfl := eq_of_related hout
  exact .pure rfl

theorem realizes_contPhase (mid : Step Int Pointer) :
    Realizes Eq (ProgramM.contPhase mid) (Machine.contPhase mid) := by
  refine (Realizes.onCursor _).bind fun _ _ _ => ?_
  refine Realizes.bind (asking.contPrelude (x := mid) ⟨rfl, rfl, rfl, rfl⟩) fun scope scope' hscope => ?_
  refine Realizes.bind (asking.contGuards hscope) fun guards guards' hguards => ?_
  obtain rfl := eq_of_flagsRelated hguards
  refine (Realizes.ofExcept _).bind fun rule rule' hrule => ?_
  subst hrule
  refine (Realizes.onCursor _).bind fun _ _ _ => ?_
  refine Realizes.bind (asking.contRun hscope rule) fun out out' hout => ?_
  obtain rfl := eq_of_related hout
  exact .pure rfl

theorem realizes_frame (config : Config) (state : State) :
    Realizes Eq (ProgramM.frame config state) (Machine.frame config state) := by
  refine (realizes_evalPhase config state).bind fun evaluated evaluated' h => ?_
  subst h
  obtain ⟨rule, mid⟩ := evaluated
  refine (realizes_contPhase mid).bind fun applied applied' h => ?_
  subst h
  exact fun notes s => ⟨rfl, rfl⟩

namespace Program

variable {config : Config}

theorem run_step (config : Config) (state : State) :
    (step config state).run = Machine.step config state := by
  funext s
  have h := realizes_frame config state ⟨.start, [], []⟩ s
  change Coincides Eq _ (Machine.frame config state (.ofStore s)) at h
  have hstep : (step config state).run =
      (ProgramM.frame config state ⟨.start, [], []⟩).run >>= fun r => pure r.1 := run_bind _ _
  rw [hstep]
  unfold Machine.step
  cases hprogram : (ProgramM.frame config state ⟨.start, [], []⟩).run s with
  | ok r t =>
    obtain ⟨F, notes⟩ := r
    rw [hprogram] at h
    rw [EStateM.bind_of_ok hprogram]
    cases hcomputed : Machine.frame config state (.ofStore s) with
    | ok F' w =>
      rw [hcomputed] at h
      obtain ⟨rfl, rfl⟩ := h
      rfl
    | error fault w =>
      rw [hcomputed] at h
      exact h.elim
  | error fault t =>
    rw [hprogram] at h
    rw [EStateM.bind_of_error hprogram]
    cases hcomputed : Machine.frame config state (.ofStore s) with
    | ok F' w =>
      rw [hcomputed] at h
      exact h.elim
    | error fault' w =>
      rw [hcomputed] at h
      obtain ⟨rfl, rfl⟩ := h
      rfl

theorem run_steps (config : Config) (cancelled : Bool) (budget : ℕ) (state : State)
    (taken : List Frame) : (steps config cancelled budget state taken).run =
      Machine.run config cancelled budget state taken := by
  induction budget generalizing state taken with
  | zero => rfl
  | succ budget ih =>
    unfold steps Machine.run
    cases Machine.stop? cancelled (budget + 1) state with
    | some reason => rfl
    | none =>
      dsimp only
      rw [run_bind, run_step]
      exact congrArg (Machine.step config state >>= ·) (funext fun F => ih F.output (F :: taken))

/-- A pointer that is there is handed on. -/
theorem run_require (p : Pointer) {α : Type} (next : Pointer → StoreM α) :
    ((request (.require p)).run >>= fun _ => next p) = internPointer p >>= next := by
  funext s
  rw [run_request]
  by_cases hp : s.contains p = true
  · have hrequire : (Request.require p).perform s = .ok () s := by
      simp only [Request.perform, Store.ask, if_pos hp]
    have hintern : internPointer p s = .ok p s := if_pos hp
    rw [EStateM.bind_of_ok hrequire, EStateM.bind_of_ok hintern]
  · have hrequire : (Request.require p).perform s = .error (Fault.dangling p).reported s := by
      simp only [Request.perform, Store.ask, if_neg hp]
    have hintern : internPointer p s = .error (Fault.dangling p).reported s := if_neg hp
    rw [EStateM.bind_of_error hrequire, EStateM.bind_of_error hintern]

theorem run_evaluateFrom (config : Config) (cancelled : Bool) (budget : ℕ) (initial : State) :
    (evaluateFrom config cancelled budget initial).run =
      Machine.run config cancelled budget initial [] >>= fun r => pure ⟨r.1, r.2, initial⟩ := by
  unfold evaluateFrom
  rw [run_bind, run_steps]
  rfl

theorem run_evaluate (config : Config) (maxSteps : Int) (cancelled : Bool) (expr : Pointer)
    (env : Option Pointer) : (evaluate config maxSteps cancelled expr env).run =
      Machine.evaluate config maxSteps cancelled expr env := by
  let conclude (expr env : Pointer) : StoreM Evaluation :=
    Machine.run config cancelled maxSteps.toNat (.initial expr env) [] >>= fun r =>
      pure ⟨r.1, r.2, .initial expr env⟩
  have hconclude (expr env : Pointer) :
      (evaluateFrom config cancelled maxSteps.toNat (.initial expr env)).run = conclude expr env :=
    run_evaluateFrom config cancelled maxSteps.toNat (.initial expr env)
  unfold Machine.evaluate
  by_cases hnegative : maxSteps < 0
  · rw [if_pos hnegative]
    cases env <;> exact congrArg run (if_pos hnegative)
  · rw [if_neg hnegative]
    cases env with
    | none =>
      rw [evaluate, if_neg hnegative, run_bind]
      simp only [hconclude]
      exact run_require expr fun expr => conclude expr .nil
    | some env =>
      rw [evaluate, if_neg hnegative, run_bind]
      simp only [run_bind, hconclude, run_require env fun env => conclude expr env]
      exact run_require expr fun expr => internPointer env >>= fun env => conclude expr env

end Program

end FieldLisp
