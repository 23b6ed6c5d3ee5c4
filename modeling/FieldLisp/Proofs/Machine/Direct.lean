import FieldLisp.Proofs.Machine.Faithful

/-!
# Evaluation by recursion

The value of an expression, computed by recursion on what the expression is made of: without steps,
continuations or thunks, and without forms that stand for what is left of another form.

* `EvalM`: computations on a store, which the first error ends;
* `Direct.run`: the evaluator; it gives nothing if its fuel does not suffice;
* `Direct.run_mono`, `Direct.run_unique`: more fuel leads to nothing else;
* `Direct.run_passes`: what has been inherited is passed on to the value.
-/

namespace FieldLisp

open Store

/-- A computation on a store: a result and the store that it leaves, or the code of an error, or, for
want of fuel, nothing. -/
def EvalM (α : Type) : Type := Store → Option (Except ErrorCode (α × Store))

namespace EvalM

variable {α β : Type}

/-- The second part goes on with the result and the store of the first one, if it has a result. -/
protected def bind (x : EvalM α) (f : α → EvalM β) : EvalM β := fun s =>
  match x s with
  | none => none
  | some (.error code) => some (.error code)
  | some (.ok (a, t)) => f a t

instance : Monad EvalM where
  pure a := fun s => some (.ok (a, s))
  bind := EvalM.bind

def exhausted : EvalM α := fun _ => none

def abort (code : ErrorCode) : EvalM α := fun _ => some (.error code)

def ask (question : Store → α) : EvalM α := fun s => some (.ok (question s, s))

/-- Aborts unless something is the case. -/
def require (code : ErrorCode) (p : Prop) [Decidable p] : EvalM Unit := if p then pure () else abort code

/-- Aborts unless there is something. -/
def demand (code : ErrorCode) : Option α → EvalM α
  | some a => pure a
  | none => abort code

/-- A value that is found or computed. -/
def compute (result : Store → Except ErrorCode Pointer × Store) : EvalM Pointer := fun s =>
  match (result s).1 with
  | .ok v => some (.ok (v, (result s).2))
  | .error code => some (.error code)

/-- Takes a node in. -/
def take (tag : Tag) (cs : List Pointer) : EvalM Pointer := fun s =>
  some (.ok (nodePointer tag cs, s.put tag cs))

variable {x : EvalM α} {f : α → EvalM β} {s t : Store} {a : α} {code : ErrorCode}

theorem bind_of_ok (h : x s = some (.ok (a, t))) : (x >>= f) s = f a t := by
  change EvalM.bind x f s = _
  rw [EvalM.bind, h]

theorem bind_of_error (h : x s = some (.error code)) : (x >>= f) s = some (.error code) := by
  change EvalM.bind x f s = _
  rw [EvalM.bind, h]

theorem bind_of_none (h : x s = none) : (x >>= f) s = none := by
  change EvalM.bind x f s = _
  rw [EvalM.bind, h]

/-- A sequence ends with the first error, or both parts succeed. -/
theorem bind_eq_some {r : Except ErrorCode (β × Store)} : (x >>= f) s = some r ↔
    (∃ code, x s = some (.error code) ∧ r = .error code) ∨
      ∃ a t, x s = some (.ok (a, t)) ∧ f a t = some r := by
  cases hx : x s with
  | none =>
    rw [bind_of_none hx]
    simp
  | some result =>
    cases result with
    | error code =>
      rw [bind_of_error hx]
      simp [eq_comm]
    | ok found =>
      obtain ⟨a, t⟩ := found
      rw [bind_of_ok hx]
      simp

theorem bind_eq_ok {b : β} {u : Store} : (x >>= f) s = some (.ok (b, u)) ↔
    ∃ a t, x s = some (.ok (a, t)) ∧ f a t = some (.ok (b, u)) := by
  rw [bind_eq_some]
  simp

theorem ask_bind (question : Store → α) : (ask question >>= f) s = f (question s) s := rfl

theorem take_bind (tag : Tag) (cs : List Pointer) {f : Pointer → EvalM β} :
    (take tag cs >>= f) s = f (nodePointer tag cs) (s.put tag cs) := rfl

theorem require_bind {p : Prop} [Decidable p] {f : Unit → EvalM β} :
    (require code p >>= f) s = if p then f () s else some (.error code) := by
  unfold require
  split <;> rfl

/-- A value that is found or computed, or the reason why there is none. -/
theorem compute_cases {result : Store → Except ErrorCode Pointer × Store}
    {r : Except ErrorCode (Pointer × Store)} (h : compute result s = some r) :
    (∃ v t, result s = (.ok v, t) ∧ r = .ok (v, t)) ∨
      ∃ code t, result s = (.error code, t) ∧ r = .error code := by
  unfold compute at h
  cases hresult : result s with
  | mk found t =>
    rw [hresult] at h
    cases found with
    | ok v =>
      cases h
      exact .inl ⟨v, t, rfl, rfl⟩
    | error code =>
      cases h
      exact .inr ⟨code, t, rfl, rfl⟩

theorem require_eq_ok {p : Prop} [Decidable p] {u : Unit} :
    require code p s = some (.ok (u, t)) ↔ p ∧ s = t := by
  unfold require
  split
  · rename_i hp
    change some (Except.ok ((), s)) = some (.ok (u, t)) ↔ _
    simp [hp]
  · rename_i hp
    change some (Except.error code) = some (.ok (u, t)) ↔ _
    simp [hp]

theorem demand_eq_ok {found : Option α} :
    demand code found s = some (.ok (a, t)) ↔ found = some a ∧ s = t := by
  cases found with
  | none =>
    change some (Except.error code) = some (.ok (a, t)) ↔ _
    simp
  | some b =>
    change some (Except.ok (b, s)) = some (.ok (a, t)) ↔ _
    simp

/-- Whatever the first computation comes to, the second one comes to as well. -/
def Below (x y : EvalM α) : Prop := ∀ s r, x s = some r → y s = some r

theorem Below.refl (x : EvalM α) : x.Below x := fun _ _ => id

theorem Below.bind {x' : EvalM α} {f' : α → EvalM β} (hx : x.Below x')
    (hf : ∀ a, (f a).Below (f' a)) : (x >>= f).Below (x' >>= f') := by
  intro s r h
  rcases bind_eq_some.1 h with ⟨code, hcode, rfl⟩ | ⟨a, t, ha, hr⟩
  · exact bind_of_error (hx _ _ hcode)
  · rw [bind_of_ok (hx _ _ ha)]
    exact hf a t r hr

end EvalM

/-! ## The evaluator -/

namespace Direct

open EvalM

/-- What is to be evaluated, and the environment for it. -/
inductive Task where
  | value (expr env : Pointer)
  /-- The bindings of a form, of which the first is given by its parts, and the body behind them. -/
  | bind (recursive : Bool) (var init : Pointer) (more : Option Pointer) (body env : Pointer)
  /-- The arguments that a value is applied to, of which the first is given by itself. -/
  | call (function first others env : Pointer)
  deriving DecidableEq, Repr, Inhabited

/-- The closure of parameters and a body. It takes the first parameter; its body takes the others. -/
def close (parameter : Pointer) (more : Option Pointer) (body env : Pointer) (s : Store) :
    Except ErrorCode Pointer × Store :=
  let parts := [parameter, nested .lambda more body, env]
  (.ok (nodePointer .function parts), (s.putNested .lambda more body).put .function parts)

section
variable (depth : ℕ) (again : Task → EvalM Pointer)

/-- The value of an expression, by what it is; `depth` bounds the lookup of a symbol. -/
def expression (expr env : Pointer) : Expression → EvalM Pointer
  | .value v => pure v
  | .variable => compute (·.lookup depth expr env)
  | .lambda parameter more body => compute (close parameter more body env)
  | .cond test first second => do
    let v ← again (.value test env)
    again (.value (if v.tag = .nil then second else first) env)
  | .body body => again (.value body env)
  | .bind recursive var init more body => again (.bind recursive var init more body env)
  | .unary op operand => do
    let v ← again (.value operand env)
    compute (·.unaryValue op v)
  | .binary op first second => do
    let a ← again (.value first env)
    let b ← again (.value second env)
    compute (·.binaryValue op a b)
  | .call0 head => do
    let function ← again (.value head env)
    require .notAFunction (function.tag = .function)
    let part ← ask (·.part function)
    require .argumentError (part 0 = Builtin.noParameterPointer)
    again (.value (part 1) (part 2))
  | .call head first others => do
    let function ← again (.value head env)
    again (.call function first others env)
  | .malformed => abort .invalidForm
  | .foreign => abort .invalidExpression

/-- Binds one value, and goes on with the other bindings or with the body. -/
def bindings (recursive : Bool) (var init : Pointer) (more : Option Pointer) (body env : Pointer) :
    EvalM Pointer := do
  let v ← again (.value init env)
  let inner ← take (bindEnv recursive) [var, v, env]
  match more with
  | none => again (.value body inner)
  | some list => do
    let found ← ask (·.binding? list)
    let next ← demand .invalidForm found
    again (.bind recursive next.1 next.2.1 next.2.2 body inner)

/-- Applies a function to one value, and what comes of it to the other arguments, if there are any. -/
def applied (function v env : Pointer) (more : Option Pointer) : EvalM Pointer := do
  let part ← ask (·.part function)
  require .argumentError (part 0 ≠ Builtin.noParameterPointer)
  let inner ← take .env [part 0, v, part 2]
  match more with
  | none => again (.value (part 1) inner)
  | some list => do
    let result ← again (.value (part 1) inner)
    let rest ← ask fun s => (s.car list, s.cdr list)
    again (.call result rest.1 rest.2 env)

/-- Evaluates an argument of a function and applies the function to it. -/
def arguments (function first others env : Pointer) : EvalM Pointer := do
  require .notAFunction (function.tag = .function)
  let v ← again (.value first env)
  let more ← demand .argumentError (rest? others)
  applied again function v env more

/-- Evaluates what is to be evaluated, if `again` does so with what it is made of. -/
def task : Task → EvalM Pointer
  | .value expr env => fun s => expression depth again expr env (s.expression expr) s
  | .bind recursive var init more body env => bindings again recursive var init more body env
  | .call function first others env => arguments again function first others env

end

/-- Evaluates by recursion. -/
def run (depth : ℕ) : ℕ → Task → EvalM Pointer
  | 0, _ => exhausted
  | fuel + 1, job => task depth (run depth fuel) job

variable {depth fuel : ℕ} {job : Task} {s t : Store}

/-- What is no function is not applied to anything. -/
theorem run_refuses {function first others env : Pointer} {r : Except ErrorCode (Pointer × Store)}
    (htag : function.tag ≠ .function)
    (hr : run depth fuel (.call function first others env) s = some r) : r = .error .notAFunction := by
  cases fuel with
  | zero => cases hr
  | succ fuel =>
    change arguments (run depth fuel) function first others env s = some r at hr
    unfold arguments at hr
    rw [require_bind, if_neg htag] at hr
    cases hr
    rfl

/-! ## Fuel -/

theorem expression_below {x y : Task → EvalM Pointer} (h : ∀ job, (x job).Below (y job))
    (expr env : Pointer) (e : Expression) :
    (expression depth x expr env e).Below (expression depth y expr env e) := by
  cases e with
  | cond | call => exact .bind (h _) fun _ => h _
  | unary => exact .bind (h _) fun _ => .refl _
  | binary => exact .bind (h _) fun _ => .bind (h _) fun _ => .refl _
  | call0 =>
    exact .bind (h _) fun _ => .bind (.refl _) fun _ => .bind (.refl _) fun _ =>
      .bind (.refl _) fun _ => h _
  | body | bind => exact h _
  | _ => exact .refl _

theorem applied_below {x y : Task → EvalM Pointer} (h : ∀ job, (x job).Below (y job))
    (function v env : Pointer) (more : Option Pointer) :
    (applied x function v env more).Below (applied y function v env more) := by
  refine .bind (.refl _) fun part => .bind (.refl _) fun _ => .bind (.refl _) fun inner => ?_
  cases more with
  | none => exact h _
  | some list => exact .bind (h _) fun _ => .bind (.refl _) fun _ => h _

theorem task_below {x y : Task → EvalM Pointer} (h : ∀ job, (x job).Below (y job)) (job : Task) :
    (task depth x job).Below (task depth y job) := by
  cases job with
  | value expr env => exact fun s => expression_below h expr env (s.expression expr) s
  | bind recursive var init more body env =>
    refine .bind (h _) fun v => .bind (.refl _) fun inner => ?_
    cases more with
    | none => exact h _
    | some list => exact .bind (.refl _) fun _ => .bind (.refl _) fun _ => h _
  | call function first others env =>
    exact .bind (.refl _) fun _ => .bind (h _) fun v => .bind (.refl _) fun more =>
      applied_below h function v env more

theorem run_below (depth fuel : ℕ) (job : Task) :
    (run depth fuel job).Below (run depth (fuel + 1) job) := by
  induction fuel generalizing job with
  | zero =>
    intro s r h
    cases h
  | succ fuel ih => exact task_below ih job

/-- More fuel leads to nothing else. -/
theorem run_mono {more : ℕ} (hmore : fuel ≤ more) : (run depth fuel job).Below (run depth more job) := by
  induction hmore with
  | refl => exact .refl _
  | step _ ih => exact fun s r h => run_below depth _ job s r (ih s r h)

/-- A task comes to one thing, with whatever fuel. -/
theorem run_unique {fuel' : ℕ} {r r' : Except ErrorCode (Pointer × Store)}
    (h : run depth fuel job s = some r) (h' : run depth fuel' job s = some r') : r = r' := by
  rcases Nat.le_total fuel fuel' with hle | hle
  · exact Option.some.inj ((run_mono hle s r h).symm.trans h')
  · exact Option.some.inj (h.symm.trans (run_mono hle s r' h'))

/-! ## What is inherited -/

def Task.pointers : Task → List Pointer
  | .value expr env => [expr, env]
  | .bind _ var init more body env => var :: init :: body :: env :: more.toList
  | .call function first others env => [function, first, others, env]

/-- All pointers of the job have what is inherited. -/
def Task.Of (P : Store → Pointer → Prop) (s : Store) (job : Task) : Prop := ∀ p ∈ job.pointers, P s p

/-- A computation leaves a larger store, and a value that has what is inherited. -/
def Passes (P : Store → Pointer → Prop) (s : Store) (x : EvalM Pointer) : Prop :=
  ∀ v t, x s = some (.ok (v, t)) → s.Grows t ∧ P t v

namespace Passes

variable {P : Store → Pointer → Prop} {α : Type} {code : ErrorCode}

theorem bind {x : EvalM Pointer} {f : Pointer → EvalM Pointer} (hx : Passes P s x)
    (hf : ∀ v t, s.Grows t → P t v → Passes P t (f v)) : Passes P s (x >>= f) := by
  intro w u h
  obtain ⟨v, t, hv, hw⟩ := bind_eq_ok.1 h
  obtain ⟨hgrows, hvalue⟩ := hx v t hv
  obtain ⟨hgrows', hresult⟩ := hf v t hgrows hvalue w u hw
  exact ⟨hgrows.trans hgrows', hresult⟩

theorem ask {question : Store → α} {f : α → EvalM Pointer} (h : Passes P s (f (question s))) :
    Passes P s (EvalM.ask question >>= f) := h

theorem require {p : Prop} [Decidable p] {f : Unit → EvalM Pointer} (h : p → Passes P s (f ())) :
    Passes P s (EvalM.require code p >>= f) := by
  intro v t hv
  obtain ⟨_, _, hrequire, hf⟩ := bind_eq_ok.1 hv
  obtain ⟨hp, rfl⟩ := require_eq_ok.1 hrequire
  exact h hp v t hf

theorem demand {found : Option α} {f : α → EvalM Pointer} (h : ∀ a, found = some a → Passes P s (f a)) :
    Passes P s (EvalM.demand code found >>= f) := by
  intro v t hv
  obtain ⟨a, _, hdemand, hf⟩ := bind_eq_ok.1 hv
  obtain ⟨ha, rfl⟩ := demand_eq_ok.1 hdemand
  exact h a ha v t hf

theorem take (hP : Inherited P) {tag : Tag} {cs : List Pointer} {f : Pointer → EvalM Pointer}
    (hs : s.Sound) (htag : tag.arity? = some cs.length) (hcs : ∀ c ∈ cs, P s c)
    (hf : s.Grows (s.put tag cs) → P (s.put tag cs) (nodePointer tag cs) →
      Passes P (s.put tag cs) (f (nodePointer tag cs))) : Passes P s (EvalM.take tag cs >>= f) := by
  obtain ⟨hgrows, hnode⟩ := hP.grows_put hs htag hcs
  intro v t h
  obtain ⟨hgrows', hv⟩ := hf hgrows hnode v t h
  exact ⟨hgrows.trans hgrows', hv⟩

theorem abort : Passes P s (EvalM.abort code) := fun v t h => by cases h

theorem compute {result : Store → Except ErrorCode Pointer × Store} (h : Finds P s (result s)) :
    Passes P s (EvalM.compute result) := by
  intro v t hv
  rcases compute_cases hv with ⟨v', t', hfound, hsame⟩ | ⟨code, t', -, hsame⟩
  · cases hsame
    rw [hfound] at h
    exact ⟨h.1, h.2 v rfl⟩
  · cases hsame

end Passes

section
variable {P : Store → Pointer → Prop} (hP : Inherited P)
include hP

theorem finds_close (hs : s.Sound) {parameter body env : Pointer} {more : Option Pointer}
    (hparameter : P s parameter) (hmore : ∀ p ∈ more, P s p) (hbody : P s body) (henv : P s env) :
    Finds P s (close parameter more body env s) := by
  obtain ⟨hgrows, hnested⟩ := hP.grows_putNested hs .lambda hmore hbody
  have hchildren : ∀ c ∈ [parameter, nested .lambda more body, env],
      P (s.putNested .lambda more body) c := by
    simp [hP.mono hgrows hparameter, hnested, hP.mono hgrows henv]
  have harity : Tag.function.arity? = some [parameter, nested .lambda more body, env].length := rfl
  have hfinds := finds_put hP hgrows.sound harity hchildren
  exact ⟨hgrows.trans hfinds.1, hfinds.2⟩

variable {again : Task → EvalM Pointer}
  (hagain : ∀ {job s}, s.Sound → Task.Of P s job → Passes P s (again job))
include hagain

theorem expression_passes (hs : s.Sound) {expr env : Pointer} (hexpr : P s expr) (henv : P s env) :
    Passes P s (expression depth again expr env (s.expression expr)) := by
  have hparts := hP.expression hs hexpr
  have again_value {s : Store} {e env : Pointer} (hs : s.Sound) (he : P s e) (henv : P s env) :
      Passes P s (again (.value e env)) := hagain hs (by simp [Task.Of, Task.pointers, he, henv])
  cases hexpression : s.expression expr <;>
    simp only [hexpression, Expression.pointers, List.forall_mem_cons, Option.mem_toList,
      List.not_mem_nil, false_imp_iff, implies_true, and_true] at hparts
  case value v => exact .compute (finds_ok hs hparts)
  case «variable» => exact .compute (finds_lookup hP hs depth expr henv)
  case lambda parameter more body =>
    exact .compute (finds_close hP hs hparts.1 hparts.2.2 hparts.2.1 henv)
  case cond test first second =>
    apply Passes.bind (again_value hs hparts.1 henv)
    intro v t hgrows _
    have hbranch : P t (if v.tag = .nil then second else first) := by
      split
      · exact hP.mono hgrows hparts.2.2
      · exact hP.mono hgrows hparts.2.1
    exact again_value hgrows.sound hbranch (hP.mono hgrows henv)
  case body body => exact again_value hs hparts henv
  case bind recursive var init more body =>
    obtain ⟨hvar, hinit, hbody, hmore⟩ := hparts
    exact hagain hs (by simpa [Task.Of, Task.pointers, hvar, hinit, hbody, henv] using hmore)
  case unary op operand =>
    apply Passes.bind (again_value hs hparts henv)
    intro v t hgrows hv
    have hfinds := finds_unary hP hgrows.sound (Form.unary op).symbol hv
    rw [applyUnary, unaryOf?_symbol] at hfinds
    exact .compute hfinds
  case binary op first second =>
    apply Passes.bind (again_value hs hparts.1 henv)
    intro a t hgrows ha
    apply Passes.bind (again_value hgrows.sound (hP.mono hgrows hparts.2) (hP.mono hgrows henv))
    intro b u hgrows' hb
    have hfinds := finds_binary hP hgrows'.sound (Form.binary op).symbol (hP.mono hgrows' ha) hb
    rw [applyBinary, binaryOf?_symbol] at hfinds
    exact .compute hfinds
  case call0 head =>
    apply Passes.bind (again_value hs hparts henv)
    intro function t hgrows hfunction
    apply Passes.require
    intro htag
    have hpart := hP.part hgrows.sound (by rw [htag]; rfl) hfunction
    exact .ask (.require fun _ => again_value hgrows.sound (hpart 1) (hpart 2))
  case call head first others =>
    apply Passes.bind (again_value hs hparts.1 henv)
    intro function t hgrows hfunction
    have hfirst := hP.mono hgrows hparts.2.1
    have hothers := hP.mono hgrows hparts.2.2
    exact hagain hgrows.sound
      (by simp [Task.Of, Task.pointers, hfunction, hfirst, hothers, hP.mono hgrows henv])
  case malformed => exact .abort
  case «foreign» => exact .abort

theorem bindings_passes (hs : s.Sound) {recursive : Bool} {var init body env : Pointer}
    {more : Option Pointer} (hvar : P s var) (hinit : P s init) (hmore : ∀ p ∈ more, P s p)
    (hbody : P s body) (henv : P s env) :
    Passes P s (bindings again recursive var init more body env) := by
  apply Passes.bind (hagain hs (by simp [Task.Of, Task.pointers, hinit, henv]))
  intro v t hgrows hv
  have harity : (bindEnv recursive).arity? = some [var, v, env].length := by cases recursive <;> rfl
  apply Passes.take hP hgrows.sound harity
  · simp [hP.mono hgrows hvar, hv, hP.mono hgrows henv]
  intro hgrows' hinner
  have hall := hgrows.trans hgrows'
  have hbody' := hP.mono hall hbody
  cases more with
  | none => exact hagain hgrows'.sound (by simp [Task.Of, Task.pointers, hbody', hinner])
  | some list =>
    refine .ask (.demand fun next hnext => ?_)
    obtain ⟨var', init', more'⟩ := next
    have hlist := hP.mono hall (hmore list rfl)
    have hpairs : Hereditary _ (P _) := ⟨hP.car hgrows'.sound, hP.cdr hgrows'.sound⟩
    obtain ⟨hvar', hinit', hmore'⟩ := hpairs.binding? hnext hlist
    exact hagain hgrows'.sound
      (by simpa [Task.Of, Task.pointers, hvar', hinit', hbody', hinner] using hmore')

theorem applied_passes (hs : s.Sound) {function v env : Pointer} {more : Option Pointer}
    (htag : function.tag = .function) (hfunction : P s function) (hv : P s v) (henv : P s env)
    (hmore : ∀ p ∈ more, P s p) : Passes P s (applied again function v env more) := by
  have hpart := hP.part hs (by rw [htag]; rfl) hfunction
  refine .ask (.require fun _ => ?_)
  apply Passes.take hP hs rfl
  · simp [hpart, hv]
  intro hgrows hinner
  have hbody := hP.mono hgrows (hpart 1)
  cases more with
  | none => exact hagain hgrows.sound (by simp [Task.Of, Task.pointers, hbody, hinner])
  | some list =>
    have hlist := hP.mono hgrows (hmore list rfl)
    apply Passes.bind (hagain hgrows.sound (by simp [Task.Of, Task.pointers, hbody, hinner]))
    intro result u hgrows' hresult
    have hlist' := hP.mono hgrows' hlist
    have henv' := hP.mono (hgrows.trans hgrows') henv
    exact .ask (hagain hgrows'.sound (by
      simp [Task.Of, Task.pointers, hresult, hP.car hgrows'.sound hlist', hP.cdr hgrows'.sound hlist',
        henv']))

theorem arguments_passes (hs : s.Sound) {function first others env : Pointer}
    (hfunction : P s function) (hfirst : P s first) (hothers : P s others) (henv : P s env) :
    Passes P s (arguments again function first others env) := by
  apply Passes.require
  intro htag
  apply Passes.bind (hagain hs (by simp [Task.Of, Task.pointers, hfirst, henv]))
  intro v t hgrows hv
  apply Passes.demand
  intro more hmore
  exact applied_passes hP hagain hgrows.sound htag (hP.mono hgrows hfunction) hv (hP.mono hgrows henv)
    fun p hp => hP.mono hgrows (Hereditary.rest? hmore hothers p hp)

end

/-- What has been inherited is passed on to the value. -/
theorem run_passes {P : Store → Pointer → Prop} (hP : Inherited P) (hs : s.Sound) (hjob : job.Of P s) :
    Passes P s (run depth fuel job) := by
  induction fuel generalizing job s with
  | zero =>
    intro v t h
    cases h
  | succ fuel ih =>
    cases job with
    | value expr env =>
      exact expression_passes hP (fun hs hjob => ih hs hjob) hs (hjob expr (by simp [Task.pointers]))
        (hjob env (by simp [Task.pointers]))
    | bind recursive var init more body env =>
      simp only [Task.Of, Task.pointers, List.forall_mem_cons, Option.mem_toList] at hjob
      obtain ⟨hvar, hinit, hbody, henv, hmore⟩ := hjob
      exact bindings_passes hP (fun hs hjob => ih hs hjob) hs hvar hinit hmore hbody henv
    | call function first others env =>
      simp only [Task.Of, Task.pointers, List.forall_mem_cons, List.not_mem_nil, false_imp_iff,
        implies_true, and_true] at hjob
      obtain ⟨hfunction, hfirst, hothers, henv⟩ := hjob
      exact arguments_passes hP (fun hs hjob => ih hs hjob) hs hfunction hfirst hothers henv

end Direct

end FieldLisp
