import FieldLisp.Proofs.Machine.Computing

/-!
# Turns

Neither phase looks below the top of the continuation. What a phase decides is said here without what is
below, so that the same decision can be followed on top of any continuation:

* `Waiting`: a node in which a computation waits for a value, without the continuation below it;
* `Turn`: how the machine goes on, whatever is below;
* `EvalPhase.look`, `ContPhase.turn`: what the phases decide;
* `EvalPhase.evaluate_eq`, `ContPhase.resume_eq`: the phases follow these decisions.
-/

namespace FieldLisp

/-- A node in which a computation waits for a value, without the continuation that is its last child. -/
structure Waiting where
  tag : Tag
  arity : tag.arity? = some 4
  first : Pointer
  second : Pointer
  third : Pointer

namespace Waiting

def children (w : Waiting) (cont : Pointer) : List Pointer := [w.first, w.second, w.third, cont]

/-- The node on top of a continuation. -/
def onto (w : Waiting) (cont : Pointer) : Pointer := Store.nodePointer w.tag (w.children cont)

/-- The value that is reported when this one is handed to the node, if it is. -/
def report? (w : Waiting) (v : Pointer) : Option Pointer :=
  if w.tag = .unary ∧ unaryOf? w.first = some .emit then some v else none

/-- Only the operators of one operand report. -/
theorem silent {w : Waiting} (h : w.tag ≠ .unary) (v : Pointer) : w.report? v = none :=
  if_neg fun hreports => h hreports.1

end Waiting

namespace Tag

theorem arity_call0 : Tag.call0.arity? = some 4 := rfl

theorem arity_call : Tag.call.arity? = some 4 := rfl

theorem arity_call2 : Tag.call2.arity? = some 4 := rfl

theorem arity_branch : Tag.branch.arity? = some 4 := rfl

theorem arity_binary : Tag.binary.arity? = some 4 := rfl

theorem arity_binary2 : Tag.binary2.arity? = some 4 := rfl

end Tag

/-- The top of a continuation. -/
def Store.waiting (s : Store) (cont : Pointer) (arity : cont.tag.arity? = some 4) : Waiting :=
  ⟨cont.tag, arity, s.part cont 0, s.part cont 1, s.part cont 2⟩

/-- How the machine goes on, whatever the continuation is. -/
inductive Turn where
  /-- It stops with an error value. -/
  | stop (env : Pointer) (code : ErrorCode)
  /-- It goes on to an expression. -/
  | enter (expr env : Pointer)
  /-- It goes on to an expression, and the continuation waits for its value. -/
  | wait (expr env : Pointer) (w : Waiting)

namespace Turn

/-- The state that follows. -/
def state (cont : Pointer) : Turn → State
  | stop env code => .fail env code
  | enter expr env => ⟨expr, env, cont⟩
  | wait expr env w => ⟨expr, env, w.onto cont⟩

/-- The store that follows. -/
def store (cont : Pointer) (s : Store) : Turn → Store
  | wait _ _ w => s.put w.tag (w.children cont)
  | _ => s

/-- What a turn goes on to, apart from the continuation. -/
def pointers : Turn → List Pointer
  | stop env _ => [env]
  | enter expr env => [expr, env]
  | wait expr env w => [expr, env, w.first, w.second, w.third]

end Turn

/-- What the evaluation phase decides: the expression has a value, or the machine goes on. -/
inductive Look where
  | value (v : Pointer)
  | turn (turn : Turn)

namespace Look

def outcome (env cont : Pointer) : Look → Outcome
  | value v => ⟨⟨v, env, cont⟩, true⟩
  | turn t => ⟨t.state cont, false⟩

def store (cont : Pointer) (s : Store) : Look → Store
  | value _ => s
  | turn t => t.store cont s

def pointers : Look → List Pointer
  | value v => [v]
  | turn t => t.pointers

end Look

variable {s : Store} {expr env cont v : Pointer}

namespace EvalPhase

/-- A value, or that there is none. -/
def found (env : Pointer) : Except ErrorCode Pointer → Look
  | .ok v => .value v
  | .error code => .turn (.stop env code)

/-- What the evaluation phase decides, and the store with what this takes in. -/
def look (depth : ℕ) (expr env : Pointer) (s : Store) : Look × Store :=
  match s.expression expr with
  | .value v => (.value v, s)
  | .variable => (found env (s.lookup depth expr env).1, (s.lookup depth expr env).2)
  | .lambda parameter more body =>
    let function := [parameter, nested .lambda more body, env]
    (.value (Store.nodePointer .function function),
      (s.putNested .lambda more body).put .function function)
  | .cond test first second => (.turn (.wait test env ⟨.branch, rfl, first, second, env⟩), s)
  | .body body => (.turn (.enter body env), s)
  | .bind recursive var init more body =>
    let form := bindForm recursive
    (.turn (.wait init env ⟨bindTag recursive, by cases recursive <;> rfl, var, nested form more body, env⟩),
      s.putNested form more body)
  | .unary op operand => (.turn (.wait operand env ⟨.unary, rfl, (Form.unary op).symbol, .nil, .nil⟩), s)
  | .binary op first second =>
    (.turn (.wait first env ⟨.binary, rfl, (Form.binary op).symbol, second, env⟩), s)
  | .call0 head => (.turn (.wait head env ⟨.call0, rfl, env, .nil, .nil⟩), s)
  | .call head first others => (.turn (.wait head env ⟨.call, rfl, first, others, env⟩), s)
  | .malformed => (.turn (.stop env .invalidForm), s)
  | .foreign => (.turn (.stop env .invalidExpression), s)

/-- The evaluation phase follows what it decides without the continuation. -/
theorem evaluate_eq (depth : ℕ) (expr env cont : Pointer) (s : Store) :
    evaluate depth ⟨expr, env, cont⟩ s =
      ((look depth expr env s).1.outcome env cont,
        (look depth expr env s).1.store cont (look depth expr env s).2) := by
  simp only [evaluate, look]
  cases s.expression expr with
  | «variable» =>
    dsimp only
    obtain ⟨result, t⟩ := s.lookup depth expr env
    cases result <;> rfl
  | _ => rfl

end EvalPhase

namespace ContPhase

/-- Hands a value on in a thunk, or stops for want of one. -/
def delivery (env : Pointer) : Except ErrorCode Pointer × Store → Turn × Store
  | (.ok v, s) => (.enter (Store.nodePointer .thunk [v, .nil]) env, s.put .thunk [v, .nil])
  | (.error code, s) => (.stop env code, s)

/-- A function takes its argument. -/
def entry (s : Store) (function v caller env : Pointer) (more : Option Pointer) : Turn × Store :=
  if function.tag = .function then
    if s.part function 0 = Builtin.noParameterPointer then (.stop env .argumentError, s)
    else
      let bound := [s.part function 0, v, s.part function 2]
      (match more with
        | none => .enter (s.part function 1) (Store.nodePointer .env bound)
        | some rest => .wait (s.part function 1) (Store.nodePointer .env bound)
            ⟨.call, rfl, s.part rest 0, s.part rest 1, caller⟩,
        s.put .env bound)
  else (.stop env .notAFunction, s)

/-- What the continuation phase decides, and the store with what this takes in. -/
def turn (w : Waiting) (v env : Pointer) (s : Store) : Turn × Store :=
  match w.tag with
  | .call0 =>
    if v.tag = .function then
      if s.part v 0 = Builtin.noParameterPointer then (.enter (s.part v 1) (s.part v 2), s)
      else (.stop env .argumentError, s)
    else (.stop env .notAFunction, s)
  | .call =>
    if v.tag = .function then (.wait w.first w.third ⟨.call2, rfl, v, w.second, w.third⟩, s)
    else (.stop env .notAFunction, s)
  | .call2 =>
    match Store.rest? w.second with
    | some more => entry s w.first v w.third env more
    | none => (.stop env (if w.first.tag = .function then .argumentError else .notAFunction), s)
  | .bindLet =>
    let bound := [w.first, v, w.third]
    (.enter w.second (Store.nodePointer .env bound), s.put .env bound)
  | .bindRec =>
    let bound := [w.first, v, w.third]
    (.enter w.second (Store.nodePointer .recEnv bound), s.put .recEnv bound)
  | .branch => (.enter (if v.tag = .nil then w.second else w.first) w.third, s)
  | .unary => delivery env (s.applyUnary w.first v)
  | .binary => (.wait w.second w.third ⟨.binary2, rfl, w.first, v, .nil⟩, s)
  | .binary2 => delivery env (s.applyBinary w.first w.second v)
  | _ => (.stop env .invalidContinuation, s)

theorem handOn_eq (env cont : Pointer) (result : Except ErrorCode Pointer × Store) :
    handOn env cont result =
      ((delivery env result).1.state cont, (delivery env result).1.store cont (delivery env result).2) := by
  obtain ⟨found, t⟩ := result
  cases found <;> rfl

theorem enter_eq (s : Store) (function v caller cont env : Pointer) (more : Option Pointer) :
    enter s function v caller cont env more = ((entry s function v caller env more).1.state cont,
      (entry s function v caller env more).1.store cont (entry s function v caller env more).2) := by
  unfold enter entry
  split
  · split
    · rfl
    · cases more <;> rfl
  · rfl

/-- The continuation phase follows what it decides without what is below the top. -/
theorem resume_eq (h : cont.tag.arity? = some 4) :
    resume ⟨v, env, cont⟩ s = ((turn (s.waiting cont h) v env s).1.state (s.part cont 3),
      (turn (s.waiting cont h) v env s).1.store (s.part cont 3) (turn (s.waiting cont h) v env s).2) := by
  cases htag : cont.tag <;> simp only [htag, Tag.arity?, reduceCtorEq, Option.some.injEq] at h <;>
    simp only [resume, turn, Store.waiting, htag]
  case call0 =>
    split
    · split <;> rfl
    · rfl
  case call => split <;> rfl
  case call2 =>
    cases Store.rest? (s.part cont 1) with
    | none => rfl
    | some more => exact enter_eq s _ v _ _ env more
  case bindLet | bindRec | branch | binary => rfl
  case unary | binary2 => exact handOn_eq env _ _
  all_goals omega

end ContPhase

/-! ## The top of a continuation -/

/-- A node that is found is the top of the continuation that it was put on. -/
theorem Store.waiting_onto {w : Waiting} (h : s.nodes[w.onto cont]? = some (w.children cont)) :
    s.waiting (w.onto cont) w.arity = w ∧ s.part (w.onto cont) 3 = cont := by
  have hpart := Store.part_of_node h
  constructor
  · unfold waiting
    rw [hpart, hpart, hpart]
    rfl
  · rw [hpart]
    rfl

end FieldLisp
