import FieldLisp.Proofs.Machine.ContOutcome

/-!
# What a step makes of a state

The rules compute all their cases and select. Here the same is said by cases, as a function of the
state and the store that goes on to the next state and the next store:

* `Store.expression`: what an expression is, as far as one step looks into it;
* `Store.lookup`, `Store.applyUnary`, `Store.applyBinary`: the value that is found or computed;
* `EvalPhase.reduct`, `ContPhase.reduct`: what the two phases make of a state.
-/

namespace FieldLisp

namespace Store

/-! ## Nodes -/

/-- The children of a node; none if it is not there. -/
def children (s : Store) (p : Pointer) : List Pointer := s.nodes.getD p []

/-- A child of a node. -/
def part (s : Store) (p : Pointer) (i : ℕ) : Pointer := (s.children p).getD i .nil

/-- The first part of a pair, nil of anything else. -/
def car (s : Store) (p : Pointer) : Pointer := if p.tag = .cons then s.part p 0 else .nil

/-- The second part of a pair, nil of anything else. -/
def cdr (s : Store) (p : Pointer) : Pointer := if p.tag = .cons then s.part p 1 else .nil

/-- The store with a node taken in. -/
def put (tag : Tag) (cs : List Pointer) (s : Store) : Store := after (internNode tag cs) s

/-- The pointer of a proper list. -/
def listPointer : List Pointer → Pointer
  | [] => .nil
  | p :: ps => nodePointer .cons [p, listPointer ps]

/-- The store with a proper list taken in, from its end. -/
def putList : List Pointer → Store → Store
  | [], s => s
  | p :: ps, s => (putList ps s).put .cons [p, listPointer ps]

/-- The items of a proper list of a given length. -/
def items (s : Store) : ℕ → Pointer → Option (List Pointer)
  | 0, p => if p.tag = .nil then some [] else none
  | n + 1, p => if p.tag = .cons then (s.items n (s.cdr p)).map (s.car p :: ·) else none

/-- What is left of a list, if anything is, where a list can go on. -/
def rest? (p : Pointer) : Option (Option Pointer) :=
  if p.tag = .cons then some (some p) else if p.tag = .nil then some none else none

end Store

/-! ## Expressions -/

/-- What an expression is, as far as one step looks into it. Where it is the first of several
parameters or bindings, the list of the others comes with it. -/
inductive Expression where
  /-- Its value is known. -/
  | value (v : Pointer)
  | variable
  | lambda (parameter : Pointer) (more : Option Pointer) (body : Pointer)
  | cond (test first second : Pointer)
  /-- A form without bindings. -/
  | body (body : Pointer)
  | bind (recursive : Bool) (var init : Pointer) (more : Option Pointer) (body : Pointer)
  | unary (op : UnaryOp) (operand : Pointer)
  | binary (op : BinaryOp) (first second : Pointer)
  | call0 (head : Pointer)
  | call (head first others : Pointer)
  /-- It breaks the grammar of its form. -/
  | malformed
  /-- It is no expression. -/
  | foreign
  deriving DecidableEq, Repr, Inhabited

/-- The form of a kind of bindings. -/
def bindForm (recursive : Bool) : Form := if recursive then .bindRec else .bindLet

/-- The continuation of a kind of bindings. -/
def bindTag (recursive : Bool) : Tag := if recursive then .bindRec else .bindLet

/-- The environments that a kind of bindings makes. -/
def bindEnv (recursive : Bool) : Tag := if recursive then .recEnv else .env

/-- What the rest of a form with several parameters or bindings becomes: a form of the others. -/
def nested (form : Form) (more : Option Pointer) (body : Pointer) : Pointer :=
  match more with
  | none => body
  | some rest => Store.listPointer [form.symbol, rest, body]

namespace Store

/-- The store with the rest of a form taken in. -/
def putNested (form : Form) (more : Option Pointer) (body : Pointer) (s : Store) : Store :=
  match more with
  | none => s
  | some rest => s.putList [form.symbol, rest, body]

/-- The first parameter of a list of them, and the others. -/
def parameters? (s : Store) (list : Pointer) : Option (Pointer × Option Pointer) :=
  if list.tag = .nil then some (Builtin.noParameterPointer, none)
  else if list.tag = .cons ∧ (s.car list).tag = .symbol then
    (rest? (s.cdr list)).map fun more => (s.car list, more)
  else none

/-- The first binding of a list of them, and the others. -/
def binding? (s : Store) (list : Pointer) : Option (Pointer × Pointer × Option Pointer) :=
  if list.tag = .cons then
    match s.items 2 (s.car list) with
    | some [var, init] =>
      if var.tag = .symbol then (rest? (s.cdr list)).map fun more => (var, init, more) else none
    | _ => none
  else none

/-- A form of bindings and a body. -/
def bindExpression (s : Store) (recursive : Bool) (arguments : Pointer) : Expression :=
  match s.items 2 arguments with
  | some [list, body] =>
    if list.tag = .nil then .body body
    else
      match s.binding? list with
      | some (var, init, more) => .bind recursive var init more body
      | none => .malformed
  | _ => .malformed

/-- A pair whose head is the symbol of a form. -/
def formExpression (s : Store) (form : Form) (arguments : Pointer) : Expression :=
  match form with
  | .quote =>
    match s.items 1 arguments with
    | some [v] => .value v
    | _ => .malformed
  | .lambda =>
    match s.items 2 arguments with
    | some [list, body] =>
      match s.parameters? list with
      | some (parameter, more) => .lambda parameter more body
      | none => .malformed
    | _ => .malformed
  | .cond =>
    match s.items 3 arguments with
    | some [test, first, second] => .cond test first second
    | _ => .malformed
  | .bindLet => s.bindExpression false arguments
  | .bindRec => s.bindExpression true arguments
  | .unary op =>
    match s.items 1 arguments with
    | some [operand] => .unary op operand
    | _ => .malformed
  | .binary op =>
    match s.items 2 arguments with
    | some [first, second] => .binary op first second
    | _ => .malformed

/-- A pair with any other head. -/
def callExpression (s : Store) (head arguments : Pointer) : Expression :=
  if arguments.tag = .nil then .call0 head
  else if arguments.tag = .cons then .call head (s.car arguments) (s.cdr arguments)
  else .malformed

/-- What an expression is. -/
def expression (s : Store) (e : Pointer) : Expression :=
  match e.tag with
  | .nil | .number | .function | .commitment => .value e
  | .thunk => .value (s.part e 0)
  | .symbol => if e = Builtin.truthPointer then .value e else .variable
  | .cons =>
    match formOf? (s.car e) with
    | some form => s.formExpression form (s.cdr e)
    | none => s.callExpression (s.car e) (s.cdr e)
  | _ => .foreign

/-! ## Values -/

/-- Where a symbol is bound. -/
inductive Binding where
  | at (node : Pointer)
  | unbound
  /-- It was not among the nodes that were inspected. -/
  | beyond
  deriving DecidableEq, Repr, Inhabited

/-- Inspects at most so many nodes of an environment. -/
def search (s : Store) (sought : Pointer) : ℕ → Pointer → Binding
  | depth, node =>
    if node.tag.isEnv then
      match depth with
      | 0 => .beyond
      | depth + 1 =>
        if s.part node 0 = sought then .at node else s.search sought depth (s.part node 2)
    else .unbound

/-- The value of a symbol. A function that is bound recursively is closed over its own binding. -/
def lookup (s : Store) (depth : ℕ) (sought env : Pointer) : Except ErrorCode Pointer × Store :=
  match s.search sought depth env with
  | .at node =>
    let value := s.part node 1
    if node.tag = .recEnv ∧ value.tag = .function then
      let closed := [s.part value 0, s.part value 1, node]
      (.ok (nodePointer .function closed), s.put .function closed)
    else (.ok value, s)
  | .unbound => (.error .unboundVariable, s)
  | .beyond => (.error .depthExceeded, s)

end Store

/-- The builtin of one operand that a pointer is the symbol of. -/
def unaryOf? (operator : Pointer) : Option UnaryOp :=
  match formOf? operator with
  | some (.unary op) => some op
  | _ => none

/-- The builtin of two operands that a pointer is the symbol of. -/
def binaryOf? (operator : Pointer) : Option BinaryOp :=
  match formOf? operator with
  | some (.binary op) => some op
  | _ => none

theorem formOf?_symbol (form : Form) : formOf? form.symbol = some form := by
  rw [← beq_iff_eq, ← beq_symbol, beq_self_eq_true]

/-- Only a symbol stands for a form. -/
theorem formOf?_eq_none {p : Pointer} (h : p.tag ≠ .symbol) : formOf? p = none := by
  apply List.find?_eq_none.2
  intro form _ hsymbol
  apply h
  rw [beq_iff_eq.1 hsymbol, Form.symbol_eq]
  rfl

theorem unaryOf?_symbol (op : UnaryOp) : unaryOf? (Form.unary op).symbol = some op := by
  rw [unaryOf?, formOf?_symbol]

theorem binaryOf?_symbol (op : BinaryOp) : binaryOf? (Form.binary op).symbol = some op := by
  rw [binaryOf?, formOf?_symbol]

/-- The truth value of a condition. -/
def verdict (b : Bool) : Pointer := if b then Builtin.truthPointer else .nil

namespace Store

/-- The value of a builtin of one operand. -/
def unaryValue (s : Store) (op : UnaryOp) (v : Pointer) : Except ErrorCode Pointer × Store :=
  match op with
  | .car => if v.tag = .cons ∨ v.tag = .nil then (.ok (s.car v), s) else (.error .argumentError, s)
  | .cdr => if v.tag = .cons ∨ v.tag = .nil then (.ok (s.cdr v), s) else (.error .argumentError, s)
  | .atom => (.ok (verdict (v.tag != .cons)), s)
  | .commit => (.ok (nodePointer .commitment [.number 0, v]), s.put .commitment [.number 0, v])
  | .payload => if v.tag = .commitment then (.ok (s.part v 1), s) else (.error .argumentError, s)
  | .secret => if v.tag = .commitment then (.ok (s.part v 0), s) else (.error .argumentError, s)
  | .emit => (.ok v, s)

end Store

/-- What a builtin computes from two numbers, if it is one that computes with numbers. -/
def numberValue? (op : BinaryOp) (x y : Int) : Option (Except ErrorCode Pointer) :=
  match op with
  | .add => some (.ok (.number (x + y)))
  | .sub => some (.ok (.number (x - y)))
  | .mul => some (.ok (.number (x * y)))
  | .div => some (if y = 0 then .error .divisionByZero else .ok (.number (x * Field.invert y)))
  | .rem => some (
    if ContPhase.small x && ContPhase.small y then
      if y = 0 then .error .divisionByZero else .ok (.number (x.fmod y))
    else .error .argumentError)
  | .equal => some (.ok (verdict (x == y)))
  | .less => some (.ok (verdict (Field.toSigned x < Field.toSigned y)))
  | .greater => some (.ok (verdict (Field.toSigned y < Field.toSigned x)))
  | .atMost => some (.ok (verdict (!(Field.toSigned y < Field.toSigned x))))
  | .atLeast => some (.ok (verdict (!(Field.toSigned x < Field.toSigned y))))
  | .same | .cons | .hide => none

namespace Store

/-- The value of a builtin of two operands. -/
def binaryValue (s : Store) (op : BinaryOp) (a b : Pointer) : Except ErrorCode Pointer × Store :=
  match numberValue? op (a.digest.headD 0) (b.digest.headD 0) with
  | some result =>
    (if a.tag = .number ∧ b.tag = .number then result else .error .argumentError, s)
  | none =>
    match op with
    | .cons => (.ok (nodePointer .cons [a, b]), s.put .cons [a, b])
    | .hide =>
      if a.tag = .number then (.ok (nodePointer .commitment [a, b]), s.put .commitment [a, b])
      else (.error .argumentError, s)
    | _ => (.ok (verdict (a == b)), s)

/-- The value that an operator of one operand gives. -/
def applyUnary (s : Store) (operator v : Pointer) : Except ErrorCode Pointer × Store :=
  match unaryOf? operator with
  | some op => s.unaryValue op v
  | none => (.error .invalidContinuation, s)

/-- The value that an operator of two operands gives. -/
def applyBinary (s : Store) (operator a b : Pointer) : Except ErrorCode Pointer × Store :=
  match binaryOf? operator with
  | some op => s.binaryValue op a b
  | none => (.error .invalidContinuation, s)

end Store

/-! ## Phases -/

/-- The machine stops with an error value. -/
def State.fail (env : Pointer) (code : ErrorCode) : State := ⟨.error code, env, .failed⟩

/-- What the evaluation phase leaves: a state, and whether its expression is a value. -/
structure Outcome where
  state : State
  returned : Bool
  deriving DecidableEq, Repr, Inhabited

namespace EvalPhase

/-- Evaluates an expression first; a node that is taken in says how to go on. -/
def push (env expr : Pointer) (tag : Tag) (cs : List Pointer) (s : Store) : Outcome × Store :=
  (⟨⟨expr, env, Store.nodePointer tag cs⟩, false⟩, s.put tag cs)

/-- Goes on with a value, or stops for want of one. -/
def deliver (env cont : Pointer) : Except ErrorCode Pointer × Store → Outcome × Store
  | (.ok v, s) => (⟨⟨v, env, cont⟩, true⟩, s)
  | (.error code, s) => (⟨.fail env code, false⟩, s)

/-- What the evaluation phase makes of a state that is not at rest. -/
def evaluate (depth : ℕ) (st : State) (s : Store) : Outcome × Store :=
  let ⟨expr, env, cont⟩ := st
  match s.expression expr with
  | .value v => deliver env cont (.ok v, s)
  | .variable => deliver env cont (s.lookup depth expr env)
  | .lambda parameter more body =>
    let function := [parameter, nested .lambda more body, env]
    deliver env cont (.ok (Store.nodePointer .function function),
      (s.putNested .lambda more body).put .function function)
  | .cond test first second => push env test .branch [first, second, env, cont] s
  | .body body => (⟨⟨body, env, cont⟩, false⟩, s)
  | .bind recursive var init more body =>
    let form := bindForm recursive
    push env init (bindTag recursive) [var, nested form more body, env, cont]
      (s.putNested form more body)
  | .unary op operand => push env operand .unary [(Form.unary op).symbol, .nil, .nil, cont] s
  | .binary op first second =>
    push env first .binary [(Form.binary op).symbol, second, env, cont] s
  | .call0 head => push env head .call0 [env, .nil, .nil, cont] s
  | .call head first others => push env head .call [first, others, env, cont] s
  | .malformed => deliver env cont (.error .invalidForm, s)
  | .foreign => deliver env cont (.error .invalidExpression, s)

/-- What the evaluation phase makes of a state. -/
def reduct (depth : ℕ) (st : State) (s : Store) : Outcome × Store :=
  if st.isHalted then (⟨st, false⟩, s) else evaluate depth st s

end EvalPhase

namespace ContPhase

/-- Hands a value on in a thunk, or stops for want of one. -/
def handOn (env cont : Pointer) : Except ErrorCode Pointer × Store → State × Store
  | (.ok v, s) => (⟨Store.nodePointer .thunk [v, .nil], env, cont⟩, s.put .thunk [v, .nil])
  | (.error code, s) => (.fail env code, s)

/-- Binds an argument and enters the body of a function. More arguments go to what the body gives,
in the environment of the call. -/
def enter (s : Store) (function v caller cont env : Pointer) (more : Option Pointer) :
    State × Store :=
  if function.tag = .function then
    if s.part function 0 = Builtin.noParameterPointer then (.fail env .argumentError, s)
    else
      let bound := [s.part function 0, v, s.part function 2]
      match more with
      | none =>
        (⟨s.part function 1, Store.nodePointer .env bound, cont⟩, s.put .env bound)
      | some rest =>
        let call := [s.part rest 0, s.part rest 1, caller, cont]
        (⟨s.part function 1, Store.nodePointer .env bound, Store.nodePointer .call call⟩,
          (s.put .env bound).put .call call)
  else (.fail env .notAFunction, s)

/-- What the continuation phase makes of a state whose expression is a value. -/
def resume (st : State) (s : Store) : State × Store :=
  let ⟨v, env, cont⟩ := st
  let child := s.part cont
  match cont.tag with
  | .outermost => (⟨v, env, .terminal⟩, s)
  | .call0 =>
    if v.tag = .function then
      if s.part v 0 = Builtin.noParameterPointer then (⟨s.part v 1, s.part v 2, child 3⟩, s)
      else (.fail env .argumentError, s)
    else (.fail env .notAFunction, s)
  | .call =>
    if v.tag = .function then
      let call := [v, child 1, child 2, child 3]
      (⟨child 0, child 2, Store.nodePointer .call2 call⟩, s.put .call2 call)
    else (.fail env .notAFunction, s)
  | .call2 =>
    match Store.rest? (child 1) with
    | some more => enter s (child 0) v (child 2) (child 3) env more
    | none =>
      (.fail env (if (child 0).tag = .function then .argumentError else .notAFunction), s)
  | .bindLet =>
    let bound := [child 0, v, child 2]
    (⟨child 1, Store.nodePointer .env bound, child 3⟩, s.put .env bound)
  | .bindRec =>
    let bound := [child 0, v, child 2]
    (⟨child 1, Store.nodePointer .recEnv bound, child 3⟩, s.put .recEnv bound)
  | .branch => (⟨if v.tag = .nil then child 1 else child 0, child 2, child 3⟩, s)
  | .unary => handOn env (child 3) (s.applyUnary (child 0) v)
  | .binary =>
    let operand := [child 0, v, .nil, child 3]
    (⟨child 1, child 2, Store.nodePointer .binary2 operand⟩, s.put .binary2 operand)
  | .binary2 => handOn env (child 3) (s.applyBinary (child 0) (child 1) v)
  | _ => (.fail env .invalidContinuation, s)

/-- What the continuation phase makes of the outcome of the evaluation phase. -/
def reduct (mid : Outcome) (s : Store) : State × Store :=
  if mid.returned then resume mid.state s else (mid.state, s)

/-- The value that is reported, if one is. -/
def reported (mid : Outcome) (s : Store) : Option Pointer :=
  if mid.returned ∧ mid.state.cont.tag = .unary ∧
    unaryOf? (s.part mid.state.cont 0) = some .emit then some mid.state.expr
  else none

end ContPhase

end FieldLisp
