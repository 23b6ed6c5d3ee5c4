import FieldLisp.Proofs.Store.Distinct

/-!
# Specimens

Nodes of some small programs, and what the machine takes in when it runs them. None of their digests collide:

* `withNode`, `withSymbol`, `withHeads`: nodes over nodes whose digests are computed first;
* `Specimen.letForm`, `Specimen.application`: the forms `(let ((x 5)) x)` and `((lambda (x) x) 5)`;
* `Specimen.call`, `Specimen.curried`: the calls `((lambda (x) x) (lambda (x) x) nil)` and
  `(((lambda (x) x) (lambda (x) x)) nil)`;
* `Specimen.injOn_preimages`: no two of these have one digest;
* `Capture.abstraction`, `Capture.delayed`, `Capture.program`: the expressions `(lambda () y)` and
  `(let ((y 5)) (lambda () y))`, and the form `(let ((x e)) body)` for one of them, or its recursive kind, with the body
  `(x)` or `(if (eq x (lambda () y)) nil 5)`;
* `Capture.injOn_preimages`: no two of these have one digest either;
* `Breach.lambdaForm`, `Breach.letForm`: the forms `(lambda (x 5) x)` and `(let ((x 5) 5) x)`, which break
  their grammar;
* `Breach.injOn_preimages`: nor of these;
* `Addition.expression`: the expression `(+ 1 2)`;
* `Addition.injOn_filled`: nor of what its run takes in, of a forged pair and of empty slots;
* `Shadowing.outer`: an environment with two bindings of one symbol;
* `Shadowing.injOn_preimages`: nor of its nodes.
-/

namespace FieldLisp

open Store

variable {tag : Tag} {cs : List Pointer} {x : Pointer}

/-- Applies a function to a node whose digest is computed first. -/
def withNode {α : Type} (tag : Tag) (cs : List Pointer) (k : Pointer → α) : α :=
  withDigest (nodePreimage tag cs) fun digest => k ⟨tag, digest⟩

theorem withNode_eq {α : Type} (tag : Tag) (cs : List Pointer) (k : Pointer → α) :
    withNode tag cs k = k (nodePointer tag cs) := withDigest_eq _ _

def withSymbol {α : Type} (name : String) (k : Pointer → α) : α :=
  withDigest (symbolPreimage name) fun digest => k ⟨.symbol, digest⟩

theorem withSymbol_eq {α : Type} (name : String) (k : Pointer → α) :
    withSymbol name k = k (symbolPointer name) := withDigest_eq _ _

/-- Applies a function to the first elements of some digests. -/
def withHeads {α : Type} : List (List Int) → (List Int → α) → α
  | [], k => k []
  | xs :: preimages, k => withDigest xs fun digest => withHeads preimages fun heads => k (digest.headD 0 :: heads)

theorem withHeads_eq {α : Type} (preimages : List (List Int)) (k : List Int → α) :
    withHeads preimages k = k (preimages.map fun xs => (Sponge.hash xs).toList.headD 0) := by
  induction preimages generalizing k with
  | nil => rfl
  | cons xs preimages ih => rw [withHeads, withDigest_eq, ih, List.map_cons]

section
variable {names : List String} {listed : List (Tag × List Pointer)}

/-- A listed node is among the preimages of names and nodes. -/
theorem mem_of_listed (h : (tag, cs) ∈ listed) :
    nodePreimage tag cs ∈ {xs | xs ∈ names.map symbolPreimage ++ listed.map fun node => nodePreimage node.1 node.2} :=
  List.mem_append_right _ (List.mem_map_of_mem (f := fun node => nodePreimage node.1 node.2) h)

/-- So is a listed pair. -/
theorem mem_of_pair {pairs : List (Pointer × Pointer)} {others : List (Tag × List Pointer)} {ab : Pointer × Pointer}
    (hlisted : listed = pairs.map (fun ab => (.cons, [ab.1, ab.2])) ++ others) (h : ab ∈ pairs) :
    nodePreimage .cons [ab.1, ab.2] ∈
      {xs | xs ∈ names.map symbolPreimage ++ listed.map fun node => nodePreimage node.1 node.2} := by
  apply mem_of_listed
  rw [hlisted]
  exact List.mem_append_left _ (List.mem_map_of_mem (f := fun ab => (Tag.cons, [ab.1, ab.2])) h)

theorem mem_of_name {name : String} (h : name ∈ names) :
    symbolPreimage name ∈ {xs | xs ∈ names.map symbolPreimage ++ listed.map fun node => nodePreimage node.1 node.2} :=
  List.mem_append_left _ (List.mem_map_of_mem h)

end

namespace Specimen

def pair (a b : Pointer) : Pointer := nodePointer .cons [a, b]

def five : Pointer := .number 5

/-- The symbol `x`. -/
def named : Pointer := symbolPointer "x"

/-- The lists `(nil)` and `(5)`. -/
def single : Pointer := pair .nil .nil
def fives : Pointer := pair five .nil

/-- The form `(let ((x 5)) x)`, from the inside. -/
def symbols (x : Pointer) : Pointer := pair x .nil
def binding (x : Pointer) : Pointer := pair x fives
def bindings (x : Pointer) : Pointer := pair (binding x) .nil
def letArguments (x : Pointer) : Pointer := pair (bindings x) (symbols x)
def letForm (x : Pointer) : Pointer := pair Form.bindLet.symbol (letArguments x)

/-- The form `((lambda (x) x) 5)`, from the inside. -/
def lambdaArguments (x : Pointer) : Pointer := pair (symbols x) (symbols x)
def lambdaForm (x : Pointer) : Pointer := pair Form.lambda.symbol (lambdaArguments x)
def application (x : Pointer) : Pointer := pair (lambdaForm x) fives

/-- The value of its head, and the environment in which its body is evaluated for an argument. -/
def closure (x : Pointer) : Pointer := nodePointer .function [x, x, .nil]
def scope (x v : Pointer) : Pointer := nodePointer .env [x, v, .nil]

/-- The calls `((lambda (x) x) (lambda (x) x) nil)` and `(((lambda (x) x) (lambda (x) x)) nil)`, from the inside. -/
def double : Pointer := pair (lambdaForm named) single
def call : Pointer := pair (lambdaForm named) double
def lambdas : Pointer := pair (lambdaForm named) .nil
def applied : Pointer := pair (lambdaForm named) lambdas
def curried : Pointer := pair applied single

/-- A call with nil waits for its function. -/
def calling : Pointer := nodePointer .call [.nil, .nil, .nil, .outermost]

/-- The pairs of both forms. -/
def formParts (x : Pointer) : List (Pointer × Pointer) :=
  [(x, .nil), (x, fives), (binding x, .nil), (bindings x, symbols x), (Form.bindLet.symbol, letArguments x),
    (symbols x, symbols x), (Form.lambda.symbol, lambdaArguments x), (lambdaForm x, fives)]

/-- The pairs of the forms for a symbol and for the one that stands for no parameter, and of the calls. -/
def parts : List (Pointer × Pointer) :=
  [(five, .nil), (.nil, .nil)] ++ formParts named ++ formParts Builtin.noParameterPointer ++
    [(lambdaForm named, single), (lambdaForm named, double), (lambdaForm named, .nil), (lambdaForm named, lambdas),
      (applied, single)]

/-- What the runs of both forms take in. -/
def formTaken (x : Pointer) : List (Tag × List Pointer) :=
  [(.bindLet, [x, x, .nil, .outermost]), (.env, [x, five, .nil]), (.function, [x, x, .nil]),
    (.call2, [closure x, .nil, .nil, .outermost])]

/-- What the runs of both calls take in. -/
def callTaken : List (Tag × List Pointer) :=
  [(.call, [five, .nil, .nil, .outermost]), (.call, [lambdaForm named, single, .nil, .outermost]),
    (.call2, [closure named, single, .nil, .outermost]), (.call, [.nil, .nil, .nil, .outermost]),
    (.call, [lambdaForm named, .nil, .nil, calling]), (.call2, [closure named, .nil, .nil, calling]),
    (.env, [named, closure named, .nil]), (.env, [named, .nil, .nil])]

def taken : List (Tag × List Pointer) := formTaken named ++ formTaken Builtin.noParameterPointer ++ callTaken

def listed : List (Tag × List Pointer) := parts.map (fun ab => (.cons, [ab.1, ab.2])) ++ taken

def names : List String := "x" :: Builtin.names

def preimages : List (List Int) :=
  names.map symbolPreimage ++ listed.map fun node => nodePreimage node.1 node.2

/-- The digests of nodes for a symbol, computed one after the other. -/
def withForms {α : Type} (x fives binder abstraction : Pointer)
    (k : Pointer → Pointer → List Pointer → List Pointer → α) : α :=
  withNode .cons [x, .nil] fun symbols =>
  withNode .cons [x, fives] fun binding =>
  withNode .cons [binding, .nil] fun bindings =>
  withNode .cons [bindings, symbols] fun letArguments =>
  withNode .cons [binder, letArguments] fun letForm =>
  withNode .cons [symbols, symbols] fun lambdaArguments =>
  withNode .cons [abstraction, lambdaArguments] fun lambdaForm =>
  withNode .cons [lambdaForm, fives] fun application =>
  withNode .bindLet [x, x, .nil, .outermost] fun waiting =>
  withNode .env [x, five, .nil] fun scope =>
  withNode .function [x, x, .nil] fun closure =>
  withNode .call2 [closure, .nil, .nil, .outermost] fun applying =>
  k lambdaForm closure
    [symbols, binding, bindings, letArguments, letForm, lambdaArguments, lambdaForm, application]
    [waiting, scope, closure, applying]

/-- No two digests have one first element. -/
def distinct : Bool :=
  withSymbol "x" fun x =>
  withSymbol Builtin.noParameter fun noParameter =>
  withSymbol Form.bindLet.name fun binder =>
  withSymbol Form.lambda.name fun abstraction =>
  withNode .cons [five, .nil] fun fives =>
  withNode .cons [.nil, .nil] fun single =>
  withForms x fives binder abstraction fun lambdaForm closure parts taken =>
  withForms noParameter fives binder abstraction fun _ _ parts' taken' =>
  withNode .cons [lambdaForm, single] fun double =>
  withNode .cons [lambdaForm, double] fun call =>
  withNode .cons [lambdaForm, .nil] fun lambdas =>
  withNode .cons [lambdaForm, lambdas] fun applied =>
  withNode .cons [applied, single] fun curried =>
  withNode .call [five, .nil, .nil, .outermost] fun waiting =>
  withNode .call [lambdaForm, single, .nil, .outermost] fun waiting₁ =>
  withNode .call2 [closure, single, .nil, .outermost] fun applying₁ =>
  withNode .call [.nil, .nil, .nil, .outermost] fun calling =>
  withNode .call [lambdaForm, .nil, .nil, calling] fun waiting₂ =>
  withNode .call2 [closure, .nil, .nil, calling] fun applying₂ =>
  withNode .env [x, closure, .nil] fun scope₁ =>
  withNode .env [x, .nil, .nil] fun scope₂ =>
  withHeads (names.map symbolPreimage) fun heads =>
  decide (heads ++ ([fives, single] ++ parts ++ parts' ++ [double, call, lambdas, applied, curried] ++
    (taken ++ taken' ++ [waiting, waiting₁, applying₁, calling, waiting₂, applying₂, scope₁, scope₂])).map
      fun p => p.digest.headD 0).Nodup

theorem distinct_eq_true : distinct = true := by decide +kernel

theorem injOn_preimages : Set.InjOn Sponge.hash {xs | xs ∈ preimages} := by
  apply injOn_of_heads
  have h := distinct_eq_true
  simp only [distinct, withForms, withNode_eq, withSymbol_eq, withHeads_eq, decide_eq_true_eq] at h
  have hbinder := Form.symbol_eq .bindLet
  have habstraction := Form.symbol_eq .lambda
  simp only [← hbinder, ← habstraction] at h
  rw [preimages, List.map_append]
  exact h

theorem name_mem {name : String} (h : name ∈ names) : symbolPreimage name ∈ {xs | xs ∈ preimages} :=
  mem_of_name h

theorem parts_mem {ab : Pointer × Pointer} (h : ab ∈ parts) :
    nodePreimage .cons [ab.1, ab.2] ∈ {xs | xs ∈ preimages} := mem_of_pair rfl h

theorem taken_mem (h : (tag, cs) ∈ taken) : nodePreimage tag cs ∈ {xs | xs ∈ preimages} :=
  mem_of_listed (List.mem_append_right _ h)

theorem formTaken_mem (hx : x = named ∨ x = Builtin.noParameterPointer) (h : (tag, cs) ∈ formTaken x) :
    nodePreimage tag cs ∈ {xs | xs ∈ preimages} := by
  apply taken_mem
  rcases hx with rfl | rfl <;> simp [taken, h]

/-- Symbols of different names have different pointers. -/
theorem symbol_ne {name name' : String} (h : name ∈ names) (h' : name' ∈ names) (hne : name ≠ name') :
    symbolPointer name ≠ symbolPointer name' := fun heq =>
  hne (symbolPreimage_injective (injOn_preimages (name_mem h) (name_mem h') (hash_eq_of_symbolPointer_eq heq)))

end Specimen

/-! ## Functions that capture a binding -/

namespace Capture

open Specimen (pair five fives)

def callee : Pointer := symbolPointer "x"
def captured : Pointer := symbolPointer "y"

/-- The call `(x)`. -/
def call : Pointer := pair callee .nil

/-- The expression `(lambda () y)`, from the inside. -/
def result : Pointer := pair captured .nil
def arguments : Pointer := pair .nil result
def abstraction : Pointer := pair Form.lambda.symbol arguments
def abstractions : Pointer := pair abstraction .nil

/-- The expression `(let ((y 5)) (lambda () y))`, from the inside. -/
def binding : Pointer := pair captured fives
def bindings : Pointer := pair binding .nil
def delayedArguments : Pointer := pair bindings abstractions
def delayed : Pointer := pair Form.bindLet.symbol delayedArguments

/-- The bindings `((x e))`, from the inside. -/
def programBinding (e : Pointer) : Pointer := pair callee (pair e .nil)
def programBindings (e : Pointer) : Pointer := pair (programBinding e) .nil

/-- The expression `(if (eq x (lambda () y)) nil 5)`, from the inside. -/
def same : Pointer := (Form.binary .same).symbol
def test : Pointer := pair same (programBinding abstraction)
def branches : Pointer := pair .nil fives
def choiceArguments : Pointer := pair test branches
def choice : Pointer := pair Form.cond.symbol choiceArguments

/-- The form `(let ((x e)) body)`, or its recursive kind, from the inside. -/
def programArguments (e body : Pointer) : Pointer := pair (programBindings e) (pair body .nil)
def program (form : Form) (e body : Pointer) : Pointer := pair form.symbol (programArguments e body)

/-- The pairs of the expressions that are bound, and of the call. -/
def expressionParts : List (Pointer × Pointer) :=
  [(callee, .nil), (call, .nil), (captured, .nil), (.nil, result), (Form.lambda.symbol, arguments), (abstraction, .nil),
    (five, .nil), (captured, fives), (binding, .nil), (bindings, abstractions), (Form.bindLet.symbol, delayedArguments),
    (delayed, .nil)]

/-- The pairs of the bindings of an expression. -/
def bindingParts (e : Pointer) : List (Pointer × Pointer) := [(callee, pair e .nil), (programBinding e, .nil)]

/-- The pairs of the expression that compares two functions. -/
def choiceParts : List (Pointer × Pointer) :=
  [(same, programBinding abstraction), (.nil, fives), (test, branches), (Form.cond.symbol, choiceArguments),
    (choice, .nil)]

/-- The pairs of both forms for an expression and a body. -/
def programParts (e body : Pointer) : List (Pointer × Pointer) :=
  [(programBindings e, pair body .nil), (Form.bindLet.symbol, programArguments e body),
    (Form.bindRec.symbol, programArguments e body)]

def parts : List (Pointer × Pointer) :=
  expressionParts ++ bindingParts abstraction ++ bindingParts delayed ++ choiceParts ++
    (programParts abstraction call ++ programParts delayed call ++ programParts abstraction choice ++
      programParts delayed choice)

/-- The environment that the function captures, and the function. -/
def scope : Pointer := nodePointer .env [captured, five, .nil]
def closure : Pointer := nodePointer .function [Builtin.noParameterPointer, captured, scope]

/-- The environment in which the body is evaluated. -/
def bound (tag : Tag) (env : Pointer) : Pointer := nodePointer tag [callee, closure, env]

/-- What waits for the function, in both forms. -/
def waiting (body env : Pointer) : List (Tag × List Pointer) :=
  [(.bindLet, [callee, body, env, .outermost]), (.bindRec, [callee, body, env, .outermost])]

/-- What the runs of both forms with the call take in around the function. -/
def around (env : Pointer) : List (Tag × List Pointer) :=
  waiting call env ++ waiting choice env ++
    [(.env, [callee, closure, env]), (.recEnv, [callee, closure, env]),
      (.call0, [bound .env env, .nil, .nil, .outermost]), (.call0, [bound .recEnv env, .nil, .nil, .outermost]),
      (.function, [Builtin.noParameterPointer, captured, bound .recEnv env])]

/-- What waits for the function while the scope is entered that it captures. -/
def entering (tag : Tag) : List Pointer :=
  [captured, abstraction, .nil, nodePointer tag [callee, call, .nil, .outermost]]

/-- What waits for the comparison. -/
def branching (tag : Tag) : Pointer := nodePointer .branch [.nil, five, bound tag scope, .outermost]

/-- The function that the symbol is bound to, when it is looked up in the scope of the binding. -/
def found : Tag → Pointer
  | .recEnv => nodePointer .function [Builtin.noParameterPointer, captured, bound .recEnv scope]
  | _ => closure

/-- What the comparison takes in. -/
def comparing (tag : Tag) (result : Pointer) : List (Tag × List Pointer) :=
  [(.branch, [.nil, five, bound tag scope, .outermost]), (.binary, [same, abstraction, bound tag scope, branching tag]),
    (.binary2, [same, found tag, .nil, branching tag]), (.thunk, [result, .nil])]

def listed : List (Tag × List Pointer) :=
  parts.map (fun ab => (.cons, [ab.1, ab.2])) ++
    ([(.env, [captured, five, .nil]), (.function, [Builtin.noParameterPointer, captured, scope])] ++ around scope ++
      around .nil ++ [(.bindLet, entering .bindLet), (.bindLet, entering .bindRec)] ++
      (comparing .env .nil ++ comparing .recEnv Builtin.truthPointer ++
        [(.function, [Builtin.noParameterPointer, captured, bound .env scope])]))

def names : List String := "x" :: "y" :: Builtin.names

def preimages : List (List Int) :=
  names.map symbolPreimage ++ listed.map fun node => nodePreimage node.1 node.2

/-- The digests of the pairs of both forms, computed one after the other. -/
def withProgram {α : Type} (bindings bodies binder recursor : Pointer) (k : List Pointer → α) : α :=
  withNode .cons [bindings, bodies] fun arguments =>
  withNode .cons [binder, arguments] fun plain =>
  withNode .cons [recursor, arguments] fun recursive =>
  k [arguments, plain, recursive]

/-- The digests of what runs take in around the function, computed one after the other. -/
def withAround {α : Type} (x y noParameter call choice closure env : Pointer)
    (k : Pointer → Pointer → Pointer → Pointer → Pointer → List Pointer → α) : α :=
  withNode .bindLet [x, call, env, .outermost] fun waiting =>
  withNode .bindRec [x, call, env, .outermost] fun waiting' =>
  withNode .bindLet [x, choice, env, .outermost] fun choosing =>
  withNode .bindRec [x, choice, env, .outermost] fun choosing' =>
  withNode .env [x, closure, env] fun bound =>
  withNode .recEnv [x, closure, env] fun bound' =>
  withNode .call0 [bound, .nil, .nil, .outermost] fun calling =>
  withNode .call0 [bound', .nil, .nil, .outermost] fun calling' =>
  withNode .function [noParameter, y, bound'] fun closure' =>
  k waiting waiting' bound bound' closure'
    [waiting, waiting', choosing, choosing', bound, bound', calling, calling', closure']

/-- The digests of what a comparison takes in, computed one after the other. -/
def withComparing {α : Type} (same abstraction bound function result : Pointer) (k : List Pointer → α) : α :=
  withNode .branch [.nil, five, bound, .outermost] fun branching =>
  withNode .binary [same, abstraction, bound, branching] fun waiting =>
  withNode .binary2 [same, function, .nil, branching] fun waiting' =>
  withNode .thunk [result, .nil] fun thunk =>
  k [branching, waiting, waiting', thunk]

/-- No two digests have one first element. -/
def distinct : Bool :=
  withSymbol "x" fun x =>
  withSymbol "y" fun y =>
  withSymbol Builtin.noParameter fun noParameter =>
  withSymbol Builtin.truth fun truth =>
  withSymbol Form.bindLet.name fun binder =>
  withSymbol Form.bindRec.name fun recursor =>
  withSymbol Form.lambda.name fun lambda =>
  withSymbol Form.cond.name fun cond =>
  withSymbol BinaryOp.same.name fun same =>
  withNode .cons [x, .nil] fun call =>
  withNode .cons [call, .nil] fun calls =>
  withNode .cons [y, .nil] fun result =>
  withNode .cons [.nil, result] fun arguments =>
  withNode .cons [lambda, arguments] fun abstraction =>
  withNode .cons [abstraction, .nil] fun abstractions =>
  withNode .cons [five, .nil] fun fives =>
  withNode .cons [y, fives] fun binding =>
  withNode .cons [binding, .nil] fun bindings =>
  withNode .cons [bindings, abstractions] fun delayedArguments =>
  withNode .cons [binder, delayedArguments] fun delayed =>
  withNode .cons [delayed, .nil] fun delayeds =>
  withNode .cons [x, abstractions] fun binding₁ =>
  withNode .cons [binding₁, .nil] fun bindings₁ =>
  withNode .cons [x, delayeds] fun binding₂ =>
  withNode .cons [binding₂, .nil] fun bindings₂ =>
  withNode .cons [same, binding₁] fun test =>
  withNode .cons [.nil, fives] fun branches =>
  withNode .cons [test, branches] fun choiceArguments =>
  withNode .cons [cond, choiceArguments] fun choice =>
  withNode .cons [choice, .nil] fun choices =>
  withProgram bindings₁ calls binder recursor fun callAbstraction =>
  withProgram bindings₂ calls binder recursor fun callDelayed =>
  withProgram bindings₁ choices binder recursor fun chooseAbstraction =>
  withProgram bindings₂ choices binder recursor fun chooseDelayed =>
  withNode .env [y, five, .nil] fun scope =>
  withNode .function [noParameter, y, scope] fun closure =>
  withAround x y noParameter call choice closure scope fun _ _ bound bound' closure' aroundScope =>
  withAround x y noParameter call choice closure .nil fun waiting waiting' _ _ _ aroundNil =>
  withNode .bindLet [y, abstraction, .nil, waiting] fun entering =>
  withNode .bindLet [y, abstraction, .nil, waiting'] fun entering' =>
  withComparing same abstraction bound closure .nil fun comparing =>
  withComparing same abstraction bound' closure' truth fun comparing' =>
  withNode .function [noParameter, y, bound] fun another =>
  withHeads (names.map symbolPreimage) fun heads =>
  decide (heads ++ ([call, calls, result, arguments, abstraction, abstractions, fives, binding, bindings,
    delayedArguments, delayed, delayeds] ++ [binding₁, bindings₁] ++ [binding₂, bindings₂] ++ [test, branches,
    choiceArguments, choice, choices] ++ (callAbstraction ++ callDelayed ++ chooseAbstraction ++ chooseDelayed) ++
    ([scope, closure] ++ aroundScope ++ aroundNil ++ [entering, entering'] ++ (comparing ++ comparing' ++
    [another]))).map fun p => p.digest.headD 0).Nodup

theorem distinct_eq_true : distinct = true := by decide +kernel

theorem injOn_preimages : Set.InjOn Sponge.hash {xs | xs ∈ preimages} := by
  apply injOn_of_heads
  have h := distinct_eq_true
  simp only [distinct, withProgram, withAround, withComparing, withNode_eq, withSymbol_eq, withHeads_eq,
    decide_eq_true_eq] at h
  have hbinder := Form.symbol_eq .bindLet
  have hrecursor := Form.symbol_eq .bindRec
  have hlambda := Form.symbol_eq .lambda
  have hcond := Form.symbol_eq .cond
  have hsame : same = symbolPointer BinaryOp.same.name := Form.symbol_eq (.binary .same)
  simp only [← hbinder, ← hrecursor, ← hlambda, ← hcond, ← hsame] at h
  rw [preimages, List.map_append]
  exact h

theorem mem_preimages (h : (tag, cs) ∈ listed) : nodePreimage tag cs ∈ {xs | xs ∈ preimages} := mem_of_listed h

theorem name_mem {name : String} (h : name ∈ names) : symbolPreimage name ∈ {xs | xs ∈ preimages} := mem_of_name h

theorem parts_mem {ab : Pointer × Pointer} (h : ab ∈ parts) :
    nodePreimage .cons [ab.1, ab.2] ∈ {xs | xs ∈ preimages} := mem_of_pair rfl h

section
variable {e body env : Pointer} {ab : Pointer × Pointer}

theorem expression_mem (h : ab ∈ expressionParts) : ab ∈ parts := by simp [parts, h]

theorem choice_mem (h : ab ∈ choiceParts) : ab ∈ parts := by simp [parts, h]

theorem binding_mem (he : e = abstraction ∨ e = delayed) (h : ab ∈ bindingParts e) : ab ∈ parts := by
  rcases he with rfl | rfl <;> simp [parts, h]

theorem program_mem (he : e = abstraction ∨ e = delayed) (hbody : body = call ∨ body = choice)
    (h : ab ∈ programParts e body) : ab ∈ parts := by
  rcases he with rfl | rfl <;> rcases hbody with rfl | rfl <;> simp [parts, h]

theorem around_mem (henv : env = scope ∨ env = .nil) (h : (tag, cs) ∈ around env) :
    nodePreimage tag cs ∈ {xs | xs ∈ preimages} := by
  apply mem_preimages
  rcases henv with rfl | rfl <;> simp [listed, h]

theorem waiting_mem (henv : env = scope ∨ env = .nil) (hbody : body = call ∨ body = choice)
    (h : (tag, cs) ∈ waiting body env) : nodePreimage tag cs ∈ {xs | xs ∈ preimages} := by
  apply around_mem henv
  rcases hbody with rfl | rfl <;> simp [around, h]

end

/-- Symbols of different names have different pointers. -/
theorem symbol_ne {name name' : String} (h : name ∈ names) (h' : name' ∈ names) (hne : name ≠ name') :
    symbolPointer name ≠ symbolPointer name' := fun heq =>
  hne (symbolPreimage_injective (injOn_preimages (name_mem h) (name_mem h') (hash_eq_of_symbolPointer_eq heq)))

end Capture

/-! ## Forms that break their grammar -/

namespace Breach

open Specimen (pair five fives)
open Capture (callee call)

/-- The list `(x 5)`: a binding, but no list of parameters. -/
def binding : Pointer := pair callee fives

/-- The form `(lambda (x 5) x)`, from the inside. -/
def lambdaArguments : Pointer := pair binding call
def lambdaForm : Pointer := pair Form.lambda.symbol lambdaArguments

/-- The form `(let ((x 5) 5) x)`, from the inside. -/
def bindings : Pointer := pair binding fives
def letArguments : Pointer := pair bindings call
def letForm : Pointer := pair Form.bindLet.symbol letArguments

/-- What is left of either form after its first item. -/
def others : Pointer := pair fives call
def remaining (form : Form) : Pointer := pair form.symbol others

/-- The pairs of both forms. -/
def parts : List (Pointer × Pointer) :=
  [(five, .nil), (callee, .nil), (callee, fives), (binding, call), (Form.lambda.symbol, lambdaArguments),
    (binding, fives), (bindings, call), (Form.bindLet.symbol, letArguments)]

/-- What the runs of both take in besides. -/
def taken : List (Tag × List Pointer) :=
  [(.cons, [fives, call]), (.cons, [Form.lambda.symbol, others]), (.cons, [Form.bindLet.symbol, others]),
    (.function, [callee, remaining .lambda, .nil]), (.bindLet, [callee, remaining .bindLet, .nil, .outermost]),
    (.env, [callee, five, .nil])]

def listed : List (Tag × List Pointer) := parts.map (fun ab => (.cons, [ab.1, ab.2])) ++ taken

def names : List String := "x" :: Builtin.names

def preimages : List (List Int) :=
  names.map symbolPreimage ++ listed.map fun node => nodePreimage node.1 node.2

/-- No two digests have one first element. -/
def distinct : Bool :=
  withSymbol "x" fun x =>
  withSymbol Form.bindLet.name fun binder =>
  withSymbol Form.lambda.name fun lambda =>
  withNode .cons [five, .nil] fun fives =>
  withNode .cons [x, .nil] fun call =>
  withNode .cons [x, fives] fun binding =>
  withNode .cons [binding, call] fun lambdaArguments =>
  withNode .cons [lambda, lambdaArguments] fun lambdaForm =>
  withNode .cons [binding, fives] fun bindings =>
  withNode .cons [bindings, call] fun letArguments =>
  withNode .cons [binder, letArguments] fun letForm =>
  withNode .cons [fives, call] fun others =>
  withNode .cons [lambda, others] fun lambdaRest =>
  withNode .cons [binder, others] fun letRest =>
  withNode .function [x, lambdaRest, .nil] fun function =>
  withNode .bindLet [x, letRest, .nil, .outermost] fun waiting =>
  withNode .env [x, five, .nil] fun env =>
  withHeads (names.map symbolPreimage) fun heads =>
  decide (heads ++ [fives, call, binding, lambdaArguments, lambdaForm, bindings, letArguments, letForm, others,
    lambdaRest, letRest, function, waiting, env].map fun p => p.digest.headD 0).Nodup

theorem distinct_eq_true : distinct = true := by decide +kernel

theorem injOn_preimages : Set.InjOn Sponge.hash {xs | xs ∈ preimages} := by
  apply injOn_of_heads
  have h := distinct_eq_true
  simp only [distinct, withNode_eq, withSymbol_eq, withHeads_eq, decide_eq_true_eq] at h
  have hbinder := Form.symbol_eq .bindLet
  have hlambda := Form.symbol_eq .lambda
  simp only [← hbinder, ← hlambda] at h
  rw [preimages, List.map_append]
  exact h

theorem parts_mem {ab : Pointer × Pointer} (h : ab ∈ parts) :
    nodePreimage .cons [ab.1, ab.2] ∈ {xs | xs ∈ preimages} := mem_of_pair rfl h

theorem taken_mem (h : (tag, cs) ∈ taken) : nodePreimage tag cs ∈ {xs | xs ∈ preimages} :=
  mem_of_listed (List.mem_append_right _ h)

end Breach

/-! ## A sum -/

namespace Addition

open Specimen (pair)

def one : Pointer := .number 1
def two : Pointer := .number 2
def three : Pointer := .number 3
def plus : Pointer := (Form.binary .add).symbol

/-- The expression `(+ 1 2)`, from the inside. -/
def seconds : Pointer := pair two .nil
def operands : Pointer := pair one seconds
def expression : Pointer := pair plus operands

def parts : List (Pointer × Pointer) := [(two, .nil), (one, seconds), (plus, operands)]

/-- What waits for the numbers, and what hands their sum on. -/
def taken : List (Tag × List Pointer) :=
  [(.binary, [plus, two, .nil, .outermost]), (.binary2, [plus, one, .nil, .outermost]), (.thunk, [three, .nil])]

/-- What a forger puts in the place of the expression. -/
def forged : List Pointer := [plus, seconds]

def listed : List (Tag × List Pointer) :=
  parts.map (fun ab => (.cons, [ab.1, ab.2])) ++ (taken ++ [(.cons, forged)])

def preimages : List (List Int) :=
  Builtin.names.map symbolPreimage ++ listed.map fun node => nodePreimage node.1 node.2

/-- What empty slots hold. -/
def blanks : List (List Int) := [2, 3, 4].map fun arity => List.replicate (preimageSize arity).toNat 0

/-- No two digests have one first element. -/
def distinct : Bool :=
  withSymbol BinaryOp.add.name fun plus =>
  withNode .cons [two, .nil] fun seconds =>
  withNode .cons [one, seconds] fun operands =>
  withNode .cons [plus, operands] fun expression =>
  withNode .binary [plus, two, .nil, .outermost] fun waiting =>
  withNode .binary2 [plus, one, .nil, .outermost] fun waiting' =>
  withNode .thunk [three, .nil] fun thunk =>
  withNode .cons [plus, seconds] fun forged =>
  withHeads (Builtin.names.map symbolPreimage) fun heads =>
  withHeads blanks fun blanks =>
  decide (heads ++ ([seconds, operands, expression, waiting, waiting', thunk, forged].map fun p => p.digest.headD 0) ++
    blanks).Nodup

theorem distinct_eq_true : distinct = true := by decide +kernel

theorem injOn_filled : Set.InjOn Sponge.hash {xs | xs ∈ preimages ++ blanks} := by
  apply injOn_of_heads
  have h := distinct_eq_true
  simp only [distinct, withNode_eq, withSymbol_eq, withHeads_eq, decide_eq_true_eq] at h
  have hplus : plus = symbolPointer BinaryOp.add.name := Form.symbol_eq (.binary .add)
  simp only [← hplus] at h
  rw [preimages, List.map_append, List.map_append]
  exact h

theorem injOn_preimages : Set.InjOn Sponge.hash {xs | xs ∈ preimages} :=
  injOn_filled.mono fun _ => List.mem_append_left _

theorem parts_mem {ab : Pointer × Pointer} (h : ab ∈ parts) :
    nodePreimage .cons [ab.1, ab.2] ∈ {xs | xs ∈ preimages} := mem_of_pair rfl h

theorem taken_mem (h : (tag, cs) ∈ taken) : nodePreimage tag cs ∈ {xs | xs ∈ preimages} :=
  mem_of_listed (List.mem_append_right _ (List.mem_append_left _ h))

theorem forged_mem : nodePreimage .cons forged ∈ {xs | xs ∈ preimages} :=
  mem_of_listed (List.mem_append_right _ (List.mem_append_right _ (List.mem_singleton_self _)))

end Addition

/-! ## A symbol that is bound twice -/

namespace Shadowing

open Specimen (five)
open Capture (callee captured)

/-- A function without a parameter, whose body is a number. -/
def function : Pointer := nodePointer .function [Builtin.noParameterPointer, five, .nil]

/-- A binding of `x` to a number, a recursive one of `x` to the function over it, and one of `y` over both. -/
def inner : Pointer := nodePointer .env [callee, five, .nil]
def middle : Pointer := nodePointer .recEnv [callee, function, inner]
def outer : Pointer := nodePointer .env [captured, five, middle]

def listed : List (Tag × List Pointer) :=
  [(.function, [Builtin.noParameterPointer, five, .nil]), (.env, [callee, five, .nil]),
    (.recEnv, [callee, function, inner]), (.env, [captured, five, middle])]

def names : List String := "x" :: "y" :: Builtin.names

def preimages : List (List Int) :=
  names.map symbolPreimage ++ listed.map fun node => nodePreimage node.1 node.2

/-- No two digests have one first element. -/
def distinct : Bool :=
  withSymbol "x" fun x =>
  withSymbol "y" fun y =>
  withSymbol Builtin.noParameter fun noParameter =>
  withNode .function [noParameter, five, .nil] fun function =>
  withNode .env [x, five, .nil] fun inner =>
  withNode .recEnv [x, function, inner] fun middle =>
  withNode .env [y, five, middle] fun outer =>
  withHeads (names.map symbolPreimage) fun heads =>
  decide (heads ++ [function, inner, middle, outer].map fun p => p.digest.headD 0).Nodup

theorem distinct_eq_true : distinct = true := by decide +kernel

theorem injOn_preimages : Set.InjOn Sponge.hash {xs | xs ∈ preimages} := by
  apply injOn_of_heads
  have h := distinct_eq_true
  simp only [distinct, withNode_eq, withSymbol_eq, withHeads_eq, decide_eq_true_eq] at h
  rw [preimages, List.map_append]
  exact h

theorem mem_preimages (h : (tag, cs) ∈ listed) : nodePreimage tag cs ∈ {xs | xs ∈ preimages} := mem_of_listed h

theorem name_mem {name : String} (h : name ∈ names) : symbolPreimage name ∈ {xs | xs ∈ preimages} := mem_of_name h

/-- Symbols of different names have different pointers. -/
theorem symbol_ne {name name' : String} (h : name ∈ names) (h' : name' ∈ names) (hne : name ≠ name') :
    symbolPointer name ≠ symbolPointer name' := fun heq =>
  hne (symbolPreimage_injective (injOn_preimages (name_mem h) (name_mem h') (hash_eq_of_symbolPointer_eq heq)))

end Shadowing

end FieldLisp
