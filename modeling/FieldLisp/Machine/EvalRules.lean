import FieldLisp.Machine.Rules

/-! # The evaluation phase

Looks at expression, environment and continuation, and gives the next expression to evaluate or a
value. First the expression is taken apart as far as any rule may need it; then each rule has a
guard, of which exactly one holds; then the rule of that guard runs. -/

namespace FieldLisp.EvalPhase
open StepModel ElementModel

/-- What the rules of the phase see. An expression that is a pair has a head and a list of
arguments; the first three arguments are here, and the list after each of them. -/
structure Scope (E P : Type) where
  expr : P
  env : P
  cont : P
  halted : E
  isCons : E
  head : P
  arguments : P
  a1 : P
  a2 : P
  a3 : P
  tail1 : P
  tail2 : P
  tail3 : P
  /-- Whether there are exactly so many arguments. -/
  noArgument : E
  oneArgument : E
  twoArguments : E
  threeArguments : E
  /-- For each form, whether the head is its symbol. -/
  headIs : List (Form × E)

variable {m : Type → Type} {E P : Type} [Monad m] [ElementModel E] [PointerModel P]
  [StepModel m E P]

/-- Takes the state apart. -/
def prelude (expr env cont : P) : m (Scope E P) := do
  let halted ← tagIn cont Tag.halts
  let isCons ← tagIs expr .cons
  let (head, arguments) ← unhash2 expr (some isCons)
  let c1 ← both isCons [← tagIs arguments .cons]
  let (a1, tail1) ← unhash2 arguments (some c1)
  let c2 ← both c1 [← tagIs tail1 .cons]
  let (a2, tail2) ← unhash2 tail1 (some c2)
  let c3 ← both c2 [← tagIs tail2 .cons]
  let (a3, tail3) ← unhash2 tail2 (some c3)
  let noArgument ← both isCons [← tagIs arguments .nil]
  let oneArgument ← both c1 [← tagIs tail1 .nil]
  let twoArguments ← both c2 [← tagIs tail2 .nil]
  let threeArguments ← both c3 [← tagIs tail3 .nil]
  let headIs ← Form.all.mapM fun form => do
    let same ← pointerEq head (ptr form.symbol)
    pure (form, same)
  pure {
    expr, env, cont, halted, isCons, head, arguments, a1, a2, a3, tail1, tail2, tail3,
    noArgument, oneArgument, twoArguments, threeArguments, headIs }

/-- Tags of expressions that are their own values. -/
def valueTags : List Tag := [.nil, .number, .function, .commitment]

/-- Tags of expressions that some rule evaluates. -/
def expressionTags : List Tag := [.nil, .cons, .symbol, .number, .function, .thunk, .commitment]

/-- The guard of each rule. -/
def guards (s : Scope E P) : m (List (EvalRule × E)) := do
  let live := no s.halted
  let isTruth ← pointerEq s.expr (ptr Builtin.truthPointer)
  let form ← both live [s.isCons]
  let isUnary := oneOf (UnaryOp.all.map fun op => flag s.headIs (Form.unary op))
  let isBinary := oneOf (BinaryOp.all.map fun op => flag s.headIs (Form.binary op))
  let special := oneOf (s.headIs.map (·.2))
  let isValue ← tagIn s.expr valueTags
  let selfEvaluating ← both live [oneOf [isValue, isTruth]]
  let thunk ← both live [← tagIs s.expr .thunk]
  let lookup ← both live [← tagIs s.expr .symbol, no isTruth]
  let quote ← both form [flag s.headIs Form.quote]
  let lambda ← both form [flag s.headIs Form.lambda]
  let cond ← both form [flag s.headIs Form.cond]
  let bindLet ← both form [flag s.headIs Form.bindLet]
  let bindRec ← both form [flag s.headIs Form.bindRec]
  let unary ← both form [isUnary]
  let binary ← both form [isBinary]
  let apply ← both form [no special]
  let isExpression ← tagIn s.expr expressionTags
  let invalidExpr ← both live [no isExpression]
  pure [
    (.terminal, s.halted), (.selfEvaluating, selfEvaluating), (.thunk, thunk), (.lookup, lookup),
    (.quote, quote), (.lambda, lambda), (.cond, cond), (.bindLet, bindLet), (.bindRec, bindRec),
    (.unary, unary), (.binary, binary), (.apply, apply), (.invalidExpr, invalidExpr)]

/-! ## Rules -/

/-- A state at rest stays as it is. -/
def terminal (s : Scope E P) : m (Step E P) := pure ⟨s.expr, s.env, s.cont, lit 0⟩

/-- The expression is a value. -/
def selfEvaluating (s : Scope E P) : m (Step E P) := pure ⟨s.expr, s.env, s.cont, lit 1⟩

/-- The value that a thunk holds. -/
def thunk (s : Scope E P) : m (Step E P) := do
  let (value, _) ← unhash2 s.expr none
  pure ⟨value, s.env, s.cont, lit 1⟩

/-- State of the search for a symbol in an environment. -/
structure Search (E P : Type) where
  /-- The node to inspect next. -/
  node : P
  searching : E
  hit : E
  /-- The value found. -/
  found : P
  /-- The node it was found in. -/
  foundNode : P

/-- Inspects at most `depth` nodes. The search goes on after a hit, with nothing enabled. -/
def search (sought : P) : Nat → Search E P → m (Search E P)
  | 0, state => pure state
  | depth + 1, state => do
    let active ← both state.searching [← tagIn state.node Tag.envs]
    let (var, val, parent) ← unhash3 state.node (some active)
    let matched ← both active [← pointerEq var sought]
    let found ← selectPointer matched val state.found
    let foundNode ← selectPointer matched state.node state.foundNode
    let searching ← both active [no matched]
    search sought depth ⟨parent, searching, add state.hit matched, found, foundNode⟩

/-- The value of a symbol. A function that is bound recursively is closed over the node that binds
it, so that it sees its own binding. -/
def lookup (depth : Nat) (s : Scope E P) : m (Step E P) := do
  let result ← search s.expr depth ⟨s.env, lit 1, lit 0, ptr .nil, ptr .nil⟩
  let reclose ← both result.hit
    [← tagIs result.foundNode .recEnv, ← tagIs result.found .function]
  let (parameter, body, _) ← unhash3 result.found (some reclose)
  let closure ← hashTag .function [parameter, body, result.foundNode] (some reclose)
  let value ← selectPointer reclose closure result.found
  let exceeded ← both result.searching [← tagIn result.node Tag.envs]
  let failed ← Step.choose exceeded (.fail s.env .depthExceeded) (.fail s.env .unboundVariable)
  Step.choose result.hit ⟨value, s.env, s.cont, lit 1⟩ failed

def quote (s : Scope E P) : m (Step E P) :=
  Step.choose s.oneArgument ⟨s.a1, s.env, s.cont, lit 1⟩ (.fail s.env .invalidForm)

/-- A function of the first parameter; further parameters make its body a lambda of them. -/
def lambda (s : Scope E P) : m (Step E P) := do
  let parameters := s.a1
  let body := s.a2
  let noParameters ← tagIs parameters .nil
  let hasParameters ← tagIs parameters .cons
  let (first, more) ← unhash2 parameters (some hasParameters)
  let curried ← tagIs more .cons
  let proper := oneOf [curried, ← tagIs more .nil]
  let named ← both hasParameters [← tagIs first .symbol, proper]
  let ok ← both s.twoArguments [oneOf [noParameters, named]]
  let inner ← buildList [ptr Form.lambda.symbol, more, body] (some (← both ok [curried]))
  let parameter ← selectPointer noParameters (ptr Builtin.noParameterPointer) first
  let functionBody ← selectPointer curried inner body
  let function ← hashTag .function [parameter, functionBody, s.env] (some ok)
  Step.choose ok ⟨function, s.env, s.cont, lit 1⟩ (.fail s.env .invalidForm)

def cond (s : Scope E P) : m (Step E P) := do
  let ok := s.threeArguments
  let cont ← hashTag .branch [s.a2, s.a3, s.env, s.cont] (some ok)
  Step.choose ok ⟨s.a1, s.env, cont, lit 0⟩ (.fail s.env .invalidForm)

/-- The form of bindings and a body. One binding is taken in each step; the others go into a form of
the same kind that becomes the body. -/
def binding (tag : Tag) (s : Scope E P) : m (Step E P) := do
  let bindings := s.a1
  let body := s.a2
  let empty ← tagIs bindings .nil
  let nonempty ← tagIs bindings .cons
  let (binding, rest) ← unhash2 bindings (some nonempty)
  let b1 ← both nonempty [← tagIs binding .cons]
  let (var, varTail) ← unhash2 binding (some b1)
  let b2 ← both b1 [← tagIs varTail .cons]
  let (init, ending) ← unhash2 varTail (some b2)
  let more ← tagIs rest .cons
  let wellFormed ← both b2
    [← tagIs var .symbol, ← tagIs ending .nil, oneOf [more, ← tagIs rest .nil]]
  let ok ← both s.twoArguments [oneOf [empty, wellFormed]]
  let binds ← both ok [no empty]
  let inner ← buildList [s.head, rest, body] (some (← both binds [more]))
  let nextBody ← selectPointer more inner body
  let cont ← hashTag tag [var, nextBody, s.env, s.cont] (some binds)
  let step ← Step.choose empty ⟨body, s.env, s.cont, lit 0⟩ ⟨init, s.env, cont, lit 0⟩
  Step.choose ok step (.fail s.env .invalidForm)

def unary (s : Scope E P) : m (Step E P) := do
  let ok := s.oneArgument
  let cont ← hashTag .unary [s.head, ptr .nil, ptr .nil, s.cont] (some ok)
  Step.choose ok ⟨s.a1, s.env, cont, lit 0⟩ (.fail s.env .invalidForm)

def binary (s : Scope E P) : m (Step E P) := do
  let ok := s.twoArguments
  let cont ← hashTag .binary [s.head, s.a2, s.env, s.cont] (some ok)
  Step.choose ok ⟨s.a1, s.env, cont, lit 0⟩ (.fail s.env .invalidForm)

/-- A call evaluates its head first. Without arguments the environment waits with it; otherwise the
first argument, the others and the environment do. -/
def apply (s : Scope E P) : m (Step E P) := do
  let bare := s.noArgument
  let ok := oneOf [bare, ← tagIs s.arguments .cons]
  let tag ← select bare (lit Tag.call0.value) (lit Tag.call.value)
  let first ← selectPointer bare s.env s.a1
  let second ← selectPointer bare (ptr .nil) s.tail1
  let third ← selectPointer bare (ptr .nil) s.env
  let cont ← hash tag [first, second, third, s.cont] (some ok)
  Step.choose ok ⟨s.head, s.env, cont, lit 0⟩ (.fail s.env .invalidForm)

def invalidExpr (s : Scope E P) : m (Step E P) := pure (.fail s.env .invalidExpression)

/-- The rule itself; `depth` bounds the lookup of a symbol. -/
def run (depth : Nat) : EvalRule → Scope E P → m (Step E P)
  | .terminal => terminal
  | .selfEvaluating => selfEvaluating
  | .thunk => thunk
  | .lookup => lookup depth
  | .quote => quote
  | .lambda => lambda
  | .cond => cond
  | .bindLet => binding .bindLet
  | .bindRec => binding .bindRec
  | .unary => unary
  | .binary => binary
  | .apply => apply
  | .invalidExpr => invalidExpr

end FieldLisp.EvalPhase
