import FieldLisp.Machine.EvalRules
import FieldLisp.Proofs.Machine.Simulation

/-!
# The evaluation phase in two models

* `Simulation.evalPrelude`, `Simulation.evalGuards`: models take a state apart in step, and find
  related guards;
* `Simulation.evalRun`: every rule of the phase leads to related outcomes.
-/

namespace FieldLisp

open StepModel

/-- Scopes whose parts are related. -/
structure EvalPhase.Scope.Related {E₁ E₂ P₁ P₂ : Type} (elem : E₁ → E₂ → Prop)
    (pointer : P₁ → P₂ → Prop) (s : Scope E₁ P₁) (t : Scope E₂ P₂) : Prop where
  expr : pointer s.expr t.expr
  env : pointer s.env t.env
  cont : pointer s.cont t.cont
  halted : elem s.halted t.halted
  isCons : elem s.isCons t.isCons
  head : pointer s.head t.head
  arguments : pointer s.arguments t.arguments
  a1 : pointer s.a1 t.a1
  a2 : pointer s.a2 t.a2
  a3 : pointer s.a3 t.a3
  tail1 : pointer s.tail1 t.tail1
  tail2 : pointer s.tail2 t.tail2
  tail3 : pointer s.tail3 t.tail3
  noArgument : elem s.noArgument t.noArgument
  oneArgument : elem s.oneArgument t.oneArgument
  twoArguments : elem s.twoArguments t.twoArguments
  threeArguments : elem s.threeArguments t.threeArguments
  headIs : FlagsRelated elem s.headIs t.headIs

namespace Simulation

variable {m₁ m₂ : Type → Type} {E₁ E₂ P₁ P₂ : Type} [Monad m₁] [Monad m₂] [ElementModel E₁]
  [ElementModel E₂] [PointerModel P₁] [PointerModel P₂] [StepModel m₁ E₁ P₁] [StepModel m₂ E₂ P₂]
  (sim : Simulation m₁ m₂ E₁ E₂ P₁ P₂)

/-- Scopes of the evaluation phase that are related in a simulation. -/
abbrev evalScope : EvalPhase.Scope E₁ P₁ → EvalPhase.Scope E₂ P₂ → Prop :=
  EvalPhase.Scope.Related sim.elem sim.pointer

section
variable {s : EvalPhase.Scope E₁ P₁} {t : EvalPhase.Scope E₂ P₂} (h : sim.evalScope s t)
include h

theorem evalThunk : sim.run sim.step (EvalPhase.thunk s) (EvalPhase.thunk t) :=
  sim.bind (sim.unhash2 h.expr .none) fun _ _ ⟨value, _⟩ =>
    sim.pure ⟨value, h.env, h.cont, sim.lit 1⟩

theorem evalQuote : sim.run sim.step (EvalPhase.quote s) (EvalPhase.quote t) :=
  sim.choose h.oneArgument ⟨h.a1, h.env, h.cont, sim.lit 1⟩ (sim.fail h.env _)

theorem evalLambda : sim.run sim.step (EvalPhase.lambda s) (EvalPhase.lambda t) := by
  unfold EvalPhase.lambda
  refine sim.bind (sim.tagIs .nil h.a1) fun _ _ noParameters => ?_
  refine sim.bind (sim.tagIs .cons h.a1) fun _ _ hasParameters => ?_
  refine sim.bind (sim.unhash2 h.a1 (.some hasParameters)) fun _ _ ⟨first, more⟩ => ?_
  refine sim.bind (sim.tagIs .cons more) fun _ _ curried => ?_
  refine sim.bind (sim.tagIs .nil more) fun _ _ ends => ?_
  have proper := sim.oneOf (.cons curried (.cons ends .nil))
  refine sim.bind (sim.tagIs .symbol first) fun _ _ isSymbol => ?_
  refine sim.bind (sim.both hasParameters (.cons isSymbol (.cons proper .nil))) fun _ _ named => ?_
  have formed := sim.oneOf (.cons noParameters (.cons named .nil))
  refine sim.bind (sim.both h.twoArguments (.cons formed .nil)) fun _ _ ok => ?_
  refine sim.bind (sim.both ok (.cons curried .nil)) fun _ _ nests => ?_
  have items := List.Forall₂.cons (sim.ptr Form.lambda.symbol_canonical)
    (.cons more (.cons h.a2 .nil))
  refine sim.bind (sim.buildList items (.some nests)) fun _ _ inner => ?_
  refine sim.bind (sim.selectPointer noParameters (sim.ptr (symbolPointer_canonical _)) first)
    fun _ _ parameter => ?_
  refine sim.bind (sim.selectPointer curried inner h.a2) fun _ _ body => ?_
  refine sim.bind (sim.hashTag .function (.cons parameter (.cons body (.cons h.env .nil)))
    (.some ok)) fun _ _ function => ?_
  exact sim.choose ok ⟨function, h.env, h.cont, sim.lit 1⟩ (sim.fail h.env _)

theorem evalCond : sim.run sim.step (EvalPhase.cond s) (EvalPhase.cond t) :=
  sim.bind (sim.hashTag .branch (.cons h.a2 (.cons h.a3 (.cons h.env (.cons h.cont .nil))))
    (.some h.threeArguments)) fun _ _ cont =>
      sim.choose h.threeArguments ⟨h.a1, h.env, cont, sim.lit 0⟩ (sim.fail h.env _)

theorem evalBinding (tag : Tag) :
    sim.run sim.step (EvalPhase.binding tag s) (EvalPhase.binding tag t) := by
  unfold EvalPhase.binding
  refine sim.bind (sim.tagIs .nil h.a1) fun _ _ empty => ?_
  refine sim.bind (sim.tagIs .cons h.a1) fun _ _ nonempty => ?_
  refine sim.bind (sim.unhash2 h.a1 (.some nonempty)) fun _ _ ⟨binding, rest⟩ => ?_
  refine sim.bind (sim.tagIs .cons binding) fun _ _ isPair => ?_
  refine sim.bind (sim.both nonempty (.cons isPair .nil)) fun _ _ b1 => ?_
  refine sim.bind (sim.unhash2 binding (.some b1)) fun _ _ ⟨var, varTail⟩ => ?_
  refine sim.bind (sim.tagIs .cons varTail) fun _ _ isPair => ?_
  refine sim.bind (sim.both b1 (.cons isPair .nil)) fun _ _ b2 => ?_
  refine sim.bind (sim.unhash2 varTail (.some b2)) fun _ _ ⟨init, ending⟩ => ?_
  refine sim.bind (sim.tagIs .cons rest) fun _ _ more => ?_
  refine sim.bind (sim.tagIs .symbol var) fun _ _ isSymbol => ?_
  refine sim.bind (sim.tagIs .nil ending) fun _ _ ends => ?_
  refine sim.bind (sim.tagIs .nil rest) fun _ _ restEnds => ?_
  have proper := sim.oneOf (.cons more (.cons restEnds .nil))
  refine sim.bind (sim.both b2 (.cons isSymbol (.cons ends (.cons proper .nil))))
    fun _ _ wellFormed => ?_
  have formed := sim.oneOf (.cons empty (.cons wellFormed .nil))
  refine sim.bind (sim.both h.twoArguments (.cons formed .nil)) fun _ _ ok => ?_
  refine sim.bind (sim.both ok (.cons (sim.no empty) .nil)) fun _ _ binds => ?_
  refine sim.bind (sim.both binds (.cons more .nil)) fun _ _ nests => ?_
  refine sim.bind (sim.buildList (.cons h.head (.cons rest (.cons h.a2 .nil))) (.some nests))
    fun _ _ inner => ?_
  refine sim.bind (sim.selectPointer more inner h.a2) fun _ _ body => ?_
  refine sim.bind (sim.hashTag tag (.cons var (.cons body (.cons h.env (.cons h.cont .nil))))
    (.some binds)) fun _ _ cont => ?_
  refine sim.bind (sim.choose empty ⟨h.a2, h.env, h.cont, sim.lit 0⟩
    ⟨init, h.env, cont, sim.lit 0⟩) fun _ _ step => ?_
  exact sim.choose ok step (sim.fail h.env _)

theorem evalUnary : sim.run sim.step (EvalPhase.unary s) (EvalPhase.unary t) := by
  have nil := sim.ptr (Pointer.immediate_canonical .nil 0)
  refine sim.bind (sim.hashTag .unary (.cons h.head (.cons nil (.cons nil (.cons h.cont .nil))))
    (.some h.oneArgument)) fun _ _ cont => ?_
  exact sim.choose h.oneArgument ⟨h.a1, h.env, cont, sim.lit 0⟩ (sim.fail h.env _)

theorem evalBinary : sim.run sim.step (EvalPhase.binary s) (EvalPhase.binary t) :=
  sim.bind (sim.hashTag .binary (.cons h.head (.cons h.a2 (.cons h.env (.cons h.cont .nil))))
    (.some h.twoArguments)) fun _ _ cont =>
      sim.choose h.twoArguments ⟨h.a1, h.env, cont, sim.lit 0⟩ (sim.fail h.env _)

theorem evalApply : sim.run sim.step (EvalPhase.apply s) (EvalPhase.apply t) := by
  have nil := sim.ptr (Pointer.immediate_canonical .nil 0)
  unfold EvalPhase.apply
  refine sim.bind (sim.tagIs .cons h.arguments) fun _ _ isPair => ?_
  have ok := sim.oneOf (.cons h.noArgument (.cons isPair .nil))
  refine sim.bind (sim.select h.noArgument (sim.lit _) (sim.lit _)) fun _ _ tag => ?_
  refine sim.bind (sim.selectPointer h.noArgument h.env h.a1) fun _ _ first => ?_
  refine sim.bind (sim.selectPointer h.noArgument nil h.tail1) fun _ _ second => ?_
  refine sim.bind (sim.selectPointer h.noArgument nil h.env) fun _ _ third => ?_
  refine sim.bind (sim.hash tag (.cons first (.cons second (.cons third (.cons h.cont .nil))))
    (.some ok)) fun _ _ cont => ?_
  exact sim.choose ok ⟨h.head, h.env, cont, sim.lit 0⟩ (sim.fail h.env _)

end

/-! ## Taking a state apart, and the search for a symbol -/

variable [LawfulMonad m₁] [LawfulMonad m₂]

theorem evalPrelude {expr env cont : P₁} {expr' env' cont' : P₂} (hexpr : sim.pointer expr expr')
    (henv : sim.pointer env env') (hcont : sim.pointer cont cont') :
    sim.run sim.evalScope (EvalPhase.prelude expr env cont)
      (EvalPhase.prelude expr' env' cont') := by
  unfold EvalPhase.prelude
  refine sim.bind (sim.tagIn hcont _) fun _ _ halted => ?_
  refine sim.bind (sim.tagIs .cons hexpr) fun _ _ isCons => ?_
  refine sim.bind (sim.unhash2 hexpr (.some isCons)) fun _ _ ⟨head, arguments⟩ => ?_
  refine sim.bind (sim.tagIs .cons arguments) fun _ _ isPair => ?_
  refine sim.bind (sim.both isCons (.cons isPair .nil)) fun _ _ c1 => ?_
  refine sim.bind (sim.unhash2 arguments (.some c1)) fun _ _ ⟨a1, tail1⟩ => ?_
  refine sim.bind (sim.tagIs .cons tail1) fun _ _ isPair => ?_
  refine sim.bind (sim.both c1 (.cons isPair .nil)) fun _ _ c2 => ?_
  refine sim.bind (sim.unhash2 tail1 (.some c2)) fun _ _ ⟨a2, tail2⟩ => ?_
  refine sim.bind (sim.tagIs .cons tail2) fun _ _ isPair => ?_
  refine sim.bind (sim.both c2 (.cons isPair .nil)) fun _ _ c3 => ?_
  refine sim.bind (sim.unhash2 tail2 (.some c3)) fun _ _ ⟨a3, tail3⟩ => ?_
  refine sim.bind (sim.tagIs .nil arguments) fun _ _ ends => ?_
  refine sim.bind (sim.both isCons (.cons ends .nil)) fun _ _ noArgument => ?_
  refine sim.bind (sim.tagIs .nil tail1) fun _ _ ends => ?_
  refine sim.bind (sim.both c1 (.cons ends .nil)) fun _ _ oneArgument => ?_
  refine sim.bind (sim.tagIs .nil tail2) fun _ _ ends => ?_
  refine sim.bind (sim.both c2 (.cons ends .nil)) fun _ _ twoArguments => ?_
  refine sim.bind (sim.tagIs .nil tail3) fun _ _ ends => ?_
  refine sim.bind (sim.both c3 (.cons ends .nil)) fun _ _ threeArguments => ?_
  refine sim.bind (sim.pointerFlags head Form.symbol Form.symbol_canonical _) fun _ _ headIs => ?_
  exact sim.pure ⟨hexpr, henv, hcont, halted, isCons, head, arguments, a1, a2, a3, tail1, tail2,
    tail3, noArgument, oneArgument, twoArguments, threeArguments, headIs⟩

theorem evalGuards {s : EvalPhase.Scope E₁ P₁} {t : EvalPhase.Scope E₂ P₂}
    (h : sim.evalScope s t) :
    sim.run (FlagsRelated sim.elem) (EvalPhase.guards s) (EvalPhase.guards t) := by
  have live := sim.no h.halted
  have isUnary := sim.oneOf (sim.flagsOf h.headIs Form.unary UnaryOp.all)
  have isBinary := sim.oneOf (sim.flagsOf h.headIs Form.binary BinaryOp.all)
  have special := sim.oneOf (sim.flags h.headIs)
  unfold EvalPhase.guards
  refine sim.bind (sim.pointerEq h.expr (sim.ptr (symbolPointer_canonical _))) fun _ _ isTruth => ?_
  refine sim.bind (sim.both live (.cons h.isCons .nil)) fun _ _ form => ?_
  refine sim.bind (sim.tagIn h.expr _) fun _ _ isValue => ?_
  have value := sim.oneOf (.cons isValue (.cons isTruth .nil))
  refine sim.bind (sim.both live (.cons value .nil)) fun _ _ selfEvaluating => ?_
  refine sim.bind (sim.tagIs .thunk h.expr) fun _ _ isThunk => ?_
  refine sim.bind (sim.both live (.cons isThunk .nil)) fun _ _ thunk => ?_
  refine sim.bind (sim.tagIs .symbol h.expr) fun _ _ isSymbol => ?_
  refine sim.bind (sim.both live (.cons isSymbol (.cons (sim.no isTruth) .nil)))
    fun _ _ lookup => ?_
  refine sim.bind (sim.both form (.cons (sim.flag h.headIs .quote) .nil)) fun _ _ quote => ?_
  refine sim.bind (sim.both form (.cons (sim.flag h.headIs .lambda) .nil)) fun _ _ lambda => ?_
  refine sim.bind (sim.both form (.cons (sim.flag h.headIs .cond) .nil)) fun _ _ cond => ?_
  refine sim.bind (sim.both form (.cons (sim.flag h.headIs .bindLet) .nil)) fun _ _ bindLet => ?_
  refine sim.bind (sim.both form (.cons (sim.flag h.headIs .bindRec) .nil)) fun _ _ bindRec => ?_
  refine sim.bind (sim.both form (.cons isUnary .nil)) fun _ _ unary => ?_
  refine sim.bind (sim.both form (.cons isBinary .nil)) fun _ _ binary => ?_
  refine sim.bind (sim.both form (.cons (sim.no special) .nil)) fun _ _ apply => ?_
  refine sim.bind (sim.tagIn h.expr _) fun _ _ isExpression => ?_
  refine sim.bind (sim.both live (.cons (sim.no isExpression) .nil)) fun _ _ invalidExpr => ?_
  exact sim.pure (.cons ⟨rfl, h.halted⟩ (.cons ⟨rfl, selfEvaluating⟩ (.cons ⟨rfl, thunk⟩
    (.cons ⟨rfl, lookup⟩ (.cons ⟨rfl, quote⟩ (.cons ⟨rfl, lambda⟩ (.cons ⟨rfl, cond⟩
    (.cons ⟨rfl, bindLet⟩ (.cons ⟨rfl, bindRec⟩ (.cons ⟨rfl, unary⟩ (.cons ⟨rfl, binary⟩
    (.cons ⟨rfl, apply⟩ (.cons ⟨rfl, invalidExpr⟩ .nil)))))))))))))

/-- Searches whose parts are related. -/
structure SearchRelated (s : EvalPhase.Search E₁ P₁) (t : EvalPhase.Search E₂ P₂) : Prop where
  node : sim.pointer s.node t.node
  searching : sim.elem s.searching t.searching
  hit : sim.elem s.hit t.hit
  found : sim.pointer s.found t.found
  foundNode : sim.pointer s.foundNode t.foundNode

theorem search {p : P₁} {q : P₂} (hsought : sim.pointer p q) (depth : ℕ)
    {s : EvalPhase.Search E₁ P₁} {t : EvalPhase.Search E₂ P₂} (h : sim.SearchRelated s t) :
    sim.run sim.SearchRelated (EvalPhase.search p depth s) (EvalPhase.search q depth t) := by
  induction depth generalizing s t with
  | zero => exact sim.pure h
  | succ depth ih =>
    unfold EvalPhase.search
    refine sim.bind (sim.tagIn h.node _) fun _ _ isEnv => ?_
    refine sim.bind (sim.both h.searching (.cons isEnv .nil)) fun _ _ active => ?_
    refine sim.bind (sim.unhash3 h.node (.some active)) fun _ _ ⟨var, val, parent⟩ => ?_
    refine sim.bind (sim.pointerEq var hsought) fun _ _ same => ?_
    refine sim.bind (sim.both active (.cons same .nil)) fun _ _ matched => ?_
    refine sim.bind (sim.selectPointer matched val h.found) fun _ _ found => ?_
    refine sim.bind (sim.selectPointer matched h.node h.foundNode) fun _ _ foundNode => ?_
    refine sim.bind (sim.both active (.cons (sim.no matched) .nil)) fun _ _ searching => ?_
    exact ih ⟨parent, searching, sim.add h.hit matched, found, foundNode⟩

theorem evalLookup {s : EvalPhase.Scope E₁ P₁} {t : EvalPhase.Scope E₂ P₂} (h : sim.evalScope s t)
    (depth : ℕ) : sim.run sim.step (EvalPhase.lookup depth s) (EvalPhase.lookup depth t) := by
  have nil := sim.ptr (Pointer.immediate_canonical .nil 0)
  unfold EvalPhase.lookup
  refine sim.bind (sim.search h.expr depth ⟨h.env, sim.lit 1, sim.lit 0, nil, nil⟩)
    fun _ _ result => ?_
  refine sim.bind (sim.tagIs .recEnv result.foundNode) fun _ _ isRecursive => ?_
  refine sim.bind (sim.tagIs .function result.found) fun _ _ isFunction => ?_
  refine sim.bind (sim.both result.hit (.cons isRecursive (.cons isFunction .nil)))
    fun _ _ reclose => ?_
  refine sim.bind (sim.unhash3 result.found (.some reclose)) fun _ _ ⟨parameter, body, _⟩ => ?_
  refine sim.bind (sim.hashTag .function (.cons parameter (.cons body (.cons result.foundNode .nil)))
    (.some reclose)) fun _ _ closure => ?_
  refine sim.bind (sim.selectPointer reclose closure result.found) fun _ _ value => ?_
  refine sim.bind (sim.tagIn result.node _) fun _ _ isEnv => ?_
  refine sim.bind (sim.both result.searching (.cons isEnv .nil)) fun _ _ exceeded => ?_
  refine sim.bind (sim.choose exceeded (sim.fail h.env _) (sim.fail h.env _)) fun _ _ failed => ?_
  exact sim.choose result.hit ⟨value, h.env, h.cont, sim.lit 1⟩ failed

/-- Every rule of the evaluation phase leads to related outcomes. -/
theorem evalRun {s : EvalPhase.Scope E₁ P₁} {t : EvalPhase.Scope E₂ P₂} (h : sim.evalScope s t)
    (depth : ℕ) (rule : EvalRule) :
    sim.run sim.step (EvalPhase.run depth rule s) (EvalPhase.run depth rule t) := by
  cases rule with
  | terminal => exact sim.pure ⟨h.expr, h.env, h.cont, sim.lit 0⟩
  | selfEvaluating => exact sim.pure ⟨h.expr, h.env, h.cont, sim.lit 1⟩
  | thunk => exact sim.evalThunk h
  | lookup => exact sim.evalLookup h depth
  | quote => exact sim.evalQuote h
  | lambda => exact sim.evalLambda h
  | cond => exact sim.evalCond h
  | bindLet => exact sim.evalBinding h .bindLet
  | bindRec => exact sim.evalBinding h .bindRec
  | unary => exact sim.evalUnary h
  | binary => exact sim.evalBinary h
  | apply => exact sim.evalApply h
  | invalidExpr => exact sim.pure (sim.fail h.env _)

end Simulation

end FieldLisp
