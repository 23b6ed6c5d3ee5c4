import FieldLisp.Machine.ContRules
import FieldLisp.Proofs.Machine.Simulation

/-!
# The continuation phase in two models

* `Simulation.contPrelude`, `Simulation.contGuards`: models take a continuation apart in step, and
  find related guards;
* `Simulation.contRun`: every rule of the phase leads to related outcomes.
-/

namespace FieldLisp

open StepModel

/-- Scopes whose parts are related. -/
structure ContPhase.Scope.Related {E₁ E₂ P₁ P₂ : Type} (elem : E₁ → E₂ → Prop)
    (pointer : P₁ → P₂ → Prop) (s : Scope E₁ P₁) (t : Scope E₂ P₂) : Prop where
  value : pointer s.value t.value
  env : pointer s.env t.env
  cont : pointer s.cont t.cont
  ret : elem s.ret t.ret
  child0 : pointer s.child0 t.child0
  child1 : pointer s.child1 t.child1
  child2 : pointer s.child2 t.child2
  child3 : pointer s.child3 t.child3

namespace Simulation

variable {m₁ m₂ : Type → Type} {E₁ E₂ P₁ P₂ : Type} [Monad m₁] [Monad m₂] [ElementModel E₁]
  [ElementModel E₂] [PointerModel P₁] [PointerModel P₂] [StepModel m₁ E₁ P₁] [StepModel m₂ E₂ P₂]
  (sim : Simulation m₁ m₂ E₁ E₂ P₁ P₂)

/-- Scopes of the continuation phase that are related in a simulation. -/
abbrev contScope : ContPhase.Scope E₁ P₁ → ContPhase.Scope E₂ P₂ → Prop :=
  ContPhase.Scope.Related sim.elem sim.pointer

theorem returning {p r u : P₁} {q s w : P₂} {c : E₁} {d : E₂} (hvalue : sim.pointer p q)
    (henv : sim.pointer r s) (hcont : sim.pointer u w) (hc : sim.elem c d) :
    sim.run sim.step (ContPhase.returning p r u c) (ContPhase.returning q s w d) :=
  sim.bind (sim.hashTag .thunk
    (.cons hvalue (.cons (sim.ptr (Pointer.immediate_canonical .nil 0)) .nil)) (.some hc))
    fun _ _ thunk => sim.pure ⟨thunk, henv, hcont, sim.lit 0⟩

section
variable {s : ContPhase.Scope E₁ P₁} {t : ContPhase.Scope E₂ P₂} (h : sim.contScope s t)
include h

theorem contCall0 : sim.run sim.step (ContPhase.call0 s) (ContPhase.call0 t) := by
  unfold ContPhase.call0
  refine sim.bind (sim.tagIs .function h.value) fun _ _ isFunction => ?_
  refine sim.bind (sim.unhash3 h.value (.some isFunction))
    fun _ _ ⟨parameter, body, functionEnv⟩ => ?_
  refine sim.bind (sim.pointerEq parameter (sim.ptr (symbolPointer_canonical _)))
    fun _ _ nullary => ?_
  refine sim.bind (sim.choose isFunction (sim.fail h.env _) (sim.fail h.env _)) fun _ _ failed => ?_
  refine sim.bind (sim.both isFunction (.cons nullary .nil)) fun _ _ ok => ?_
  exact sim.choose ok ⟨body, functionEnv, h.child3, sim.lit 0⟩ failed

theorem contCall : sim.run sim.step (ContPhase.call s) (ContPhase.call t) := by
  unfold ContPhase.call
  refine sim.bind (sim.tagIs .function h.value) fun _ _ isFunction => ?_
  refine sim.bind (sim.hashTag .call2
    (.cons h.value (.cons h.child1 (.cons h.child2 (.cons h.child3 .nil)))) (.some isFunction))
    fun _ _ cont => ?_
  exact sim.choose isFunction ⟨h.child0, h.child2, cont, sim.lit 0⟩ (sim.fail h.env _)

theorem contCall2 : sim.run sim.step (ContPhase.call2 s) (ContPhase.call2 t) := by
  unfold ContPhase.call2
  refine sim.bind (sim.tagIs .function h.child0) fun _ _ isFunction => ?_
  refine sim.bind (sim.unhash3 h.child0 (.some isFunction))
    fun _ _ ⟨parameter, body, functionEnv⟩ => ?_
  refine sim.bind (sim.pointerEq parameter (sim.ptr (symbolPointer_canonical _)))
    fun _ _ nullary => ?_
  refine sim.bind (sim.tagIs .cons h.child1) fun _ _ hasMore => ?_
  refine sim.bind (sim.tagIs .nil h.child1) fun _ _ ends => ?_
  have proper := sim.oneOf (.cons hasMore (.cons ends .nil))
  refine sim.bind (sim.both isFunction (.cons (sim.no nullary) (.cons proper .nil)))
    fun _ _ ok => ?_
  refine sim.bind (sim.hashTag .env (.cons parameter (.cons h.value (.cons functionEnv .nil)))
    (.some ok)) fun _ _ env => ?_
  refine sim.bind (sim.both ok (.cons hasMore .nil)) fun _ _ chained => ?_
  refine sim.bind (sim.unhash2 h.child1 (.some chained)) fun _ _ ⟨nextArgument, rest⟩ => ?_
  refine sim.bind (sim.hashTag .call
    (.cons nextArgument (.cons rest (.cons h.child2 (.cons h.child3 .nil)))) (.some chained))
    fun _ _ call => ?_
  refine sim.bind (sim.selectPointer hasMore call h.child3) fun _ _ cont => ?_
  refine sim.bind (sim.choose isFunction (sim.fail h.env _) (sim.fail h.env _)) fun _ _ failed => ?_
  exact sim.choose ok ⟨body, env, cont, sim.lit 0⟩ failed

theorem contBinding (tag : Tag) :
    sim.run sim.step (ContPhase.binding tag s) (ContPhase.binding tag t) :=
  sim.bind (sim.hashTag tag (.cons h.child0 (.cons h.value (.cons h.child2 .nil))) .none)
    fun _ _ env => sim.pure ⟨h.child1, env, h.child3, sim.lit 0⟩

theorem contBranch : sim.run sim.step (ContPhase.branch s) (ContPhase.branch t) :=
  sim.bind (sim.tagIs .nil h.value) fun _ _ isNil =>
    sim.bind (sim.selectPointer isNil h.child1 h.child0) fun _ _ chosen =>
      sim.pure ⟨chosen, h.child2, h.child3, sim.lit 0⟩

theorem contBinary : sim.run sim.step (ContPhase.binary s) (ContPhase.binary t) := by
  have nil := sim.ptr (Pointer.immediate_canonical .nil 0)
  refine sim.bind (sim.hashTag .binary2
    (.cons h.child0 (.cons h.value (.cons nil (.cons h.child3 .nil)))) .none) fun _ _ cont => ?_
  exact sim.pure ⟨h.child1, h.child2, cont, sim.lit 0⟩

end

/-! ## Taking a continuation apart, and the builtins -/

variable [LawfulMonad m₁] [LawfulMonad m₂]

theorem contPrelude {x : Step E₁ P₁} {y : Step E₂ P₂} (h : sim.step x y) :
    sim.run sim.contScope (ContPhase.prelude x) (ContPhase.prelude y) := by
  unfold ContPhase.prelude
  refine sim.bind (sim.tagIn h.cont _) fun _ _ isNode => ?_
  refine sim.bind (sim.both h.ret (.cons isNode .nil)) fun _ _ returning => ?_
  refine sim.bind (sim.unhash 4 h.cont (.some returning)) fun _ _ children => ?_
  exact sim.pure ⟨h.expr, h.env, h.cont, h.ret, sim.child children 0, sim.child children 1,
    sim.child children 2, sim.child children 3⟩

section
variable {s : ContPhase.Scope E₁ P₁} {t : ContPhase.Scope E₂ P₂} (h : sim.contScope s t)
include h

theorem contGuards : sim.run (FlagsRelated sim.elem) (ContPhase.guards s) (ContPhase.guards t) := by
  unfold ContPhase.guards
  refine sim.bind (sim.mapM (fun k x y => x.1 = k.1 ∧ y.1 = k.1 ∧ sim.elem x.2 y.2)
    (fun k => ?_) _) fun _ _ tagged => ?_
  · refine sim.bind (sim.tagIs k.2 h.cont) fun _ _ isTag => ?_
    exact sim.bind (sim.both h.ret (.cons isTag .nil)) fun _ _ guard => sim.pure ⟨rfl, rfl, guard⟩
  have tagged : FlagsRelated sim.elem _ _ :=
    tagged.imp fun _ _ ⟨_, hx, hy, hxy⟩ => ⟨hx.trans hy.symm, hxy⟩
  refine sim.bind (sim.tagIn h.cont _) fun _ _ isKnown => ?_
  refine sim.bind (sim.both h.ret (.cons (sim.no isKnown) .nil)) fun _ _ invalidCont => ?_
  exact sim.pure (.cons ⟨rfl, sim.no h.ret⟩
    (List.rel_append tagged (.cons ⟨rfl, invalidCont⟩ .nil)))

theorem contUnary : sim.run sim.step (ContPhase.unary s) (ContPhase.unary t) := by
  have nil := sim.ptr (Pointer.immediate_canonical .nil 0)
  unfold ContPhase.unary
  refine sim.bind (sim.pointerFlags h.child0 (fun op => (Form.unary op).symbol)
    (fun _ => Form.symbol_canonical _) _) fun _ _ isOp => ?_
  refine sim.bind (sim.tagIs .cons h.value) fun _ _ isCons => ?_
  refine sim.bind (sim.tagIs .nil h.value) fun _ _ isNil => ?_
  refine sim.bind (sim.tagIs .commitment h.value) fun _ _ isCommitment => ?_
  have op (op : UnaryOp) := sim.flag isOp op
  have listOp := sim.oneOf (.cons (op .car) (.cons (op .cdr) .nil))
  have commitmentOp := sim.oneOf (.cons (op .secret) (.cons (op .payload) .nil))
  refine sim.bind (sim.both listOp (.cons isCons .nil)) fun _ _ splitsPair => ?_
  refine sim.bind (sim.both commitmentOp (.cons isCommitment .nil)) fun _ _ splitsCommitment => ?_
  have splits := sim.oneOf (.cons splitsPair (.cons splitsCommitment .nil))
  refine sim.bind (sim.unhash2 h.value (.some splits)) fun _ _ ⟨first, second⟩ => ?_
  have takesFirst := sim.oneOf (.cons (op .car) (.cons (op .secret) .nil))
  refine sim.bind (sim.selectPointer takesFirst first second) fun _ _ part => ?_
  refine sim.bind (sim.selectPointer isNil nil part) fun _ _ part => ?_
  have isList := sim.oneOf (.cons isCons (.cons isNil .nil))
  refine sim.bind (sim.both listOp (.cons (sim.no isList) .nil)) fun _ _ badList => ?_
  refine sim.bind (sim.both commitmentOp (.cons (sim.no isCommitment) .nil))
    fun _ _ badCommitment => ?_
  have badArgument := sim.oneOf (.cons badList (.cons badCommitment .nil))
  have knownOp := sim.oneOf (sim.flags isOp)
  refine sim.bind (sim.both knownOp (.cons (sim.no badArgument) .nil)) fun _ _ ok => ?_
  refine sim.bind (sim.both ok (.cons (op .commit) .nil)) fun _ _ commits => ?_
  have blinding := sim.ptr (Pointer.immediate_canonical .number 0)
  refine sim.bind (sim.hashTag .commitment (.cons blinding (.cons h.value .nil)) (.some commits))
    fun _ _ commitment => ?_
  refine sim.bind (sim.both ok (.cons (op .emit) .nil)) fun _ _ emits => ?_
  refine sim.bind (sim.emit h.value (.some emits)) fun _ _ _ => ?_
  refine sim.bind (sim.truth (sim.no isCons)) fun _ _ isAtom => ?_
  refine sim.bind (sim.selectPointer (op .emit) h.value part) fun _ _ reported => ?_
  refine sim.bind (sim.selectPointer (op .commit) commitment reported) fun _ _ built => ?_
  refine sim.bind (sim.selectPointer (op .atom) isAtom built) fun _ _ result => ?_
  refine sim.bind (sim.select knownOp (sim.lit _) (sim.lit _)) fun _ _ code => ?_
  refine sim.bind (sim.returning result h.env h.child3 ok) fun _ _ succeeded => ?_
  refine sim.bind (sim.failWith h.env code) fun _ _ failed => ?_
  exact sim.choose ok succeeded failed

theorem contBinary2 : sim.run sim.step (ContPhase.binary2 s) (ContPhase.binary2 t) := by
  unfold ContPhase.binary2
  refine sim.bind (sim.pointerFlags h.child0 (fun op => (Form.binary op).symbol)
    (fun _ => Form.symbol_canonical _) _) fun _ _ isOp => ?_
  have op (op : BinaryOp) := sim.flag isOp op
  refine sim.bind (sim.payload h.child1) fun _ _ x => ?_
  refine sim.bind (sim.payload h.value) fun _ _ y => ?_
  refine sim.bind (sim.tagIs .number h.child1) fun _ _ aNumber => ?_
  refine sim.bind (sim.tagIs .number h.value) fun _ _ bNumber => ?_
  refine sim.bind (sim.both aNumber (.cons bNumber .nil)) fun _ _ numbers => ?_
  refine sim.bind (sim.div x y) fun _ _ ⟨quotient, yZero⟩ => ?_
  refine sim.bind (sim.isSmall x) fun _ _ xSmall => ?_
  refine sim.bind (sim.isSmall y) fun _ _ ySmall => ?_
  refine sim.bind (sim.both xSmall (.cons ySmall .nil)) fun _ _ small => ?_
  refine sim.bind (sim.both (op .rem) (.cons numbers (.cons small (.cons (sim.no yZero) .nil))))
    fun _ _ divides => ?_
  refine sim.bind (sim.divRem x y (.some divides)) fun _ _ ⟨_, remainder⟩ => ?_
  refine sim.bind (sim.mul x y) fun _ _ product => ?_
  refine sim.bind (sim.select (op .div) quotient remainder) fun _ _ value => ?_
  refine sim.bind (sim.select (op .mul) product value) fun _ _ value => ?_
  refine sim.bind (sim.select (op .sub) (sim.sub x y) value) fun _ _ value => ?_
  refine sim.bind (sim.select (op .add) (sim.add x y) value) fun _ _ value => ?_
  have swapped := sim.oneOf (.cons (op .greater) (.cons (op .atMost) .nil))
  have negated := sim.oneOf (.cons (op .atMost) (.cons (op .atLeast) .nil))
  refine sim.bind (sim.select swapped y x) fun _ _ smaller => ?_
  refine sim.bind (sim.select swapped x y) fun _ _ larger => ?_
  refine sim.bind (sim.less smaller larger) fun _ _ isLess => ?_
  refine sim.bind (sim.exclusive isLess negated) fun _ _ ordered => ?_
  refine sim.bind (sim.equal x y) fun _ _ areEqual => ?_
  refine sim.bind (sim.pointerEq h.child1 h.value) fun _ _ areSame => ?_
  refine sim.bind (sim.select (op .same) areSame ordered) fun _ _ verdict => ?_
  refine sim.bind (sim.select (op .equal) areEqual verdict) fun _ _ verdict => ?_
  have arithmetic := sim.oneOf (sim.flagsOf isOp id [.add, .sub, .mul, .div, .rem])
  have numeric := sim.oneOf (.cons arithmetic
    (sim.flagsOf isOp id [.equal, .less, .greater, .atMost, .atLeast]))
  refine sim.bind (sim.hashTag .cons (.cons h.child1 (.cons h.value .nil)) (.some (op .cons)))
    fun _ _ pair => ?_
  refine sim.bind (sim.both (op .hide) (.cons aNumber .nil)) fun _ _ hides => ?_
  refine sim.bind (sim.hashTag .commitment (.cons h.child1 (.cons h.value .nil)) (.some hides))
    fun _ _ commitment => ?_
  refine sim.bind (sim.number value) fun _ _ number => ?_
  refine sim.bind (sim.truth verdict) fun _ _ truth => ?_
  refine sim.bind (sim.selectPointer arithmetic number truth) fun _ _ computed => ?_
  refine sim.bind (sim.selectPointer (op .hide) commitment computed) fun _ _ built => ?_
  refine sim.bind (sim.selectPointer (op .cons) pair built) fun _ _ result => ?_
  have knownOp := sim.oneOf (sim.flags isOp)
  refine sim.bind (sim.both numeric (.cons (sim.no numbers) .nil)) fun _ _ badNumbers => ?_
  refine sim.bind (sim.both (op .rem) (.cons numbers (.cons (sim.no small) .nil)))
    fun _ _ badSize => ?_
  refine sim.bind (sim.both (op .hide) (.cons (sim.no aNumber) .nil)) fun _ _ badSecret => ?_
  have badArgument := sim.oneOf (.cons badNumbers (.cons badSize (.cons badSecret .nil)))
  have divisionOp := sim.oneOf (.cons (op .div) (.cons (op .rem) .nil))
  refine sim.bind (sim.both divisionOp (.cons numbers (.cons yZero .nil))) fun _ _ byZero => ?_
  refine sim.bind (sim.both knownOp (.cons (sim.no badArgument) (.cons (sim.no byZero) .nil)))
    fun _ _ ok => ?_
  refine sim.bind (sim.select badArgument (sim.lit _) (sim.lit _)) fun _ _ reason => ?_
  refine sim.bind (sim.select knownOp reason (sim.lit _)) fun _ _ code => ?_
  refine sim.bind (sim.returning result h.env h.child3 ok) fun _ _ succeeded => ?_
  refine sim.bind (sim.failWith h.env code) fun _ _ failed => ?_
  exact sim.choose ok succeeded failed

/-- Every rule of the continuation phase leads to related outcomes. -/
theorem contRun (rule : ContRule) :
    sim.run sim.step (ContPhase.run rule s) (ContPhase.run rule t) := by
  have terminal := sim.ptr (Pointer.immediate_canonical .terminal 0)
  cases rule with
  | pass => exact sim.pure ⟨h.value, h.env, h.cont, sim.lit 0⟩
  | outermost => exact sim.pure ⟨h.value, h.env, terminal, sim.lit 0⟩
  | call0 => exact sim.contCall0 h
  | call => exact sim.contCall h
  | call2 => exact sim.contCall2 h
  | bindLet => exact sim.contBinding h .env
  | bindRec => exact sim.contBinding h .recEnv
  | branch => exact sim.contBranch h
  | unary => exact sim.contUnary h
  | binary => exact sim.contBinary h
  | binary2 => exact sim.contBinary2 h
  | invalidCont => exact sim.pure (sim.fail h.env _)

end

end Simulation

end FieldLisp
