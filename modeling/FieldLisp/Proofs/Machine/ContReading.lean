import FieldLisp.Machine.ContRules
import FieldLisp.Proofs.Machine.EvalOutcome

/-!
# Reading the outcome of an evaluation

What the continuation phase reads off the state that the evaluation phase ends in. The children of
the continuation are there if there is a value to hand on and the continuation is a node.

* `ContPhase.Scope.Read`: what the rules of the phase see is right;
* `ContPhase.yields_prelude`: reading a state is not stuck;
* `ContPhase.firing`, `ContPhase.guards_eq`: the guard of exactly one rule holds.
-/

namespace FieldLisp.ContPhase

open StepModel MarkM

/-- What the rules of the phase see is right. The children of the continuation are there if the
evaluation phase `returns` a value. -/
structure Scope.Read (honest : Bool) (store : Store) (returns : Bool)
    (s : Scope (Marked Int) MarkedPointer) : Prop where
  value : Reliable store s.value
  env : Reliable store s.env
  cont : Reliable store s.cont
  ret : s.ret = .bit true returns
  child0 : Part honest store (returns && Tag.frames.contains s.cont.value.tag) s.child0
  child1 : Part honest store (returns && Tag.frames.contains s.cont.value.tag) s.child1
  child2 : Part honest store (returns && Tag.frames.contains s.cont.value.tag) s.child2
  child3 : Part honest store (returns && Tag.frames.contains s.cont.value.tag) s.child3
  contNode : (returns && Tag.frames.contains s.cont.value.tag) = true →
    store.nodes[s.cont.value]? =
      some [s.child0.value, s.child1.value, s.child2.value, s.child3.value]

variable {c : Setting}

theorem arity_of_frame {tag : Tag} (h : Tag.frames.contains tag = true) : tag.arity? = some 4 := by
  cases tag <;> first | rfl | cases h

theorem yields_prelude (hcomputes : c.Computes) (hproper : c.Proper) {W : MarkWorld}
    (hsound : W.store.Sound) {mid : Step (Marked Int) MarkedPointer} {returns : Bool}
    (hmid : mid.Concluded W.store) (hret : mid.ret = .bit true returns) :
    (prelude mid : MarkM c _).Yields W fun s W' =>
      W'.store = W.store ∧ s.value = mid.expr ∧ s.env = mid.env ∧ s.cont = mid.cont ∧
        s.Read c.honest W.store returns := by
  unfold prelude
  rw [tagIn_eq (by decide) (by decide) (by decide) (.inl hmid.cont.sure), pure_bind, hret,
    hmid.cont.sure, both_cons, both_nil, pure_bind, yields_bind]
  refine yields_unhash 4 hproper hsound (admits_bit (fun _ _ => rfl) fun _ => rfl) (fun hon => ?_)
    fun children W' hW' hnode hchildren => yields_pure.2 ?_
  · rw [on_bit, Bool.and_eq_true, Bool.and_eq_true] at hon
    exact ⟨hmid.cont, arity_of_frame hon.2.2⟩
  · rw [on_bit, hcomputes.gate, Bool.true_and] at hnode hchildren
    exact ⟨hW'.store, rfl, rfl, rfl, hmid.expr, hmid.env, hmid.cont, rfl,
      (hchildren 0 (by omega)).part hcomputes, (hchildren 1 (by omega)).part hcomputes,
      (hchildren 2 (by omega)).part hcomputes, (hchildren 3 (by omega)).part hcomputes, hnode⟩

/-! ## Guards -/

/-- The rule for a continuation that takes a value. -/
def tagRule : Tag → ContRule
  | .outermost => .outermost
  | .call0 => .call0
  | .call => .call
  | .call2 => .call2
  | .bindLet => .bindLet
  | .bindRec => .bindRec
  | .branch => .branch
  | .unary => .unary
  | .binary => .binary
  | .binary2 => .binary2
  | _ => .invalidCont

/-- The rule that the continuation phase follows. -/
def firing (returns : Bool) (cont : Pointer) : ContRule :=
  if returns then tagRule cont.tag else .pass

/-- The guard of one rule holds, and no other. -/
theorem guards_eq {s : Scope (Marked Int) MarkedPointer} {store : Store} {returns : Bool}
    (h : s.Read c.honest store returns) : (guards s : MarkM c _) = pure (ContRule.all.map fun rule =>
      (rule, .bit true (rule == firing returns s.cont.value))) := by
  have htagged {guard : ContRule × Tag → MarkM c (ContRule × Marked Int)} (hguard : ∀ p, guard p =
      pure (p.1, .bit true (returns && s.cont.value.tag == p.2))) : ruleTags.mapM guard =
        pure (ruleTags.map fun p => (p.1, .bit true (returns && s.cont.value.tag == p.2))) := by
    rw [← List.mapM_pure]
    exact congrArg (ruleTags.mapM ·) (funext hguard)
  unfold guards
  rw [htagged fun p => by simp [h.ret, h.cont.sure], pure_bind,
    tagIn_eq (by decide) (by decide) (by decide) (.inl h.cont.sure), pure_bind]
  simp only [h.ret, h.cont.sure, no_bit, both_cons, both_nil, pure_bind, firing]
  congr 1
  generalize s.cont.value.tag = tag
  cases returns with
  | false => rfl
  | true => cases tag <;> rfl

end FieldLisp.ContPhase
