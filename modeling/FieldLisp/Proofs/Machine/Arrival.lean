import FieldLisp.Proofs.Machine.Direct
import FieldLisp.Proofs.Machine.Pairs
import FieldLisp.Proofs.Machine.Reaching

/-!
# Arriving at values

The recursion and the machine work on different stores: that of the machine has taken in continuations
and thunks as well, and reads them back, so it must be without collisions. Where the recursion comes to
a value, the machine arrives at it with the continuation that it started with:

* `Direct.Task.state`, `Machine.Setting`: the state in which the machine sets out on a task;
* `Machine.Comes`: what steps lead to, a value for the continuation or an error;
* `Machine.comes_deliver`, `Machine.comes_handOn`: a value that is found, computed or in a thunk;
* `Machine.comes_bind`: a value goes to the node that waits for it.
-/

namespace FieldLisp

open Store

/-! ## Forms -/

section
variable {s : Store} {e rest list body var init : Pointer} {recursive : Bool} {more : Option Pointer}

theorem Store.cons_of_binding? (h : s.binding? list = some (var, init, more)) :
    ∀ q ∈ more, q.tag = .cons := by
  unfold binding? at h
  split at h
  · split at h
    · split at h
      · obtain ⟨more, hmore, hparts⟩ := Option.map_eq_some_iff.1 h
        cases hparts
        exact fun q hq => (of_rest? hmore q hq).2
      · cases h
    · cases h
  · cases h

theorem Store.cons_of_bindExpression {arguments : Pointer} {kind : Bool}
    (h : s.bindExpression kind arguments = .bind recursive var init more body) :
    ∀ q ∈ more, q.tag = .cons := by
  unfold bindExpression at h
  split at h
  · split at h
    · cases h
    · split at h
      · cases h
        exact cons_of_binding? ‹_›
      · cases h
  · cases h

/-- The bindings that are left are a pair. -/
theorem Store.cons_of_expression (h : s.expression e = .bind recursive var init more body) :
    ∀ q ∈ more, q.tag = .cons := by
  cases htag : e.tag with
  | cons =>
    cases hform : formOf? (s.car e) with
    | none =>
      rw [expression_of_call htag hform, callExpression] at h
      split_ifs at h
    | some form =>
      rw [expression_of_form htag hform] at h
      cases form with
      | bindLet => exact cons_of_bindExpression h
      | bindRec => exact cons_of_bindExpression h
      | _ =>
        unfold formExpression at h
        dsimp only at h
        split at h <;> first | cases h | (split at h <;> cases h)
  | symbol =>
    simp only [expression, htag] at h
    split_ifs at h
  | _ =>
    simp only [expression, htag] at h
    cases h

end

/-- Two stores go on to take in the same function. -/
theorem Direct.agrees_close {s m : Store} {parameter body env : Pointer} {more : Option Pointer}
    (h : s.Within m) (hs : s.Sound) (hm : m.Sound) (hparameter : s.Holds parameter)
    (hmore : ∀ p ∈ more, s.Holds p) (hbody : s.Holds body) (henv : s.Holds env)
    (hfaithful : (close parameter more body env m).2.Faithful) :
    Agrees (close parameter more body env s) (close parameter more body env m) := by
  have hheld {p : Pointer} (hp : s.Holds p) : m.Holds p := h.extends_.holds hp
  obtain ⟨hgrows, hnested⟩ := inherited_holds.grows_putNested hs .lambda hmore hbody
  obtain ⟨hgrows', hnested'⟩ := inherited_holds.grows_putNested hm .lambda
    (fun p hp => hheld (hmore p hp)) (hheld hbody)
  have hchildren : ∀ c ∈ [parameter, nested .lambda more body, env],
      (s.putNested .lambda more body).Holds c := by
    simp [hgrows.holds hparameter, hnested, hgrows.holds henv]
  have hchildren' : ∀ c ∈ [parameter, nested .lambda more body, env],
      (m.putNested .lambda more body).Holds c := by
    simp [hgrows'.holds (hheld hparameter), hnested', hgrows'.holds (hheld henv)]
  have harity : Tag.function.arity? = some [parameter, nested .lambda more body, env].length := rfl
  obtain ⟨hput, -⟩ := grows_put hgrows'.sound harity hchildren'
  have hwithin := h.putNested hs hm .lambda hmore hbody (hput.faithful hfaithful)
  exact agrees_put hwithin hgrows.sound hgrows'.sound harity hchildren hfaithful

/-! ## Tasks -/

namespace Direct.Task

/-- The state in which the machine sets out on a task. What comes after the first value waits in the
continuation. -/
def state (cont : Pointer) : Task → State
  | .value expr env => ⟨expr, env, cont⟩
  | .bind recursive var init more body env =>
    ⟨init, env,
      nodePointer (bindTag recursive) [var, nested (bindForm recursive) more body, env, cont]⟩
  | .call function first others env => ⟨first, env, nodePointer .call2 [function, others, env, cont]⟩

/-- The continuation of that state is found, and so is the form of the bindings that are left. -/
def Framed (m : Store) (cont : Pointer) : Task → Prop
  | .value _ _ => True
  | .bind recursive var _ more body env =>
    let rest := nested (bindForm recursive) more body
    m.nodes[nodePointer (bindTag recursive) [var, rest, env, cont]]? = some [var, rest, env, cont] ∧
      ∀ list ∈ more, list.tag = .cons ∧ m.items 3 rest = some [(bindForm recursive).symbol, list, body]
  | .call function _ others env =>
    m.nodes[nodePointer .call2 [function, others, env, cont]]? = some [function, others, env, cont] ∧
      function.tag = .function

end Direct.Task

namespace Machine

open Direct
open ContPhase (resume handOn)
open EvalPhase (deliver)

variable {config : Config} {bound s t m u : Store} {st st' : State} {n n' : ℕ}
  {expr env cont inner base v : Pointer} {tag : Tag} {cs : List Pointer}
  {r : Except ErrorCode (Pointer × Store)}

/-- A task on the store of the recursion, and the state for it on the store of the machine. The continuation stands on
the one that the machine started with. -/
structure Setting (config : Config) (base : Pointer) (bound : Store) (n : ℕ) (job : Task) (cont : Pointer)
    (s m : Store) : Prop where
  sound : s.Sound
  sane : job.Of Sane s
  within : s.Within m
  stage : Stage config (some base) bound n (job.state cont) m
  framed : job.Framed m cont
  moving : cont.tag.isHalted = false
  above : m.Above cont base

/-- What less than so many steps lead to, none of which gives a value to the continuation that the machine started
with: a state that gives the value to the continuation, on a store that has all that the recursion has taken in,
or a state that fails. -/
def Comes (config : Config) (base : Pointer) (n : ℕ) (st : State) (m : Store) (cont : Pointer) :
    Except ErrorCode (Pointer × Store) → Prop
  | .ok (v, t) => ∃ k st' m' env u, k < n ∧ Reaches config (some base) k st m st' m' ∧
      middle config st' m' = (⟨⟨v, env, cont⟩, true⟩, u) ∧ t.Within u
  | .error code => ∃ env u, Reaches config (some base) n st m (.fail env code) u

theorem Comes.mono (h : Comes config base n st m cont r) (hn : n ≤ n') : Comes config base n' st m cont r := by
  cases r with
  | ok found =>
    obtain ⟨k, st', m', env, u, hk, hrest⟩ := h
    exact ⟨k, st', m', env, u, hk.trans_le hn, hrest⟩
  | error code =>
    obtain ⟨env, u, hreaches⟩ := h
    exact ⟨env, u, hreaches.mono hn⟩

theorem Reaches.comes (h : Reaches config (some base) n st m st' u) (hrest : Comes config base n' st' u cont r) :
    Comes config base (n + n') st m cont r := by
  cases r with
  | ok found =>
    obtain ⟨k, st'', m', env, u, hk, hreaches, hmiddle⟩ := hrest
    exact ⟨n + k, st'', m', env, u, Nat.add_lt_add_left hk n, h.trans hreaches, hmiddle⟩
  | error code =>
    obtain ⟨env, u, hreaches⟩ := hrest
    exact ⟨env, u, h.trans hreaches⟩

theorem comes_fail (env : Pointer) (code : ErrorCode) (u : Store) :
    Comes config base n (.fail env code) u cont (.error code) := ⟨env, u, .refl n _ u⟩

/-! ## Single steps -/

/-- A step that takes a node in and evaluates something first. -/
theorem Stage.push (hbound : bound.Faithful) (h : Stage config (some base) bound (n + 1) st m) (hu : u.Sound)
    (htag : tag.arity? = some cs.length) (hcs : ∀ c ∈ cs, u.Holds c)
    (hmiddle : middle config st m = EvalPhase.push env expr tag cs u) :
    Reaches config (some base) 1 st m ⟨expr, env, nodePointer tag cs⟩ (u.put tag cs) ∧
      Stage config (some base) bound n ⟨expr, env, nodePointer tag cs⟩ (u.put tag cs) ∧
      (u.put tag cs).nodes[nodePointer tag cs]? = some cs := by
  obtain ⟨hreaches, hstage, -⟩ := h.silent hmiddle
  exact ⟨hreaches, hstage, node_put hu htag hcs (hstage.faithful hbound)⟩

theorem middle_of_moving (hmoving : cont.tag.isHalted = false) (expr env : Pointer) (m : Store) :
    middle config ⟨expr, env, cont⟩ m = EvalPhase.evaluate config.lookupDepth ⟨expr, env, cont⟩ m := by
  unfold middle EvalPhase.reduct State.isHalted
  rw [hmoving]
  rfl

theorem deliver_snd (env cont : Pointer) (result : Except ErrorCode Pointer × Store) :
    (deliver env cont result).2 = result.2 := by
  obtain ⟨found, u⟩ := result
  cases found <;> rfl

/-- A step that finds or computes a value. -/
theorem comes_deliver {result : Store → Except ErrorCode Pointer × Store}
    {result' : Except ErrorCode Pointer × Store} (hbound : bound.Faithful) (h : Stage config (some base) bound 1 st m)
    (hmiddle : middle config st m = deliver env cont result')
    (hagrees : result'.2.Faithful → Agrees (result s) result') (hr : EvalM.compute result s = some r) :
    Comes config base 1 st m cont r := by
  have hfaithful : result'.2.Faithful := by
    have hsound := (middle_moves config h.sound h.held).1.sound
    have hwithin := h.middle_within Nat.one_pos
    rw [hmiddle, deliver_snd] at hsound hwithin
    exact hwithin.faithful hsound hbound
  obtain ⟨hsame, hwithin⟩ := hagrees hfaithful
  obtain ⟨found, u⟩ := result'
  rcases EvalM.compute_cases hr with ⟨v, t, hv, rfl⟩ | ⟨code, t, hcode, rfl⟩
  · rw [hv] at hsame hwithin
    cases hsame
    exact ⟨0, st, m, env, u, Nat.one_pos, .refl 0 st m, hmiddle, hwithin⟩
  · rw [hcode] at hsame
    cases hsame
    obtain ⟨hreaches, -⟩ := h.silent (n := 0) hmiddle
    exact ⟨env, u, hreaches⟩

/-- A value in a thunk is given to the continuation. -/
theorem comes_handOn {result : Store → Except ErrorCode Pointer × Store}
    {result' : Except ErrorCode Pointer × Store} (hbound : bound.Faithful)
    (hmoving : cont.tag.isHalted = false) (hfinds : Finds Holds u result')
    (h : Stage config (some base) bound 1 (handOn env cont result').1 (handOn env cont result').2)
    (hagrees : result'.2.Faithful → Agrees (result s) result') (hr : EvalM.compute result s = some r) :
    Comes config base 1 (handOn env cont result').1 (handOn env cont result').2 cont r := by
  obtain ⟨found, w⟩ := result'
  obtain ⟨hgrows, hfound⟩ := hfinds
  cases found with
  | ok v =>
    have hchildren : ∀ c ∈ [v, .nil], w.Holds c := by simp [hfound v rfl, w.holds_nil]
    have harity : Tag.thunk.arity? = some [v, Pointer.nil].length := rfl
    obtain ⟨hput, -⟩ := grows_put hgrows.sound harity hchildren
    have hfaithful : (w.put .thunk [v, .nil]).Faithful := h.faithful hbound
    have hnode := node_put hgrows.sound harity hchildren hfaithful
    have hmiddle : middle config ⟨nodePointer .thunk [v, .nil], env, cont⟩ (w.put .thunk [v, .nil]) =
        (⟨⟨v, env, cont⟩, true⟩, w.put .thunk [v, .nil]) := by
      have hexpression : (w.put .thunk [v, .nil]).expression (nodePointer .thunk [v, .nil]) = .value v :=
        congrArg Expression.value (part_of_node hnode 0)
      rw [middle_of_moving hmoving, EvalPhase.evaluate, hexpression]
      rfl
    obtain ⟨hsame, hwithin⟩ := hagrees (hput.faithful hfaithful)
    rcases EvalM.compute_cases hr with ⟨v', t, hv, rfl⟩ | ⟨code, t, hcode, -⟩
    · rw [hv] at hsame hwithin
      cases hsame
      exact ⟨0, _, _, env, _, Nat.one_pos, .refl 0 _ _, hmiddle, hwithin.trans hput.within⟩
    · rw [hcode] at hsame
      cases hsame
  | error code =>
    obtain ⟨hsame, -⟩ := hagrees (h.faithful hbound)
    rcases EvalM.compute_cases hr with ⟨v, t, hv, -⟩ | ⟨code', t, hcode, rfl⟩
    · rw [hv] at hsame
      cases hsame
    · rw [hcode] at hsame
      cases hsame
      exact comes_fail env code w

/-! ## One value after the other -/

/-- A value on the store of the recursion and on that of the machine, both larger than before. -/
structure Returned (s t m u : Store) (v : Pointer) : Prop where
  grows : s.Grows t
  sane : Sane t v
  within : t.Within u
  grown : m.Grows u

/-- The step that gives a value to the continuation. -/
structure Gives (config : Config) (st : State) (m : Store) (v env cont : Pointer) (u : Store) (F : Frame) :
    Prop where
  step : step config st m = .ok F (resume ⟨v, env, cont⟩ u).2
  output : F.output = (resume ⟨v, env, cont⟩ u).1
  intermediate : F.intermediate = ⟨v, env, cont⟩
  returned : F.returned = true

/-- Steps that lead to a value are followed by one that gives it to the continuation. -/
theorem Comes.gives (hbound : bound.Faithful) (h : Stage config (some base) bound n st m)
    (hcomes : Comes config base n st m cont (.ok (v, t))) (hgrows : s.Grows t) (hv : Sane t v) :
    ∃ k st' m' env u F, k < n ∧ Reaches config (some base) k st m st' m' ∧ Gives config st' m' v env cont u F ∧
      Returned s t m u v := by
  obtain ⟨k, st', m', env, u, hk, hreaches, hmiddle, hwithin⟩ := hcomes
  have hroom : Stage config (some base) bound (k + (0 + 1)) st m := h.mono (by omega)
  obtain ⟨hstage, hgrown⟩ := hroom.reaches hreaches
  obtain ⟨hgrown', -⟩ := middle_moves config hstage.sound hstage.held
  have hu := hstage.middle_within Nat.one_pos
  rw [hmiddle] at hgrown' hu
  have hfaithful := hu.faithful hgrown'.sound hbound
  have hclean := hv.2 hgrows.sound (hwithin.faithful hgrows.sound hfaithful)
  have hclean' : u.Clean v := hclean.mono hwithin.extends_ hgrows.sound hgrown'.sound hv.1
  obtain ⟨F, hstep, hfollows, houtput⟩ := hstage.resumes hmiddle hclean'
  refine ⟨k, st', m', env, u, F, hk, hreaches, ⟨hstep, houtput, ?_, ?_⟩, ⟨hgrows, hv, hwithin, hgrown.trans hgrown'⟩⟩
  · rw [hfollows.intermediate, hmiddle]
  · rw [hfollows.returned, hmiddle]

/-- If it is another continuation than the one that the machine started with, steps go on from there. -/
theorem Comes.returns (hbound : bound.Faithful) (h : Stage config (some base) bound (n + n') st m)
    (hcomes : Comes config base n st m inner (.ok (v, t))) (hgrows : s.Grows t) (hv : Sane t v)
    (hinner : inner ≠ base) :
    ∃ k st' m' env u F, k < n ∧ Reaches config (some base) k st m st' m' ∧ Gives config st' m' v env inner u F ∧
      ¬HandsTo F (some base) ∧ Returned s t m u v ∧
      Stage config (some base) bound n' (resume ⟨v, env, inner⟩ u).1 (resume ⟨v, env, inner⟩ u).2 := by
  obtain ⟨k, st', m', env, u, F, hk, hreaches, hgives, hreturned⟩ :=
    hcomes.gives hbound (h.mono (Nat.le_add_right n n')) hgrows hv
  have hroom : Stage config (some base) bound (k + (n' + 1)) st m := h.mono (by omega)
  have hgoes : ¬HandsTo F (some base) := by
    rintro ⟨-, hlast⟩
    rw [hgives.intermediate] at hlast
    exact hinner (Option.some.inj hlast).symm
  obtain ⟨hnext, -⟩ := (hroom.reaches hreaches).1.next hgives.step hgoes
  rw [hgives.output] at hnext
  exact ⟨k, st', m', env, u, F, hk, hreaches, hgives, hgoes, hreturned, hnext⟩

/-- A first value goes to the node that waits for it. What this makes of it has to come to what the
recursion goes on to. -/
theorem comes_bind {x : EvalM Pointer} {f : Pointer → EvalM Pointer} (hbound : bound.Faithful)
    (h : Stage config (some base) bound (n + n') st m) (hr : (x >>= f) s = some r) (hpasses : Passes Sane s x)
    (hinner : inner ≠ base) (hx : ∀ r, x s = some r → Comes config base n st m inner r)
    (hf : ∀ v t env u, Returned s t m u v →
      Stage config (some base) bound n' (resume ⟨v, env, inner⟩ u).1 (resume ⟨v, env, inner⟩ u).2 →
      f v t = some r →
      Comes config base n' (resume ⟨v, env, inner⟩ u).1 (resume ⟨v, env, inner⟩ u).2 cont r) :
    Comes config base (n + n') st m cont r := by
  rcases EvalM.bind_eq_some.1 hr with ⟨code, hcode, rfl⟩ | ⟨v, t, hv, hrest⟩
  · obtain ⟨env, u, hreaches⟩ := hx _ hcode
    exact ⟨env, u, hreaches.mono (Nat.le_add_right n n')⟩
  · obtain ⟨hgrows, hsane⟩ := hpasses v t hv
    obtain ⟨k, st', m', env, u, F, hk, hreaches, hgives, hgoes, hreturned, hnext⟩ :=
      (hx _ hv).returns hbound h hgrows hsane hinner
    have hfirst := hreaches.trans (.step hgives.step hgoes)
    rw [hgives.output] at hfirst
    exact (hfirst.comes (hf v t env u hreturned hnext hrest)).mono (by omega)

end Machine

end FieldLisp
