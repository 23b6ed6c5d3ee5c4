import FieldLisp.Proofs.Machine.Safety
import FieldLisp.Proofs.Store.Requests

/-!
# Values that are emitted

To emit a value is to write it out, so a step that emits goes as far as written forms do:

* `Machine.middle_of_evalPhase`: what is known between the phases when the first one has returned a value;
* `Machine.emission`: a pointer has a written form exactly if that form shows no error value without a name, and a
  step that emits such a value hands it on and records it; it fails on any other value.
-/

namespace FieldLisp

open Store

variable {config : Config} {st : State} {s : Store} {rule : EvalRule} {v env cont a b k : Pointer} {w : Workspace}

namespace Machine

/-- The computation of the first phase and its outcome say the same. -/
theorem middle_of_evalPhase (hs : s.Sound) (hst : st.Held s)
    (h : evalPhase config st (.ofStore s) = .ok (rule, ⟨v, env, cont, 1⟩) w) :
    middle config st s = (⟨⟨v, env, cont⟩, true⟩, w.store) := by
  obtain ⟨w', heval, hw', -⟩ := gives_evalPhase config hs hst (.ofStore s) rfl
  rcases hmiddle : middle config st s with ⟨⟨⟨v', env', cont'⟩, returned⟩, t⟩
  rw [hmiddle] at heval hw'
  rw [heval, EStateM.Result.ok.injEq, Prod.mk.injEq, Outcome.toStep, Step.mk.injEq] at h
  obtain ⟨⟨-, rfl, rfl, rfl, hreturned⟩, rfl⟩ := h
  cases returned with
  | false => cases hreturned
  | true => rw [hw']

/-- A node that is new is taken in under its pointer. -/
theorem nodes_put_of_fresh {tag : Tag} {cs : List Pointer} (hs : s.Sound) (htag : tag.arity? = some cs.length)
    (hcs : ∀ c ∈ cs, s.Holds c) (hfresh : nodePointer tag cs ∉ s.nodes) :
    (s.put tag cs).nodes = s.nodes.insertIfNew (nodePointer tag cs) cs := by
  have hnew : s.internedAs? tag cs = none := by
    cases hfound : s.internedAs? tag cs with
    | none => rfl
    | some p =>
      obtain ⟨rfl, hp⟩ := hs.interned hfound
      exact absurd (Std.HashMap.mem_iff_contains.2 hp) hfresh
  rw [put, after_internNode hs (checkNode_ok htag hcs), record_of_fresh hnew]

/-- A value that is handed to the builtin `emit` is reported, and goes on as it is. -/
theorem next_emit (hmiddle : middle config st s = (⟨⟨v, env, cont⟩, true⟩, w.store)) (htag : cont.tag = .unary)
    (hnode : w.store.nodes[cont]? = some [(Form.unary .emit).symbol, a, b, k]) :
    report? config st s = some v ∧ (next config st s).1 = ⟨nodePointer .thunk [v, .nil], env, k⟩ := by
  have hoperator : w.store.part cont 0 = (Form.unary .emit).symbol := part_of_node hnode 0
  have hcont : w.store.part cont 3 = k := part_of_node hnode 3
  constructor
  · unfold report? ContPhase.reported
    rw [hmiddle]
    exact if_pos ⟨rfl, htag, by rw [hoperator, unaryOf?_symbol]⟩
  · simp only [next, hmiddle, ContPhase.reduct, ContPhase.resume, htag, if_true, hoperator, hcont, applyUnary,
      unaryOf?_symbol, unaryValue, ContPhase.handOn]

/-- In a store that operations built, a pointer has a written form exactly if that form shows no error value without a
name, and else the fault says the code that has none. If the evaluation phase of a step returns a value to the builtin
`emit`, the step hands that value on to the next continuation and records it, and nothing else, provided that it has a
written form; otherwise the step fails. -/
theorem emission (hreachable : Reachable s) :
    (∀ p, s.Holds p →
      ((∃ text, s.render p = .ok text) ↔ s.Writable p) ∧
      ∀ fault, s.render p = .error fault → ∃ q value,
        Relation.ReflTransGen s.Shows p q ∧ Nameless q value ∧ fault = .unknownErrorCode value) ∧
    ∀ config st rule v env cont a b k w, State.Held st s →
      evalPhase config st (.ofStore s) = .ok (rule, ⟨v, env, cont, 1⟩) w → cont.tag = .unary →
      w.store.fetch cont none = .ok [(Form.unary .emit).symbol, a, b, k] →
      (w.store.Writable v → ∃ F t, step config st s = .ok F t ∧
        F.output = ⟨nodePointer .thunk [v, .nil], env, k⟩ ∧ F.emitted = [v]) ∧
      (¬w.store.Writable v → ∃ q value, Relation.ReflTransGen w.store.Shows v q ∧ Nameless q value ∧
        step config st s = .error (.unknownErrorCode value) w.store) := by
  constructor
  · intro p hp
    refine ⟨exists_render_iff hreachable hp, fun fault hfault => ?_⟩
    obtain ⟨q, hq, hcause⟩ := (tells_render hreachable hp).2 fault hfault
    obtain rfl := List.mem_singleton.1 hq
    exact hcause
  · intro config st rule v env cont a b k w hst heval htag hfetch
    have hs := reachable_sound hreachable
    have hmiddle := middle_of_evalPhase hs hst heval
    obtain ⟨hreport, hnext⟩ := next_emit hmiddle htag (node_of_fetch hfetch)
    obtain ⟨hgrows, hmoves⟩ := middle_moves config hs hst
    rw [hmiddle] at hgrows hmoves
    have hv : w.store.Holds v := (State.held_iff.1 hmoves).1
    have htells := tells_render (hgrows.reachable hreachable) hv
    have hwritable := exists_render_iff (hgrows.reachable hreachable) hv
    constructor
    · intro h
      obtain ⟨text, htext⟩ := hwritable.2 h
      obtain ⟨F, hstep, hfollows⟩ := step_written config hs hst hreport (by rw [hmiddle]; exact htext)
      refine ⟨F, _, hstep, by rw [hfollows.output, hnext], ?_⟩
      rw [hfollows.emitted, hreport]
      rfl
    · intro h
      cases hrender : w.store.render v with
      | ok text => exact absurd (hwritable.1 ⟨text, hrender⟩) h
      | error fault =>
        obtain ⟨q, hq, r, value, hshows, hnameless, rfl⟩ := htells.2 fault hrender
        obtain rfl := List.mem_singleton.1 hq
        have hstep := step_unwritten config hs hst hreport (by rw [hmiddle]; exact hrender)
        rw [hmiddle] at hstep
        exact ⟨r, value, hshows, hnameless, hstep⟩

/-! ## A value without a written form -/

namespace Emitter

/-- What waits for a value to emit. -/
def emitting : List Pointer := [(Form.unary .emit).symbol, .nil, .nil, .outermost]

/-- An error value with a code that has no name, and the children of the thunk that holds it. -/
def nameless : Pointer := .immediate .error 99
def held : List Pointer := [nameless, .nil]

/-- The states in which a number and the error value are emitted. -/
def plain : State := ⟨.number 7, .nil, nodePointer .unary emitting⟩
def faulty : State := ⟨nodePointer .thunk held, .nil, nodePointer .unary emitting⟩

/-- The store with the two nodes. -/
def prepared : Store := ((Store.empty false).put .unary emitting).put .thunk held

theorem prepared_finds : Reachable prepared ∧ prepared.nodes[nodePointer .unary emitting]? = some emitting ∧
    prepared.nodes[nodePointer .thunk held]? = some held ∧ plain.Held prepared ∧ faulty.Held prepared := by
  have hempty := empty_sound false
  have hemitting : ∀ c ∈ emitting, (Store.empty false).Holds c := by
    simp only [emitting, List.forall_mem_cons, List.not_mem_nil, false_imp_iff, implies_true, and_true]
    exact ⟨inherited_holds.symbol hempty _, holds_nil _, holds_nil _,
      holds_immediate _ (Pointer.immediate_canonical .outermost 0) rfl⟩
  have harity : Tag.unary.arity? = some emitting.length := rfl
  obtain ⟨hgrows, hnode⟩ := grows_put hempty harity hemitting
  have hfirst := nodes_put_of_fresh hempty harity hemitting Std.HashMap.not_mem_empty
  have hheld : ∀ c ∈ held, ((Store.empty false).put .unary emitting).Holds c := by
    simp only [held, List.forall_mem_cons, List.not_mem_nil, false_imp_iff, implies_true, and_true]
    exact ⟨holds_immediate _ (Pointer.immediate_canonical .error 99) rfl, holds_nil _⟩
  have harity' : Tag.thunk.arity? = some held.length := rfl
  obtain ⟨hgrows', hthunk⟩ := grows_put hgrows.sound harity' hheld
  have hfresh : nodePointer .thunk held ∉ ((Store.empty false).put .unary emitting).nodes := by
    rw [hfirst, Std.HashMap.mem_insertIfNew]
    rintro (h | h)
    · exact absurd (congrArg Pointer.tag (beq_iff_eq.1 h)) (by decide)
    · exact Std.HashMap.not_mem_empty h
  have hsecond := nodes_put_of_fresh hgrows.sound harity' hheld hfresh
  have hfound : prepared.nodes[nodePointer .thunk held]? = some held := by
    rw [prepared, hsecond, Std.HashMap.getElem?_insertIfNew, if_pos ⟨beq_self_eq_true _, hfresh⟩]
  have hfound' : prepared.nodes[nodePointer .unary emitting]? = some emitting := by
    apply hgrows'.extends_.node
    rw [hfirst, Std.HashMap.getElem?_insertIfNew, if_pos ⟨beq_self_eq_true _, Std.HashMap.not_mem_empty⟩]
  have hnumber : prepared.Holds (.number 7) := holds_immediate _ (Pointer.immediate_canonical .number 7) rfl
  have hstates (e : Pointer) (he : prepared.Holds e) : State.Held ⟨e, .nil, nodePointer .unary emitting⟩ prepared :=
    State.held_iff.2 ⟨he, holds_nil _, hgrows'.holds hnode⟩
  exact ⟨(hgrows.trans hgrows').reachable (.empty false), hfound', hfound, hstates _ hnumber, hstates _ hthunk⟩

/-- The evaluation phase returns the value of an expression whose value is known. -/
theorem exists_evalPhase (config : Config) {st : State} {s : Store} {v : Pointer} (hs : s.Sound) (hst : st.Held s)
    (hmoving : st.isHalted = false) (hvalue : s.expression st.expr = .value v) :
    ∃ w, evalPhase config st (.ofStore s) = .ok (evalRule st s, ⟨v, st.env, st.cont, 1⟩) w ∧ w.store = s := by
  have hmiddle : middle config st s = (⟨⟨v, st.env, st.cont⟩, true⟩, s) := by
    unfold middle EvalPhase.reduct EvalPhase.evaluate
    rw [if_neg (by rw [hmoving]; exact Bool.false_ne_true)]
    dsimp only
    rw [hvalue]
    rfl
  obtain ⟨w, heval, hw, -⟩ := gives_evalPhase config hs hst (.ofStore s) rfl
  rw [hmiddle] at heval hw
  exact ⟨w, heval, hw⟩

end Emitter

/-- A number is emitted; an error value whose code has no name is not, and it stops the run. -/
theorem emission_nameless : Reachable Emitter.prepared ∧ Emitter.plain.Held Emitter.prepared ∧
    Emitter.faulty.Held Emitter.prepared ∧
    (∃ F t, step .standard Emitter.plain Emitter.prepared = .ok F t ∧
      F.output = ⟨nodePointer .thunk [.number 7, .nil], .nil, .outermost⟩ ∧ F.emitted = [.number 7]) ∧
    ∃ t, step .standard Emitter.faulty Emitter.prepared = .error (.unknownErrorCode 99) t := by
  obtain ⟨hreachable, hunary, hthunk, hplain, hfaulty⟩ := Emitter.prepared_finds
  have hs := reachable_sound hreachable
  have htag : (nodePointer .unary Emitter.emitting).tag = .unary := rfl
  have hfetch : Emitter.prepared.fetch (nodePointer .unary Emitter.emitting) none =
      .ok [(Form.unary .emit).symbol, .nil, .nil, .outermost] := by
    unfold fetch
    rw [hunary]
    rfl
  refine ⟨hreachable, hplain, hfaulty, ?_, ?_⟩
  · have hvalue : Emitter.prepared.expression Emitter.plain.expr = .value (.number 7) := rfl
    obtain ⟨w, heval, hw⟩ := Emitter.exists_evalPhase .standard hs hplain rfl hvalue
    have hwritable : w.store.Writable (.number 7) :=
      (tells_closed (p := .number 7) (by decide) (fun _ => rfl) ()).1 () rfl _ (List.mem_singleton_self _)
    exact ((emission hreachable).2 _ _ _ _ _ _ _ _ _ w hplain heval htag (by rw [hw]; exact hfetch)).1 hwritable
  · have hvalue : Emitter.prepared.expression Emitter.faulty.expr = .value Emitter.nameless := by
      have hpart : Emitter.prepared.part (nodePointer .thunk Emitter.held) 0 = Emitter.nameless :=
        part_of_node hthunk 0
      exact congrArg Expression.value hpart
    obtain ⟨w, heval, hw⟩ := Emitter.exists_evalPhase .standard hs hfaulty rfl hvalue
    have hnameless : Nameless Emitter.nameless 99 := ⟨rfl, rfl, by decide⟩
    have hunwritable : ¬w.store.Writable Emitter.nameless := fun h => h _ 99 .refl hnameless
    obtain ⟨q, value, hshows, hcause, hstep⟩ :=
      ((emission hreachable).2 _ _ _ _ _ _ _ _ _ w hfaulty heval htag (by rw [hw]; exact hfetch)).2 hunwritable
    cases hshows.cases_head with
    | inl heq =>
      subst heq
      cases hnameless.2.1.symm.trans hcause.2.1
      exact ⟨_, hstep⟩
    | inr hfirst =>
      obtain ⟨c, ⟨cs, -, hc⟩, -⟩ := hfirst
      cases hc

end Machine

end FieldLisp
