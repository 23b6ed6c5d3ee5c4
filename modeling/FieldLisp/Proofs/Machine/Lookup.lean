import FieldLisp.Proofs.Machine.Bounded

/-!
# The value of a symbol

A lookup inspects a bounded number of nodes and never stops early: after a hit it goes on with nothing enabled. Here it
is compared with a search of the list of nodes that an environment is.

* `Store.Binder`, `Store.BindersOf`: the nodes of an environment, from the innermost to the last;
* `Store.exists_bindersOf`: every environment in a store has such a list, and `Store.BindersOf.unique`: only one;
* `Store.search_eq_find`: the search finds the first node that binds the symbol, by induction on the chain;
* `Machine.gives_lookupPhase`: what the rule of symbols computes, wherever the symbol and the continuation are from;
* `Machine.lookup_finds_first`: the outcome of the rule is that of the search of the list.
-/

namespace FieldLisp

open Store Workspace

variable {s : Store} {sought env cont : Pointer}

namespace Store

/-! ## Environments -/

/-- A node of an environment, with the symbol that it binds and the value. -/
structure Binder where
  node : Pointer
  var : Pointer
  val : Pointer
  deriving DecidableEq, Repr

/-- The nodes of an environment in the store. What the last one extends has another tag. -/
inductive BindersOf (s : Store) : Pointer → List Binder → Prop
  | nil {env : Pointer} (hend : env.tag.isEnv = false) : BindersOf s env []
  | cons {env var val parent : Pointer} {binders : List Binder} (hnode : env.tag.isEnv = true)
      (hread : s.fetch env none = .ok [var, val, parent]) (hrest : BindersOf s parent binders) :
      BindersOf s env (⟨env, var, val⟩ :: binders)

/-- The value that a node gives its symbol. A function that is bound recursively is closed over the node. -/
inductive Binder.Gives (s : Store) (b : Binder) : Pointer → Prop
  | reclosed {arg body env : Pointer} (hnode : b.node.tag = .recEnv) (hval : b.val.tag = .function)
      (hread : s.fetch b.val none = .ok [arg, body, env]) : Gives s b (nodePointer .function [arg, body, b.node])
  | plain (hother : ¬(b.node.tag = .recEnv ∧ b.val.tag = .function)) : Gives s b b.val

variable {binders : List Binder}

/-- An environment has only one list of nodes. -/
theorem BindersOf.unique {others : List Binder} (h : s.BindersOf env binders) (h' : s.BindersOf env others) :
    binders = others := by
  induction h generalizing others with
  | nil hend =>
    cases h' with
    | nil _ => rfl
    | cons hnode _ _ => exact absurd hnode (by rw [hend]; exact Bool.false_ne_true)
  | cons hnode hread _ ih =>
    cases h' with
    | nil hend => exact absurd hnode (by rw [hend]; exact Bool.false_ne_true)
    | cons _ hread' hrest' =>
      cases hread.symm.trans hread'
      rw [ih hrest']

/-- Every environment in the store is a chain of nodes: by its level, for the parent of a node is below it. -/
theorem exists_bindersOf (hs : Reachable s) (henv : s.Holds env) : ∃ binders, s.BindersOf env binders := by
  have hsound := reachable_sound hs
  obtain ⟨level, hlevel⟩ := reachable_leveled hs
  induction hn : level env using Nat.strong_induction_on generalizing env with
  | _ n ih =>
    by_cases hnode : env.tag.isEnv = true
    · obtain ⟨cs, hread, hcs, hlength, hheld⟩ := exists_fetch hsound (Tag.arity_of_isEnv hnode) henv
      obtain ⟨var, val, parent, rfl⟩ := List.length_eq_three.1 hlength
      have hparent : level parent < n := by
        rw [← hn]
        exact hlevel.below hcs parent (by simp)
      obtain ⟨binders, hrest⟩ := ih _ hparent (hheld parent (by simp)) rfl
      exact ⟨_, .cons hnode hread hrest⟩
    · exact ⟨[], .nil (Bool.eq_false_iff.2 hnode)⟩

/-- What a chain lists is in the store. -/
theorem BindersOf.mem {b : Binder} (h : s.BindersOf env binders) (hb : b ∈ binders) :
    b.node.tag.isEnv = true ∧ ∃ parent, s.nodes[b.node]? = some [b.var, b.val, parent] := by
  induction h with
  | nil _ => cases hb
  | cons hnode hread _ ih =>
    rcases List.mem_cons.1 hb with rfl | hb
    · exact ⟨hnode, _, node_of_fetch hread⟩
    · exact ih hb

/-- The search comes to the first of the nodes it may inspect that binds the symbol. -/
theorem search_eq_find (h : s.BindersOf env binders) (depth : ℕ) :
    s.search sought depth env =
      match (binders.take depth).find? (·.var = sought) with
      | some b => .at b.node
      | none => if depth < binders.length then .beyond else .unbound := by
  induction h generalizing depth with
  | nil hend =>
    unfold search
    rw [if_neg (by rw [hend]; exact Bool.false_ne_true), List.take_nil]
    rfl
  | @cons env var val parent binders hnode hread _ ih =>
    have hvar : s.part env 0 = var := part_of_node (node_of_fetch hread) 0
    have hparent : s.part env 2 = parent := part_of_node (node_of_fetch hread) 2
    unfold search
    rw [if_pos hnode]
    cases depth with
    | zero => rfl
    | succ depth =>
      dsimp only
      rw [hvar, hparent, ih depth, List.take_succ_cons, List.find?_cons, List.length_cons]
      by_cases hfound : var = sought
      · simp [hfound]
      · simp [hfound]

/-- The value of a symbol that is found is the one that its node gives. -/
theorem lookup_of_found (hs : s.Sound) {depth : ℕ} {b : Binder} (h : s.BindersOf env binders)
    (hfind : (binders.take depth).find? (·.var = sought) = some b) :
    ∃ v t, s.lookup depth sought env = (.ok v, t) ∧ b.Gives s v := by
  obtain ⟨-, parent, hnode⟩ := h.mem (List.mem_of_mem_take (List.mem_of_find?_eq_some hfind))
  have hval : s.part b.node 1 = b.val := part_of_node hnode 1
  rw [lookup, search_eq_find h, hfind]
  dsimp only
  rw [hval]
  by_cases hreclose : b.node.tag = .recEnv ∧ b.val.tag = .function
  · have hheld : s.Holds b.val := (hs.node hnode).2.2 b.val (by simp)
    obtain ⟨cs, hread, hcs, hlength, -⟩ := exists_fetch hs (n := 3) (by rw [hreclose.2]; rfl) hheld
    obtain ⟨arg, body, inner, rfl⟩ := List.length_eq_three.1 hlength
    rw [if_pos hreclose, part_of_node hcs, part_of_node hcs]
    exact ⟨_, _, rfl, .reclosed hreclose.1 hreclose.2 hread⟩
  · rw [if_neg hreclose]
    exact ⟨_, _, rfl, .plain hreclose⟩

/-- A symbol that is not found is unbound if no node is left, and else the search ended too early to tell. -/
theorem lookup_of_missing {depth : ℕ} (h : s.BindersOf env binders)
    (hfind : (binders.take depth).find? (·.var = sought) = none) :
    s.lookup depth sought env =
      (.error (if depth < binders.length then .depthExceeded else .unboundVariable), s) := by
  rw [lookup, search_eq_find h, hfind]
  by_cases hmore : depth < binders.length
  · simp only [if_pos hmore]
  · simp only [if_neg hmore]

end Store

/-! ## The rule -/

namespace Machine

/-- The rule of symbols applies to a symbol that does not stand for itself, whatever waits for its value. -/
theorem firing_lookup (head : Pointer) (hsymbol : sought.tag = .symbol) (hname : sought ≠ Builtin.truthPointer)
    (hcont : cont.tag.isHalted = false) : EvalPhase.firing sought head cont = .lookup := by
  unfold EvalPhase.firing
  rw [Tag.contains_halts, hcont, hsymbol, beq_eq_false_iff_ne.2 hname]
  rfl

/-- The first phase of a step on a symbol. Neither the symbol nor the continuation needs to be in the store. -/
theorem gives_lookupPhase (config : Config) (hs : s.Sound) (hsymbol : sought.tag = .symbol)
    (hname : sought ≠ Builtin.truthPointer) (henv : env.tag.isEnv = true → s.Holds env)
    (hcont : cont.tag.isHalted = false) :
    let result := EvalPhase.deliver env cont (s.lookup config.lookupDepth sought env)
    Workspace.Gives (evalPhase config ⟨sought, env, cont⟩) s (.lookup, result.1.toStep) result.2 := by
  have hvariable : s.expression sought = .variable := by
    simp only [Store.expression, hsymbol, if_neg hname]
  have hrun : EvalPhase.Computes config.lookupDepth s sought env cont _ := EvalPhase.gives_lookup hs henv hsymbol hname
  unfold EvalPhase.Computes EvalPhase.evaluate at hrun
  dsimp only at hrun ⊢
  rw [hvariable] at hrun
  have hguards := EvalPhase.guards_view s sought env cont
  rw [firing_lookup _ hsymbol hname hcont] at hguards
  unfold evalPhase
  refine (gives_onCursor _ s).bind ((EvalPhase.gives_prelude hs fun h => ?_).bind ?_)
  · rw [hsymbol] at h
    cases h
  rw [hguards, pure_bind]
  refine (gives_ask (dispatch_map _ EvalRule.nodup_all (EvalRule.mem_all _))).bind ((gives_onCursor _ s).bind ?_)
  exact hrun.bind (gives_pure _ _)

/-- A lookup is a search of the nodes of the environment, with at most so many inspected. The value is that of the first
one that binds the symbol. If there is none among them the machine stops, for the depth was exceeded if there are more
nodes and the symbol is unbound if not. -/
theorem lookup_finds_first (hs : Reachable s) (config : Config) {binders : List Binder} (hsymbol : sought.tag = .symbol)
    (hname : sought ≠ Builtin.truthPointer) (hchain : s.BindersOf env binders) (hcont : cont.tag.isHalted = false) :
    ∃ o w, evalPhase config ⟨sought, env, cont⟩ (.ofStore s) = .ok (.lookup, o) w ∧ o.env = env ∧
      match (binders.take config.lookupDepth).find? (·.var = sought) with
      | some b => b.Gives s o.expr ∧ o.cont = cont ∧ o.ret = 1
      | none => o.cont = .failed ∧ o.ret = 0 ∧
        o.expr = .error (if config.lookupDepth < binders.length then .depthExceeded else .unboundVariable) := by
  have hsound := reachable_sound hs
  have henv : env.tag.isEnv = true → s.Holds env := by
    cases hchain with
    | nil hend => exact fun h => absurd h (by rw [hend]; exact Bool.false_ne_true)
    | cons _ hread _ => exact fun _ => hsound.contains_of_node (node_of_fetch hread)
  obtain ⟨w, hphase, -, -⟩ := gives_lookupPhase config hsound hsymbol hname henv hcont (.ofStore s) rfl
  refine ⟨_, w, hphase, ?_⟩
  cases hfind : (binders.take config.lookupDepth).find? (·.var = sought) with
  | none =>
    rw [lookup_of_missing hchain hfind]
    exact ⟨rfl, rfl, rfl, rfl⟩
  | some b =>
    obtain ⟨v, t, hlookup, hgives⟩ := lookup_of_found hsound hchain hfind
    rw [hlookup]
    exact ⟨rfl, hgives, rfl, rfl⟩

/-! ## A symbol that is bound twice -/

end Machine

namespace Shadowing

open Specimen (five)
open Capture (callee captured)

/-- The nodes of the environment. -/
def binders : List Binder := [⟨outer, captured, five⟩, ⟨middle, callee, function⟩, ⟨inner, callee, five⟩]

/-- A symbol that none of them binds. -/
def missing : Pointer := (Form.unary .car).symbol

/-- A store with the nodes. -/
theorem exists_prepared : ∃ s : Store, Reachable s ∧ s.BindersOf outer binders ∧
    s.fetch function none = .ok [Builtin.noParameterPointer, five, .nil] := by
  have hempty : (Store.empty false).Bounded {xs | xs ∈ preimages} :=
    .empty false fun _ hname => name_mem (List.mem_cons_of_mem _ (List.mem_cons_of_mem _ hname))
  obtain ⟨r, -, hr, -, hcallee⟩ := hempty.symbol (show "x" ≠ "nil" by decide) (name_mem (by simp [names]))
  obtain ⟨s, -, hs, hgrows, hcaptured⟩ := hr.symbol (show "y" ≠ "nil" by decide) (name_mem (by simp [names]))
  have hfive : s.Holds five := s.holds_immediate (Pointer.immediate_canonical _ _) rfl
  have hnone : s.Holds Builtin.noParameterPointer := (reachable_sound hs.reachable).holds_builtin (by decide)
  have hbase : ∀ p ∈ [.nil, five, Builtin.noParameterPointer, callee, captured], s.Holds p := by
    simp only [List.forall_mem_cons, List.not_mem_nil, false_imp_iff, implies_true, and_true]
    exact ⟨s.holds_nil, hfive, hnone, hgrows.holds hcallee, hcaptured⟩
  have hfounded : Founded [.nil, five, Builtin.noParameterPointer, callee, captured] listed := by
    simp [listed, Founded, Tag.arity?, function, inner, middle]
  obtain ⟨t, ht, -, hnodes⟩ := hs.putAll injOn_preimages hbase hfounded fun _ => mem_preimages
  have hfetch (tag : Tag) (cs : List Pointer) (harity : tag.arity? = some cs.length) (hlisted : (tag, cs) ∈ listed) :
      t.fetch (nodePointer tag cs) none = .ok cs := by
    simp only [fetch, nodePointer_tag, harity, hnodes _ hlisted]
    rfl
  have houter := hfetch .env [captured, five, middle] rfl (by simp [listed])
  have hmiddle := hfetch .recEnv [callee, function, inner] rfl (by simp [listed])
  have hinner := hfetch .env [callee, five, .nil] rfl (by simp [listed])
  exact ⟨t, ht.reachable, .cons rfl houter (.cons rfl hmiddle (.cons rfl hinner (.nil rfl))),
    hfetch .function _ rfl (by simp [listed])⟩

theorem symbols_distinct : callee ≠ Builtin.truthPointer ∧ missing ≠ Builtin.truthPointer ∧ captured ≠ callee ∧
    captured ≠ missing ∧ callee ≠ missing := by
  have hmissing : missing = symbolPointer UnaryOp.car.name := Form.symbol_eq (.unary .car)
  rw [hmissing]
  exact ⟨symbol_ne (by decide) (by decide) (by decide), symbol_ne (by decide) (by decide) (by decide),
    symbol_ne (by decide) (by decide) (by decide), symbol_ne (by decide) (by decide) (by decide),
    symbol_ne (by decide) (by decide) (by decide)⟩

end Shadowing

/-- The second of three nodes binds the symbol to a function, which is closed over this node, whatever the last one
binds it to. Another symbol is unbound if all nodes may be inspected. If only two may be, the depth is exceeded. -/
theorem Machine.lookup_finds_first_shadowing : ∃ s, Reachable s ∧ s.BindersOf Shadowing.outer Shadowing.binders ∧
    (∃ o w, evalPhase .standard ⟨Capture.callee, Shadowing.outer, .outermost⟩ (.ofStore s) = .ok (.lookup, o) w ∧
      o.env = Shadowing.outer ∧ o.cont = .outermost ∧
      o.expr = nodePointer .function [Builtin.noParameterPointer, Specimen.five, Shadowing.middle]) ∧
    (∃ o w, evalPhase ⟨3, none, none, by decide⟩ ⟨Shadowing.missing, Shadowing.outer, .outermost⟩ (.ofStore s) =
      .ok (.lookup, o) w ∧ o.expr = .error .unboundVariable) ∧
    ∃ o w, evalPhase ⟨2, none, none, by decide⟩ ⟨Shadowing.missing, Shadowing.outer, .outermost⟩ (.ofStore s) =
      .ok (.lookup, o) w ∧ o.expr = .error .depthExceeded := by
  obtain ⟨s, hs, hchain, hread⟩ := Shadowing.exists_prepared
  obtain ⟨hcallee, hmissing, hne, hne', hne''⟩ := Shadowing.symbols_distinct
  have hmoving : Pointer.outermost.tag.isHalted = false := rfl
  have hnone (depth : ℕ) : (Shadowing.binders.take depth).find? (·.var = Shadowing.missing) = none := by
    rw [List.find?_eq_none]
    intro b hb
    have hb := List.mem_of_mem_take hb
    simp only [Shadowing.binders, List.mem_cons, List.not_mem_nil, or_false] at hb
    rcases hb with rfl | rfl | rfl <;> simpa
  have hsome : (Shadowing.binders.take Config.standard.lookupDepth).find? (·.var = Capture.callee) =
      some ⟨Shadowing.middle, Capture.callee, Shadowing.function⟩ := by
    simp [Shadowing.binders, Config.standard, hne]
  refine ⟨s, hs, hchain, ?_, ?_, ?_⟩
  · obtain ⟨o, w, hphase, henv, hfound⟩ := lookup_finds_first hs .standard rfl hcallee hchain hmoving
    rw [hsome] at hfound
    obtain ⟨hgives, hcont, -⟩ := hfound
    refine ⟨o, w, hphase, henv, hcont, ?_⟩
    generalize o.expr = v at hgives
    cases hgives with
    | reclosed _ _ hread' =>
      cases hread.symm.trans hread'
      rfl
    | plain hplain => exact absurd ⟨rfl, rfl⟩ hplain
  · obtain ⟨o, w, hphase, -, hfound⟩ := lookup_finds_first hs ⟨3, none, none, by decide⟩ rfl hmissing hchain hmoving
    rw [hnone] at hfound
    exact ⟨o, w, hphase, hfound.2.2⟩
  · obtain ⟨o, w, hphase, -, hfound⟩ := lookup_finds_first hs ⟨2, none, none, by decide⟩ rfl hmissing hchain hmoving
    rw [hnone] at hfound
    exact ⟨o, w, hphase, hfound.2.2⟩

end FieldLisp
