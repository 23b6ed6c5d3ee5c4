import FieldLisp.Proofs.Machine.Bounded

/-!
# Calls with several arguments

A call with several arguments is a call of what the call with the first argument gives. The two runs keep the
arguments that are left in different continuations, and go on in one state once the first one is bound:

* `Machine.Captured`: both runs come to the evaluation of one expression and stay in it, until something collides;
* `Machine.Enters`: a frame hands an argument to a function, whose body is entered;
* `Machine.curried`: both runs stay in the evaluation of the function or of the first argument, or come to one
  state;
* `Specimen.call_halts`, `Specimen.curried_halts`: the calls `((lambda (x) x) (lambda (x) x) nil)` and
  `(((lambda (x) x) (lambda (x) x)) nil)`.
-/

namespace FieldLisp

variable {s t u : Store} {config : Config} {p a b : Pointer}

open Store

namespace Machine

/-- A call waits for its function: its first argument, those after it, and the environment. -/
def callNode (first others env : Pointer) : Waiting := ⟨.call, Tag.arity_call, first, others, env⟩

/-- A call waits for its first argument: its function, the arguments after it, and the environment. -/
def argumentNode (function others env : Pointer) : Waiting := ⟨.call2, Tag.arity_call2, function, others, env⟩

/-- Two runs come to the evaluation of one expression, the second one so many frames later, and stay in it for as many
frames as nothing collides in. -/
def Captured (config : Config) (lag : ℕ) (st : State) (s : Store) (st' : State) (s' : Store)
    (expr env base base' : Pointer) : Prop :=
  ∃ frames frames' t t', InStep config lag st s st' s' frames frames' base base' ⟨expr, env, []⟩ t t' ∧
    ∀ n, Apart config 0 n ⟨expr, env, base⟩ t ⟨expr, env, base'⟩ t' → ∃ more more' pursuit u u', more.length = n ∧
      InStep config lag st s st' s' (frames ++ more) (frames' ++ more') base base' pursuit u u'

/-- A run that halts before anything collides does not stay in an evaluation. -/
theorem Captured.not_halts {lag : ℕ} {st st' : State} {s' : Store} {expr env base base' : Pointer}
    (h : Captured config lag st s st' s' expr env base base') (hs : Reachable s) (hst : st.Held s)
    (hbase : base.tag.isHalted = false) (hapart : ∀ n, Apart config lag n st s st' s') {frames : List Frame}
    {final : State} (hran : RanTo config st s frames final t) : final.isHalted = false := by
  obtain ⟨before, before', m, m', hreached, hstays⟩ := h
  have hlater := (hapart (before.length + frames.length)).later hreached.left hreached.right rfl hreached.matched.length
  obtain ⟨more, more', pursuit, u, u', hlength, hlast⟩ := hstays _ hlater
  rw [Bool.eq_false_iff]
  intro hhalted
  have hle : frames.length ≤ (before ++ more).length := by
    rw [List.length_append]
    omega
  have hmoving : (pursuit.on base).isHalted = false := stackOn_not_halted hbase _
  rw [hran.final_eq hs hst hhalted hlast.left hle, hhalted] at hmoving
  cases hmoving

/-- The last frame hands an argument to a function, whose body is entered: the function came from a node, the
argument is bound in front of the environment of the function, and a call goes on with the arguments that are
left. -/
def Enters (s : Store) (frames : List Frame) (first others env next rest cont : Pointer) (final : State) : Prop :=
  ∃ function v parameter body outer,
    (∃ F ∈ frames, Hands F function ((callNode first others env).onto cont)) ∧
    (∃ F ∈ frames.getLast?, Hands F v ((argumentNode function others env).onto cont)) ∧
    function.tag = .function ∧ s.nodes[function]? = some [parameter, body, outer] ∧
    parameter ≠ Builtin.noParameterPointer ∧
    final = ⟨body, nodePointer .env [parameter, v, outer], (callNode next rest env).onto cont⟩

variable {p₁ p₂ q q₁ q₂ f first others env rest base k : Pointer} {stack : List Waiting}
  {st st' : State} {s' t' : Store} {frames frames' : List Frame} {lag : ℕ}

/-! ## One run -/

/-- A call evaluates its head first. -/
theorem Pending.calls (config : Config) (h : Pending base ⟨p, env, stack⟩ s) (hbase : base.tag.isHalted = false)
    (hp : s.IsPair p f a) (ha : s.IsPair a first others) (hf : formOf? f = none) :
    ∃ F t, F.emitted = [] ∧
      RanTo config (Pursuit.on ⟨p, env, stack⟩ base) s [F]
        (Pursuit.on ⟨f, env, callNode first others env :: stack⟩ base) t ∧
      Pending base ⟨f, env, callNode first others env :: stack⟩ t := by
  apply h.waits config hbase
  simp only [EvalPhase.look, hp.expression_eq hf ha]
  rfl

/-! ## Both runs -/

/-- Two runs come to the head of a call, the second one a frame later. -/
theorem curried_opens (hs : Reachable s) (hp : s.IsPair p f p₁) (hp₁ : s.IsPair p₁ a p₂)
    (hp₂ : s.IsPair p₂ b rest) (hq : s.IsPair q q₁ p₂) (hq₁ : s.IsPair q₁ f q₂) (hq₂ : s.IsPair q₂ a .nil)
    (hf : formOf? f = none) (henv : s.Holds env) (hk : s.Holds k) (hmoving : k.tag.isHalted = false) :
    ∃ frames frames' t t', InStep config 1 ⟨p, env, k⟩ s ⟨q, env, k⟩ s frames frames'
        ((callNode a p₂ env).onto k) ((callNode a .nil env).onto ((callNode b rest env).onto k)) ⟨f, env, []⟩ t t' ∧
      t.Stacked k [callNode a p₂ env] ∧ t'.Stacked k [callNode a .nil env, callNode b rest env] := by
  have hsound := reachable_sound hs
  have hheld : State.Held ⟨p, env, k⟩ s := State.held_iff.2 ⟨(hp.holds hsound).1, henv, hk⟩
  have hheld' : State.Held ⟨q, env, k⟩ s := State.held_iff.2 ⟨(hq.holds hsound).1, henv, hk⟩
  have hleft : Pending k ⟨p, env, []⟩ s := ⟨hs, hheld, trivial⟩
  have hright : Pending k ⟨q, env, []⟩ s := ⟨hs, hheld', trivial⟩
  obtain ⟨F, t, hemitted, hran, hpending⟩ := hleft.calls config hmoving hp hp₁ hf
  obtain ⟨F₁, t₁, hemitted₁, hran₁, hpending₁⟩ := hright.calls config hmoving hq hp₂ hq₁.formOf?_eq
  have hgrows := hright.grows hran₁
  obtain ⟨F₂, t₂, hemitted₂, hran₂, hpending₂⟩ := hpending₁.calls config hmoving (hq₁.mono hgrows.extends_)
    (hq₂.mono hgrows.extends_) hf
  exact ⟨[F], [F₁, F₂], t, t₂, ⟨hran, hran₁.trans hran₂, ⟨rfl, by simp [hemitted, hemitted₁, hemitted₂]⟩,
    hpending.above, hpending₂.above⟩, hpending.stacked, hpending₂.stacked⟩

/-- What is handed to the node of a call is a function, whose argument comes next, or both runs fail. -/
theorem Handed.calls {F F' : Frame} {others' env' v : Pointer} {base' : Pointer} {t t' u : Store}
    (h : Handed config lag st s st' s' frames frames' F F' (callNode first others env)
      (callNode first others' env) base base' v env' t t' u)
    (ht : Reachable t) (ht' : Reachable t') (hheld : F.output.Held t) (hheld' : F'.output.Held t') :
    (v.tag = .function ∧ InStep config lag st s st' s' (frames ++ [F]) (frames' ++ [F'])
      ((argumentNode v others env).onto base) ((argumentNode v others' env).onto base') ⟨first, env, []⟩ t t' ∧
      t.Stacked base [argumentNode v others env] ∧ t'.Stacked base' [argumentNode v others' env]) ∨
    ∃ final, final.isFailed = true ∧
      Meets config lag st s st' s' (frames ++ [F]) (frames' ++ [F']) final t t' := by
  obtain ⟨hleft, hright, hmatched, -, hleads, hleads', -, -⟩ := h
  have hturn (others : Pointer) : (ContPhase.turn (callNode first others env) v env' u).1 =
      if v.tag = .function then .wait first env (argumentNode v others env) else .stop env' .notAFunction := by
    change (if v.tag = .function then (_, u) else (_, u) : Turn × Store).1 = _
    split <;> rfl
  rw [hturn] at hleads hleads'
  by_cases htag : v.tag = .function
  · rw [if_pos htag, Turn.move, Move.leads_goes_iff] at hleads hleads'
    obtain ⟨hF, hstacked⟩ := hleads
    obtain ⟨hF', hstacked'⟩ := hleads'
    rw [hF] at hleft hheld
    rw [hF'] at hright hheld'
    exact .inl ⟨htag, ⟨hleft, hright, hmatched, ⟨ht, hheld, trivial⟩, ⟨ht', hheld', trivial⟩⟩, hstacked, hstacked'⟩
  · rw [if_neg htag, Turn.move, Move.leads_stops_iff] at hleads hleads'
    rw [hleads] at hleft
    rw [hleads'] at hright
    exact .inr ⟨_, rfl, hleft, hright, hmatched⟩

theorem callNode_silent (first others env v : Pointer) : (callNode first others env).report? v = none :=
  Waiting.silent (show Tag.call ≠ .unary by decide) v

theorem argumentNode_silent (function others env v : Pointer) : (argumentNode function others env).report? v = none :=
  Waiting.silent (show Tag.call2 ≠ .unary by decide) v

/-- A function takes its argument, and both runs enter its body in one state, or both fail. -/
theorem Handed.enters {F F' : Frame} {function v env' : Pointer} {t t' u : Store}
    (h : Handed config lag st s st' s' frames frames' F F' (argumentNode function p₂ env)
      (argumentNode function .nil env) k ((callNode b rest env).onto k) v env' t t' u)
    (hfunction : function.tag = .function) (hp₂ : u.IsPair p₂ b rest) (ht : t.Sound) (hheld : t.Holds function) :
    ∃ final, Meets config lag st s st' s' (frames ++ [F]) (frames' ++ [F']) final t t' ∧
      (final.isFailed = true ∨ ∃ parameter body outer, t.nodes[function]? = some [parameter, body, outer] ∧
        parameter ≠ Builtin.noParameterPointer ∧
        final = ⟨body, nodePointer .env [parameter, v, outer], (callNode b rest env).onto k⟩) := by
  obtain ⟨hleft, hright, hmatched, -, hleads, hleads', hcommon, -⟩ := h
  have hmore : Store.rest? p₂ = some (some p₂) := if_pos hp₂.tag
  have hturn : ContPhase.turn (argumentNode function p₂ env) v env' u =
      ContPhase.entry u function v env env' (some p₂) := by
    simp only [ContPhase.turn, argumentNode, hmore]
  have hturn' : ContPhase.turn (argumentNode function .nil env) v env' u =
      ContPhase.entry u function v env env' none := rfl
  have hparts : t.nodes[function]? = some [u.part function 0, u.part function 1, u.part function 2] := by
    have harity : function.tag.arity? = some 3 := by rw [hfunction]; rfl
    obtain ⟨hnode, hlength, -⟩ := ht.children_eq harity hheld
    obtain ⟨parameter, body, outer, hchildren⟩ := List.length_eq_three.1 hlength
    rw [hchildren] at hnode
    have hpart := part_of_node (hcommon.node hnode)
    rw [hnode, hpart, hpart, hpart]
    rfl
  have hb : u.part p₂ 0 = b := part_of_node hp₂.node 0
  have hrest : u.part p₂ 1 = rest := part_of_node hp₂.node 1
  rw [hturn] at hleads
  rw [hturn'] at hleads'
  unfold ContPhase.entry at hleads hleads'
  rw [if_pos hfunction] at hleads hleads'
  by_cases hdummy : u.part function 0 = Builtin.noParameterPointer
  · rw [if_pos hdummy, Turn.move, Move.leads_stops_iff] at hleads hleads'
    rw [hleads] at hleft
    rw [hleads'] at hright
    exact ⟨_, ⟨hleft, hright, hmatched⟩, .inl rfl⟩
  · rw [if_neg hdummy] at hleads hleads'
    simp only [Turn.move, Move.leads_goes_iff, hb, hrest] at hleads hleads'
    rw [hleads.1] at hleft
    rw [hleads'.1] at hright
    exact ⟨_, ⟨hleft, hright, hmatched⟩, .inr ⟨_, _, _, hparts, hdummy, rfl⟩⟩

/-- A call with several arguments is a call of what the call with the first one gives. -/
theorem curried (hs : Reachable s) (hp : s.IsPair p f p₁) (hp₁ : s.IsPair p₁ a p₂) (hp₂ : s.IsPair p₂ b rest)
    (hq : s.IsPair q q₁ p₂) (hq₁ : s.IsPair q₁ f q₂) (hq₂ : s.IsPair q₂ a .nil) (hf : formOf? f = none)
    (henv : s.Holds env) (hk : s.Holds k) (hmoving : k.tag.isHalted = false)
    (hruns : ∀ n, ∃ frames t, steps config n ⟨p, env, k⟩ s = .ok frames t) :
    Captured config 1 ⟨p, env, k⟩ s ⟨q, env, k⟩ s f env ((callNode a p₂ env).onto k)
      ((callNode a .nil env).onto ((callNode b rest env).onto k)) ∨
    (∃ function, Captured config 1 ⟨p, env, k⟩ s ⟨q, env, k⟩ s a env ((argumentNode function p₂ env).onto k)
      ((argumentNode function .nil env).onto ((callNode b rest env).onto k))) ∨
    ∃ frames frames' final t t', Meets config 1 ⟨p, env, k⟩ s ⟨q, env, k⟩ s frames frames' final t t' ∧
      (final.isFailed = true ∨ Enters t frames a p₂ env b rest k final) := by
  have hsound := reachable_sound hs
  have hheld : State.Held ⟨p, env, k⟩ s := State.held_iff.2 ⟨(hp.holds hsound).1, henv, hk⟩
  have hheld' : State.Held ⟨q, env, k⟩ s := State.held_iff.2 ⟨(hq.holds hsound).1, henv, hk⟩
  have noRaise {frames : List Frame} {st' : State} {t t' : Store} {fault : Fault}
      (hran : RanTo config ⟨p, env, k⟩ s frames st' t) (hstep : step config st' t = .error fault t') : False := by
    have hsteps : steps config 1 st' t = .error fault t' := EStateM.bind_of_error hstep _
    obtain ⟨all, u, hok⟩ := hruns (frames.length + 1)
    rw [hran.raises hsteps] at hok
    cases hok
  obtain ⟨frames, frames', t, t', hopen, hnode, hnode'⟩ := curried_opens hs hp hp₁ hp₂ hq hq₁ hq₂ hf henv hk hmoving
  rcases hopen.captured_or_departs (Waiting.not_halted _) (Waiting.not_halted _) with
    hstays | ⟨n, more, more', pursuit, u, u', hpos, hgrows, hgrows', hreached, hapart, hdeparts⟩
  · exact .inl ⟨frames, frames', t, t', hopen, hstays⟩
  cases hdeparts with
  | raises fault _ _ hraised => exact (noRaise hreached.left hraised).elim
  | stops F F' r r' env' code hstep hstep' hF hF' hemitted =>
    exact .inr (.inr ⟨_, _, _, _, _, hreached.meets hstep hstep' hF hF' hemitted, .inl rfl⟩)
  | returns function env' hvalue hvalue' =>
  -- Both runs have the value of the head.
  obtain ⟨F, F', r, r', m, hhanded, -, hkept'⟩ := hreached.hands hapart hpos (hnode.mono hgrows)
    ⟨(hnode'.mono hgrows').1, trivial⟩ (callNode_silent ..) (callNode_silent ..) hvalue hvalue'
  obtain ⟨hr, hrheld⟩ := hhanded.left.reachable hs hheld
  obtain ⟨hr', hrheld'⟩ := hhanded.right.reachable hs hheld'
  rcases hhanded.calls hr hr' hrheld hrheld' with ⟨hfunction, hnext, hargument, hargument'⟩ | ⟨final, hfailed, hmeets⟩
  swap
  · exact .inr (.inr ⟨_, _, final, _, _, hmeets, .inl hfailed⟩)
  rcases hnext.captured_or_departs (Waiting.not_halted _) (Waiting.not_halted _) with
    hstays | ⟨n₂, more₂, more₂', pursuit₂, u₂, u₂', hpos₂, hgrows₂, hgrows₂', hreached₂, hapart₂, hdeparts⟩
  · exact .inr (.inl ⟨function, _, _, r, r', hnext, hstays⟩)
  cases hdeparts with
  | raises fault _ _ hraised => exact (noRaise hreached₂.left hraised).elim
  | stops F F' r r' env' code hstep hstep' hF hF' hemitted =>
    exact .inr (.inr ⟨_, _, _, _, _, hreached₂.meets hstep hstep' hF hF' hemitted, .inl rfl⟩)
  | returns v env₂ hvalue₂ hvalue₂' =>
  -- Both runs have the value of the first argument.
  obtain ⟨F₂, F₂', r₂, r₂', m₂, hhanded₂, hkept₂, -⟩ := hreached₂.hands hapart₂ hpos₂ (hargument.mono hgrows₂)
    (hargument'.mono hgrows₂') (argumentNode_silent ..) (argumentNode_silent ..) hvalue₂ hvalue₂'
  obtain ⟨hr₂, -⟩ := hhanded₂.left.reachable hs hheld
  have hall := hhanded₂.left.grows hs hheld
  have hfunctionHeld : r₂.Holds function := by
    obtain ⟨-, hchildren⟩ := (reachable_indexed hr).interned hargument.1
    exact (hgrows₂.trans hkept₂).holds (hchildren function (by simp [argumentNode, Waiting.children]))
  obtain ⟨final, hmeets, hfinal⟩ := hhanded₂.enters hfunction (hp₂.mono (hall.extends_.trans hhanded₂.common))
    (reachable_sound hr₂) hfunctionHeld
  refine .inr (.inr ⟨_, _, final, r₂, r₂', hmeets, hfinal.imp_right ?_⟩)
  rintro ⟨parameter, body, outer, hparts, hdummy, hfinal⟩
  exact ⟨function, v, parameter, body, outer, ⟨F, by simp, hhanded.hands⟩,
    ⟨F₂, List.getLast?_concat, hhanded₂.hands⟩, hfunction, hparts, hdummy, hfinal⟩

/-! ### A call of the identity -/

section
variable {known : Set (List Int)} {arguments cont : Pointer} (config : Config)
  (hinjective : Set.InjOn Sponge.hash known)
  (hs : s.Bounded known)
include hinjective hs

/-- A call evaluates its head first, and takes in a node that waits for it. -/
theorem passes_call (hst : State.Held ⟨p, env, cont⟩ s) (hmoving : cont.tag.isHalted = false)
    (hp : s.IsPair p f arguments) (harguments : s.IsPair arguments first others) (hf : formOf? f = none)
    (hknown : nodePreimage .call [first, others, env, cont] ∈ known) :
    ∃ t, Passes config known ⟨p, env, cont⟩ s ⟨f, env, (callNode first others env).onto cont⟩ t ∧
      t.nodes[(callNode first others env).onto cont]? = some ((callNode first others env).children cont) := by
  have hlook : EvalPhase.look config.lookupDepth p env s = (.turn (.wait f env (callNode first others env)), s) := by
    simp only [EvalPhase.look, hp.expression_eq hf harguments]
    rfl
  exact hs.looks config hinjective hst hmoving hlook hs.content hknown

end

theorem holds_outermost (s : Store) : s.Holds .outermost :=
  s.holds_immediate (Pointer.immediate_canonical .outermost 0) rfl

end Machine

namespace Specimen

open Machine

variable {x v cont : Pointer} (config : Config) (hx : x = named ∨ x = Builtin.noParameterPointer)

/-- The nodes of a store in which a function waits for its argument. -/
structure Applying (x others cont : Pointer) (s : Store) : Prop extends Prepared s where
  closure : s.nodes[closure x]? = some [x, x, .nil]
  waiting : s.nodes[(argumentNode (Specimen.closure x) others .nil).onto cont]? =
    some ((argumentNode (Specimen.closure x) others .nil).children cont)

include hx in
/-- The value of the identity is a function, which is taken in. -/
theorem looks_lambda (depth : ℕ) (h : Prepared s) (hheld : s.Holds (lambdaForm x)) :
    ∃ t : Store, EvalPhase.look depth (lambdaForm x) .nil s = (.value (closure x), t) ∧
      t.Bounded {xs | xs ∈ preimages} ∧ s.Grows t ∧ t.nodes[closure x]? = some [x, x, .nil] := by
  have htag : x.tag = .symbol := by rcases hx with rfl | rfl <;> rfl
  have hlambda := (h.isLambda hx).expression_eq htag
  have hsymbol := inherited_holds.expression (reachable_sound h.bounded.reachable) hheld x
    (by rw [hlambda]; simp [Expression.pointers])
  have harity : Tag.function.arity? = some [x, x, .nil].length := rfl
  obtain ⟨hclosed, hgrows, hclosure⟩ := h.bounded.put injOn_preimages harity (by simp [hsymbol, holds_nil])
    (formTaken_mem hx (by simp [formTaken]))
  refine ⟨s.put .function [x, x, .nil], ?_, hclosed, hgrows, hclosure⟩
  simp only [EvalPhase.look, hlambda]
  rfl

include hx in
/-- A call of the identity makes a function of its head, and comes to its argument. -/
theorem applies {arguments first : Pointer} (h : Prepared s) (hst : State.Held ⟨p, .nil, cont⟩ s)
    (hmoving : cont.tag.isHalted = false) (hp : s.IsPair p (lambdaForm x) arguments)
    (harguments : s.IsPair arguments first others)
    (hcall : nodePreimage .call [first, others, .nil, cont] ∈ {xs | xs ∈ preimages})
    (hcall2 : nodePreimage .call2 [closure x, others, .nil, cont] ∈ {xs | xs ∈ preimages}) :
    ∃ inputs t, Visits config {xs | xs ∈ preimages} inputs ⟨p, .nil, cont⟩ s
      ⟨first, .nil, (argumentNode (closure x) others .nil).onto cont⟩ t ∧ Applying x others cont t := by
  obtain ⟨t, hpasses, hnode⟩ := passes_call config injOn_preimages h.bounded hst hmoving hp harguments
    (h.isLambda hx).formOf?_eq hcall
  have h' := h.mono hpasses.bounded hpasses.grows
  obtain ⟨m, hlook, hm, -, hclosure⟩ := looks_lambda hx config.lookupDepth h' (State.held_iff.1 hpasses.held).1
  have hturn : ContPhase.turn (callNode first others .nil) (closure x) .nil m =
      (.wait first .nil (argumentNode (closure x) others .nil), m) := rfl
  obtain ⟨u, hpasses', hlater, hwaiting⟩ := hpasses.bounded.hands config injOn_preimages hpasses.held hnode hlook
    (callNode_silent ..) hturn hm.content hcall2
  exact ⟨_, u, hpasses.visits.trans hpasses'.visits, h'.mono hpasses'.bounded hpasses'.grows,
    hlater.extends_.node hclosure, hwaiting⟩

/-- The environment in which the body of the identity is evaluated is taken in. -/
theorem put_scope (hs : s.Bounded {xs | xs ∈ preimages}) (hclosure : s.nodes[closure x]? = some [x, x, .nil])
    (hv : s.Holds v) (hknown : nodePreimage .env [x, v, .nil] ∈ {xs | xs ∈ preimages}) :
    (s.put .env [x, v, .nil]).content ⊆ {xs | xs ∈ preimages} ∧
      (s.put .env [x, v, .nil]).nodes[scope x v]? = some [x, v, .nil] := by
  obtain ⟨-, -, hparts⟩ := (reachable_sound hs.reachable).node hclosure
  simp only [List.forall_mem_cons] at hparts
  have harity : Tag.env.arity? = some [x, v, .nil].length := rfl
  obtain ⟨hput, -, hnode⟩ := hs.put injOn_preimages harity (by simp [hparts, hv]) hknown
  exact ⟨hput.content, hnode⟩

/-- The identity as an argument: its value is taken in, and the environment in which it is bound. -/
theorem looks_argument (depth : ℕ) (h : Prepared s) (hheld : s.Holds (lambdaForm named)) :
    ∃ t : Store, EvalPhase.look depth (lambdaForm named) .nil s = (.value (closure named), t) ∧ s.Grows t ∧
      t.nodes[closure named]? = some [named, named, .nil] ∧
      (t.put .env [named, closure named, .nil]).content ⊆ {xs | xs ∈ preimages} ∧
      (t.put .env [named, closure named, .nil]).nodes[scope named (closure named)]? =
        some [named, closure named, .nil] := by
  obtain ⟨t, hlook, ht, hgrows, hclosure⟩ := looks_lambda (.inl rfl) depth h hheld
  have hvalue := (reachable_sound ht.reachable).contains_of_node hclosure
  obtain ⟨hcontent, hscope⟩ := put_scope ht hclosure hvalue (taken_mem (by simp [taken, callTaken]))
  exact ⟨t, hlook, hgrows, hclosure, hcontent, hscope⟩

section
variable (hclosure : s.nodes[closure x]? = some [x, x, .nil]) (hparameter : x ≠ Builtin.noParameterPointer)
include hclosure hparameter

/-- The identity takes its last argument. -/
theorem turn_identity : ContPhase.turn (argumentNode (closure x) .nil .nil) v .nil s =
    (.enter x (scope x v), s.put .env [x, v, .nil]) := by
  have hpart := part_of_node hclosure
  have hfunction : (closure x).tag = .function := rfl
  change ContPhase.entry s (closure x) v .nil .nil none = _
  rw [ContPhase.entry, if_pos hfunction, hpart, hpart, hpart]
  exact if_neg hparameter

/-- The identity takes its argument, and what comes of it is called with nil. -/
theorem turn_identity_single (hsingle : s.IsPair single .nil .nil) :
    ContPhase.turn (argumentNode (closure x) single .nil) v .nil s =
      (.wait x (scope x v) (callNode .nil .nil .nil), s.put .env [x, v, .nil]) := by
  have hpart := part_of_node hclosure
  have hrest := part_of_node hsingle.node
  have hfunction : (closure x).tag = .function := rfl
  change ContPhase.entry s (closure x) v .nil .nil (some single) = _
  rw [ContPhase.entry, if_pos hfunction, hpart, hpart, hpart]
  refine (if_neg hparameter).trans ?_
  dsimp only
  rw [hrest, hrest]
  rfl

end

/-- The body of the identity has the argument for its value. -/
theorem look_body (hx : x = named ∨ x = Builtin.noParameterPointer) (hdeep : 0 < config.lookupDepth)
    (hscope : s.nodes[scope x v]? = some [x, v, .nil]) :
    EvalPhase.look config.lookupDepth x (scope x v) s = (.value v, s) := by
  obtain ⟨depth, hdepth⟩ := Nat.exists_eq_add_one_of_ne_zero hdeep.ne'
  have hpart := part_of_node hscope
  have hvalue : s.part (scope x v) 1 = v := hpart 1
  have hfound : s.search x config.lookupDepth (scope x v) = .at (scope x v) := by
    rw [hdepth]
    exact search_here rfl (hpart 0)
  have hlook := EvalPhase.look_at (expression_variable hx) hfound fun hrecursive => nomatch hrecursive.1
  rwa [hvalue] at hlook

theorem named_ne_noParameter : named ≠ Builtin.noParameterPointer :=
  symbol_ne (by simp [names]) (by decide) (by decide)

/-- The identity comes out of the first call, and is called with nil. -/
theorem body_ends (h : Prepared s) (hdeep : 0 < config.lookupDepth)
    (hst : State.Held ⟨named, scope named (closure named), calling⟩ s)
    (hclosure : s.nodes[closure named]? = some [named, named, .nil])
    (hscope : s.nodes[scope named (closure named)]? = some [named, closure named, .nil])
    (hcalling : s.nodes[(callNode .nil .nil .nil).onto .outermost]? =
      some ((callNode .nil .nil .nil).children .outermost)) :
    ∃ inputs t, Visits config {xs | xs ∈ preimages} inputs ⟨named, scope named (closure named), calling⟩ s
      ⟨.nil, scope named .nil, .terminal⟩ t := by
  have hturn : ContPhase.turn (callNode .nil .nil .nil) (closure named) (scope named (closure named)) s =
      (.wait .nil .nil (argumentNode (closure named) .nil .nil), s) := rfl
  obtain ⟨t, hpasses, hgrows, hwaiting⟩ := h.bounded.hands config injOn_preimages hst hcalling
    (look_body config (.inl rfl) hdeep hscope) (callNode_silent ..) hturn h.bounded.content
    (formTaken_mem (.inl rfl) (by simp [formTaken, argumentNode, Waiting.children]))
  have ht := hpasses.bounded
  have hclosure' := hgrows.extends_.node hclosure
  obtain ⟨hcontent, hnode⟩ := put_scope ht hclosure' t.holds_nil (taken_mem (by simp [taken, callTaken]))
  obtain ⟨u, hpasses', hgrows', -⟩ := ht.hands config injOn_preimages hpasses.held hwaiting rfl (argumentNode_silent ..)
    (turn_identity hclosure' named_ne_noParameter) hcontent trivial
  have hu := hpasses'.bounded
  have hlook := look_body config (.inl rfl) hdeep (hgrows'.extends_.node hnode)
  have hends := hu.ends config hpasses'.held hlook hu.content
  exact ⟨_, u, hpasses.visits.trans (hpasses'.visits.trans hends.visits)⟩

section
variable (h : Prepared s) (hdeep : 0 < config.lookupDepth)
include h hdeep

/-- The call `((lambda (x) x) (lambda (x) x) nil)` enters the body of the identity, and calls what comes of it. -/
theorem call_halts : ∃ inputs t, Visits config {xs | xs ∈ preimages} inputs ⟨call, .nil, .outermost⟩ s
    ⟨.nil, scope named .nil, .terminal⟩ t := by
  have hst : State.Held ⟨call, .nil, .outermost⟩ s :=
    held_initial (h.pair_call.holds (reachable_sound h.bounded.reachable)).1 s.holds_nil
  obtain ⟨_, t, hvisits, ht⟩ := applies config (.inl rfl) h hst rfl h.pair_call h.pair_double
    (taken_mem (by simp [taken, callTaken])) (taken_mem (by simp [taken, callTaken]))
  obtain ⟨m, hlook, hgrows, hclosure, hcontent, hscope⟩ :=
    looks_argument config.lookupDepth ht.toPrepared (State.held_iff.1 hvisits.held).1
  have hturn := turn_identity_single (v := closure named) hclosure named_ne_noParameter
    (ht.toPrepared.pair_single.mono hgrows.extends_)
  obtain ⟨u, hpasses, hlater, hcalling⟩ := ht.bounded.hands config injOn_preimages hvisits.held ht.waiting hlook
    (argumentNode_silent ..) hturn hcontent (taken_mem (by simp [taken, callTaken, callNode, Waiting.children]))
  have hu := ht.toPrepared.mono hpasses.bounded hpasses.grows
  obtain ⟨_, r, hends⟩ := body_ends config hu hdeep hpasses.held (hpasses.grows.extends_.node ht.closure)
    (hlater.extends_.node hscope) hcalling
  exact ⟨_, r, hvisits.trans (hpasses.visits.trans hends)⟩

/-- So does the call `(((lambda (x) x) (lambda (x) x)) nil)`. -/
theorem curried_halts : ∃ inputs t, Visits config {xs | xs ∈ preimages} inputs ⟨curried, .nil, .outermost⟩ s
    ⟨.nil, scope named .nil, .terminal⟩ t := by
  have hst : State.Held ⟨curried, .nil, .outermost⟩ s :=
    held_initial (h.pair_curried.holds (reachable_sound h.bounded.reachable)).1 s.holds_nil
  -- The call with nil waits while the identity is applied.
  obtain ⟨t, hpasses, hcalling⟩ := passes_call config injOn_preimages h.bounded hst rfl h.pair_curried h.pair_single
    h.pair_applied.formOf?_eq (taken_mem (by simp [taken, callTaken]))
  have h' := h.mono hpasses.bounded hpasses.grows
  obtain ⟨_, u, hvisits, hu⟩ := applies config (.inl rfl) h' hpasses.held (Waiting.not_halted _) h'.pair_applied
    h'.pair_lambdas
    (taken_mem (by simp [taken, callTaken, calling, callNode, Waiting.onto, Waiting.children]))
    (taken_mem (by simp [taken, callTaken, calling, callNode, Waiting.onto, Waiting.children]))
  obtain ⟨m, hlook, -, hclosure, hcontent, hscope⟩ :=
    looks_argument config.lookupDepth hu.toPrepared (State.held_iff.1 hvisits.held).1
  obtain ⟨r, hpasses', hlater, -⟩ := hu.bounded.hands config injOn_preimages hvisits.held hu.waiting hlook
    (argumentNode_silent ..) (turn_identity hclosure named_ne_noParameter) hcontent trivial
  have hr := hu.toPrepared.mono hpasses'.bounded hpasses'.grows
  obtain ⟨_, m, hends⟩ := body_ends config hr hdeep hpasses'.held (hpasses'.grows.extends_.node hu.closure)
    (hlater.extends_.node hscope) ((hvisits.grows.trans hpasses'.grows).extends_.node hcalling)
  exact ⟨_, m, hpasses.visits.trans (hvisits.trans (hpasses'.visits.trans hends))⟩

end

end Specimen

namespace Machine

open Specimen

/-- The calls `((lambda (x) x) (lambda (x) x) nil)` and `(((lambda (x) x) (lambda (x) x)) nil)` enter the body of the
identity in one state: neither of them stays in the evaluation of the function or of its argument, or fails. -/
theorem curried_identity : ∃ s : Store, Reachable s ∧ s.IsPair call (lambdaForm named) double ∧
    s.IsPair double (lambdaForm named) single ∧ s.IsPair single .nil .nil ∧
    s.IsPair Specimen.curried applied single ∧ s.IsPair applied (lambdaForm named) lambdas ∧
    s.IsPair lambdas (lambdaForm named) .nil ∧ formOf? (lambdaForm named) = none ∧ s.Holds .nil ∧
    s.Holds .outermost ∧ Pointer.outermost.tag.isHalted = false ∧
    (∀ n, ∃ frames t, steps .standard n ⟨call, .nil, .outermost⟩ s = .ok frames t) ∧
    ∃ frames frames' final t t', Meets .standard 1 ⟨call, .nil, .outermost⟩ s
        ⟨Specimen.curried, .nil, .outermost⟩ s frames frames' final t t' ∧
      Enters t frames (lambdaForm named) single .nil .nil .nil .outermost final := by
  obtain ⟨s, h⟩ := exists_prepared
  have hs := h.bounded.reachable
  have hsound := reachable_sound hs
  have hst : State.Held ⟨call, .nil, .outermost⟩ s := held_initial (h.pair_call.holds hsound).1 s.holds_nil
  have hst' : State.Held ⟨Specimen.curried, .nil, .outermost⟩ s :=
    held_initial (h.pair_curried.holds hsound).1 s.holds_nil
  obtain ⟨_, t, frames, -, hran, ht, -⟩ := call_halts .standard h (by decide)
  obtain ⟨_, t', frames', -, hran', ht', -⟩ := curried_halts .standard h (by decide)
  have hruns (n : ℕ) := (hran.rests hs hst rfl n).1
  have hapart (n : ℕ) : Apart .standard 1 n ⟨call, .nil, .outermost⟩ s ⟨Specimen.curried, .nil, .outermost⟩ s :=
    apart_of_halting injOn_preimages hs hs hst hst' hran hran' rfl rfl ht.content ht'.content
  have hf : formOf? (lambdaForm named) = none := (h.isLambda (.inl rfl)).formOf?_eq
  have hcaptured {expr base base' : Pointer} (hbase : base.tag.isHalted = false)
      (hcaptured : Captured .standard 1 ⟨call, .nil, .outermost⟩ s ⟨Specimen.curried, .nil, .outermost⟩ s
        expr .nil base base') : False := by
    cases hcaptured.not_halts hs hst hbase hapart hran
  refine ⟨s, hs, h.pair_call, h.pair_double, h.pair_single, h.pair_curried, h.pair_applied, h.pair_lambdas, hf,
    s.holds_nil, holds_outermost s, rfl, hruns, ?_⟩
  rcases curried hs h.pair_call h.pair_double h.pair_single h.pair_curried h.pair_applied h.pair_lambdas hf s.holds_nil
      (holds_outermost s) rfl hruns with
    hfunction | ⟨_, hargument⟩ | ⟨others, others', final, u, u', hmeets, hfailed | henters⟩
  · exact (hcaptured (Waiting.not_halted _) hfunction).elim
  · exact (hcaptured (Waiting.not_halted _) hargument).elim
  · -- The call ends with nil.
    have hhalted : final.isHalted = true := by
      rw [State.isHalted, beq_iff_eq.1 hfailed]
      rfl
    rw [← hran.halts_once hs hst rfl hmeets.left hhalted] at hfailed
    cases hfailed
  · exact ⟨others, others', final, u, u', hmeets, henters⟩

end Machine

end FieldLisp
