import FieldLisp.Proofs.Machine.Endings
import FieldLisp.Proofs.Machine.Searches
import FieldLisp.Proofs.Store.RoundTrip
import FieldLisp.Proofs.Store.Specimens

/-!
# Runs whose content is known

To run a small program on a store step by step, all preimages that it takes in are listed beforehand. If none of
these collide, whatever is taken in is found again:

* `Store.Bounded`: a store with no other content than what is listed;
* `Store.Bounded.put`, `Store.Bounded.putAll`, `Store.Bounded.putList`, `Store.Bounded.symbol`: it takes in more of
  the list;
* `Store.Bounded.looks`, `Store.Bounded.hands`, `Store.Bounded.ends`: steps of the machine on such a store;
* `Machine.Visits`: a run through given states;
* `Specimen.exists_prepared`, `Capture.exists_prepared`: stores with some small programs.
-/

namespace FieldLisp

open Store

variable {s t u : Store} {known : Set (List Int)} {tag : Tag} {cs : List Pointer}
  {a b expr env cont v : Pointer} {config : Config} {turn : Turn}

namespace Store

/-- A store that operations built and that has no other content than this. -/
structure Bounded (known : Set (List Int)) (s : Store) : Prop where
  reachable : Reachable s
  content : s.content ⊆ known

theorem content_put_subset (s : Store) (tag : Tag) (cs : List Pointer) (hs : s.Sound) :
    (s.put tag cs).content ⊆ insert (nodePreimage tag cs) s.content := by
  unfold put
  cases hcheck : s.checkNode tag cs with
  | error fault =>
    rw [after_internNode_of_error hs hcheck]
    exact Set.subset_insert _ _
  | ok found =>
    rw [after_internNode hs hcheck]
    exact content_record_subset s tag cs

/-- A fresh store has the names of the builtins, and nothing else. -/
theorem Bounded.empty (shared : Bool) (hnames : ∀ name ∈ Builtin.names, symbolPreimage name ∈ known) :
    (Store.empty shared).Bounded known := by
  refine ⟨.empty shared, (content_empty shared).trans fun xs hxs => ?_⟩
  obtain ⟨name, hname, rfl⟩ := List.mem_map.1 hxs
  exact hnames name hname

/-- Nodes, each of whose children is known or a node before it. -/
def Founded (base : List Pointer) : List (Tag × List Pointer) → Prop
  | [] => True
  | (tag, cs) :: nodes =>
    tag.arity? = some cs.length ∧ (∀ c ∈ cs, c ∈ base) ∧ Founded (nodePointer tag cs :: base) nodes

namespace Bounded

variable (hinjective : Set.InjOn Sponge.hash known) (hs : s.Bounded known)
include hinjective hs

theorem faithful : s.Faithful := faithful_of_injOn hinjective hs.reachable hs.content

/-- A node of the list is taken in, and is found. -/
theorem put (harity : tag.arity? = some cs.length) (hcs : ∀ c ∈ cs, s.Holds c)
    (hknown : nodePreimage tag cs ∈ known) :
    (s.put tag cs).Bounded known ∧ s.Grows (s.put tag cs) ∧
      (s.put tag cs).nodes[nodePointer tag cs]? = some cs := by
  have hsound := reachable_sound hs.reachable
  obtain ⟨hgrows, -⟩ := grows_put hsound harity hcs
  have hput : (s.put tag cs).Bounded known :=
    ⟨hgrows.reachable hs.reachable,
      (content_put_subset s tag cs hsound).trans (Set.insert_subset hknown hs.content)⟩
  exact ⟨hput, hgrows, node_put hsound harity hcs (hput.faithful hinjective)⟩

/-- Nodes of the list are taken in, one after the other. -/
theorem putAll {base : List Pointer} {nodes : List (Tag × List Pointer)} (hbase : ∀ p ∈ base, s.Holds p)
    (hfounded : Founded base nodes) (hknown : ∀ node ∈ nodes, nodePreimage node.1 node.2 ∈ known) :
    ∃ t : Store, t.Bounded known ∧ s.Grows t ∧
      ∀ node ∈ nodes, t.nodes[nodePointer node.1 node.2]? = some node.2 := by
  induction nodes generalizing s base with
  | nil => exact ⟨s, hs, .refl (reachable_sound hs.reachable), List.forall_mem_nil _⟩
  | cons node nodes ih =>
    obtain ⟨tag, cs⟩ := node
    obtain ⟨harity, hcs, hrest⟩ := hfounded
    rw [List.forall_mem_cons] at hknown
    obtain ⟨ht, hgrows, hnode⟩ := hs.put hinjective harity (fun c hc => hbase c (hcs c hc)) hknown.1
    have hheld : (s.put tag cs).Holds (nodePointer tag cs) := hgrows.sound.contains_of_node hnode
    have hlater : ∀ p ∈ nodePointer tag cs :: base, (s.put tag cs).Holds p :=
      List.forall_mem_cons.2 ⟨hheld, fun p hp => hgrows.holds (hbase p hp)⟩
    obtain ⟨u, hu, hmore, hnodes⟩ := ih ht hlater hrest hknown.2
    exact ⟨u, hu, hgrows.trans hmore, List.forall_mem_cons.2 ⟨hmore.extends_.node hnode, hnodes⟩⟩

/-- So are pairs. -/
theorem pairs {base : List Pointer} {parts : List (Pointer × Pointer)} (hbase : ∀ p ∈ base, s.Holds p)
    (hfounded : Founded base (parts.map fun ab => (.cons, [ab.1, ab.2])))
    (hknown : ∀ ab ∈ parts, nodePreimage .cons [ab.1, ab.2] ∈ known) :
    ∃ t : Store, t.Bounded known ∧ s.Grows t ∧
      ∀ ab ∈ parts, t.IsPair (nodePointer .cons [ab.1, ab.2]) ab.1 ab.2 := by
  obtain ⟨t, ht, hgrows, hnodes⟩ := hs.putAll hinjective hbase hfounded (List.forall_mem_map.2 hknown)
  exact ⟨t, ht, hgrows, fun ab hab => ⟨rfl, List.forall_mem_map.1 hnodes ab hab⟩⟩

/-- The pairs of a list are taken in, from its end. -/
theorem putList {ps : List Pointer} (hps : ∀ p ∈ ps, s.Holds p)
    (hknown : ∀ p others, p :: others <:+ ps → nodePreimage .cons [p, listPointer others] ∈ known) :
    (s.putList ps).Bounded known ∧ s.Grows (s.putList ps) := by
  induction ps with
  | nil => exact ⟨hs, .refl (reachable_sound hs.reachable)⟩
  | cons p ps ih =>
    rw [List.forall_mem_cons] at hps
    obtain ⟨hlist, hgrows⟩ := ih hps.2 fun q others hsuffix => hknown q others (hsuffix.trans (List.suffix_cons p ps))
    have hchildren : ∀ c ∈ [p, listPointer ps], (s.putList ps).Holds c := by
      simp [hgrows.holds hps.1, (inherited_holds.grows_putList (reachable_sound hs.reachable) hps.2).2]
    obtain ⟨hput, hmore, -⟩ := hlist.put hinjective rfl hchildren (hknown p ps (List.suffix_refl _))
    exact ⟨hput, hgrows.trans hmore⟩

omit hinjective in
/-- A symbol of the list is taken in. -/
theorem symbol {name : String} (hname : name ≠ "nil") (hknown : symbolPreimage name ∈ known) :
    ∃ t : Store, internSymbol name s = .ok (symbolPointer name) t ∧ t.Bounded known ∧ s.Grows t ∧
      t.Holds (symbolPointer name) := by
  obtain ⟨t, hrun, hhas⟩ := has_internSymbol hs.reachable hname
  have hstore : t = s.recordName (symbolPointer name) name := by
    rw [internSymbol, if_neg hname] at hrun
    cases hrun
    rfl
  have hcontent : t.content ⊆ known := by
    rw [hstore]
    exact (content_recordName s name).trans (Set.insert_subset hknown hs.content)
  have hgrows : s.Grows t := ⟨reachable_sound hs.reachable, reachable_sound hhas.reachable, hhas.retains.extends_,
    hhas.retains.interned, hhas.retains.name, fun _ => hhas.reachable⟩
  exact ⟨t, hrun, ⟨hhas.reachable, hcontent⟩, hgrows, hhas.holds⟩

end Bounded

end Store

/-! ## Turns on a bounded store -/

namespace Turn

/-- What a turn takes in is listed. -/
def Listed (known : Set (List Int)) (cont : Pointer) : Turn → Prop
  | wait _ _ w => nodePreimage w.tag (w.children cont) ∈ known
  | _ => True

/-- What a turn takes in is found. -/
def Found (cont : Pointer) (s : Store) : Turn → Prop
  | wait _ _ w => s.nodes[w.onto cont]? = some (w.children cont)
  | _ => True

theorem bounded_store (hinjective : Set.InjOn Sponge.hash known) (hs : s.Bounded known)
    (hpointers : ∀ p ∈ turn.pointers, s.Holds p) (hcont : s.Holds cont) (hlisted : turn.Listed known cont) :
    (turn.store cont s).Bounded known ∧ s.Grows (turn.store cont s) ∧ turn.Found cont (turn.store cont s) := by
  have hgrows := Grows.refl (reachable_sound hs.reachable)
  cases turn with
  | stop | enter => exact ⟨hs, hgrows, trivial⟩
  | wait expr env w =>
    simp only [pointers, List.forall_mem_cons] at hpointers
    exact hs.put hinjective w.arity (by simp [Waiting.children, hpointers, hcont]) hlisted

end Turn

namespace Machine

/-- One step, which reports nothing, to a state on a store with no other content than this. -/
def Passes (config : Config) (known : Set (List Int)) (st : State) (s : Store) (st' : State) (t : Store) : Prop :=
  ∃ F, F.emitted = [] ∧ RanTo config st s [F] st' t ∧ t.Bounded known ∧ s.Grows t ∧ st'.Held t

namespace Passes

variable {st st' : State} (h : Passes config known st s st' t)
include h

theorem bounded : t.Bounded known := by
  obtain ⟨-, -, -, ht, -, -⟩ := h
  exact ht

theorem grows : s.Grows t := by
  obtain ⟨-, -, -, -, hgrows, -⟩ := h
  exact hgrows

theorem held : st'.Held t := by
  obtain ⟨-, -, -, -, -, hheld⟩ := h
  exact hheld

end Passes

theorem passes_of_next {st st' : State} (hs : s.Bounded known) (hst : st.Held s)
    (hnext : next config st s = (st', t)) (hsilent : report? config st s = none) (ht : t.Bounded known) :
    Passes config known st s st' t := by
  have hsound := reachable_sound hs.reachable
  obtain ⟨hgrows, hheld⟩ := next_moves config hsound hst
  obtain ⟨F, hstep, hfollows⟩ := step_silent config hsound hst hsilent
  have houtput := hfollows.output
  have hemitted := hfollows.emitted
  rw [hnext] at hstep houtput hgrows hheld
  rw [hsilent] at hemitted
  have hran := RanTo.step hstep
  rw [houtput] at hran
  exact ⟨F, hemitted, hran, ht, hgrows, hheld⟩

/-- A run through these states, which comes to a store with no other content than this. -/
def Visits (config : Config) (known : Set (List Int)) (inputs : List State) (st : State) (s : Store) (st' : State)
    (t : Store) : Prop :=
  ∃ frames, frames.map Frame.input = inputs ∧ RanTo config st s frames st' t ∧ t.Bounded known ∧ s.Grows t ∧
    st'.Held t

namespace Visits

variable {inputs : List State} {st st' : State} (h : Visits config known inputs st s st' t)
include h

theorem bounded : t.Bounded known := by
  obtain ⟨-, -, -, ht, -, -⟩ := h
  exact ht

theorem grows : s.Grows t := by
  obtain ⟨-, -, -, -, hgrows, -⟩ := h
  exact hgrows

theorem held : st'.Held t := by
  obtain ⟨-, -, -, -, -, hheld⟩ := h
  exact hheld

end Visits

theorem Passes.visits {st st' : State} (h : Passes config known st s st' t) : Visits config known [st] st s st' t := by
  obtain ⟨F, -, hran, ht, hgrows, hheld⟩ := h
  refine ⟨[F], ?_, hran, ht, hgrows, hheld⟩
  rw [List.map_singleton, input_of_step hran.single]

theorem Visits.trans {inputs inputs' : List State} {st st' st'' : State} (h : Visits config known inputs st s st' t)
    (h' : Visits config known inputs' st' t st'' u) : Visits config known (inputs ++ inputs') st s st'' u := by
  obtain ⟨frames, hframes, hran, -, hgrows, -⟩ := h
  obtain ⟨frames', hframes', hran', hu, hgrows', hheld⟩ := h'
  exact ⟨frames ++ frames', by rw [List.map_append, hframes, hframes'], hran.trans hran', hu, hgrows.trans hgrows',
    hheld⟩

/-- Two runs that halt never collide, if all that they take in is listed. -/
theorem apart_of_halting {lag n : ℕ} {st st' final final' : State} {s' t' : Store} {frames frames' : List Frame}
    (hinjective : Set.InjOn Sponge.hash known) (hs : Reachable s) (hs' : Reachable s') (hst : st.Held s)
    (hst' : st'.Held s') (hran : RanTo config st s frames final t) (hran' : RanTo config st' s' frames' final' t')
    (hhalted : final.isHalted = true) (hhalted' : final'.isHalted = true) (ht : t.content ⊆ known)
    (ht' : t'.content ⊆ known) : Apart config lag n st s st' s' := by
  apply hinjective.mono
  apply Set.union_subset
  · exact (hran.rests hs hst hhalted n).2.trans ht
  · exact (hran'.rests hs' hst' hhalted' (n + lag)).2.trans ht'

end Machine

open Machine

namespace Store.Bounded

variable (config : Config) (hinjective : Set.InjOn Sponge.hash known) (hs : s.Bounded known)
include hinjective hs

/-- A step that looks at an expression and goes on. -/
theorem looks (hst : State.Held ⟨expr, env, cont⟩ s) (hmoving : cont.tag.isHalted = false)
    (hlook : EvalPhase.look config.lookupDepth expr env s = (.turn turn, t)) (ht : t.content ⊆ known)
    (hlisted : turn.Listed known cont) :
    ∃ u, Passes config known ⟨expr, env, cont⟩ s (turn.state cont) u ∧ turn.Found cont u := by
  have hsound := reachable_sound hs.reachable
  obtain ⟨hexpr, henv, hcont⟩ := State.held_iff.1 hst
  obtain ⟨hgrows, hpointers⟩ := EvalPhase.look_inherits inherited_holds config.lookupDepth hsound hexpr henv
  rw [hlook] at hgrows hpointers
  obtain ⟨hu, -, hfound⟩ := Turn.bounded_store hinjective ⟨hgrows.reachable hs.reachable, ht⟩ hpointers
    (hgrows.holds hcont) hlisted
  have hmiddle := middle_eq config ⟨expr, env, []⟩ hmoving s
  rw [hlook] at hmiddle
  have hstate : middle config ⟨expr, env, cont⟩ s = (⟨turn.state cont, false⟩, turn.store cont t) := hmiddle
  refine ⟨_, passes_of_next hs hst ?_ ?_ hu, hfound⟩
  · unfold next
    rw [hstate]
    rfl
  · unfold report?
    rw [hstate]
    rfl

/-- A step that hands a value to a node. -/
theorem hands {w : Waiting} (hst : State.Held ⟨expr, env, w.onto cont⟩ s)
    (hnode : s.nodes[w.onto cont]? = some (w.children cont))
    (hlook : EvalPhase.look config.lookupDepth expr env s = (.value v, t))
    (hsilent : w.report? v = none) (hturn : ContPhase.turn w v env t = (turn, u)) (hu : u.content ⊆ known)
    (hlisted : turn.Listed known cont) :
    ∃ r, Passes config known ⟨expr, env, w.onto cont⟩ s (turn.state cont) r ∧ u.Grows r ∧ turn.Found cont r := by
  have hsound := reachable_sound hs.reachable
  obtain ⟨hexpr, henv, -⟩ := State.held_iff.1 hst
  obtain ⟨hgrows, hpointers⟩ := EvalPhase.look_inherits inherited_holds config.lookupDepth hsound hexpr henv
  rw [hlook] at hgrows hpointers
  have hfound := hgrows.extends_.node hnode
  obtain ⟨hw, hcont⟩ := Waiting.holds hgrows.sound hfound
  have hv : t.Holds v := hpointers v (by simp [Look.pointers])
  obtain ⟨hgrows', hpointers'⟩ := ContPhase.turn_inherits inherited_holds hgrows.sound hw hv (hgrows.holds henv)
  rw [hturn] at hgrows' hpointers'
  obtain ⟨hr, hlater, hfound'⟩ := Turn.bounded_store hinjective
    ⟨(hgrows.trans hgrows').reachable hs.reachable, hu⟩ hpointers' (hgrows'.holds hcont) hlisted
  have hmiddle : middle config ⟨expr, env, w.onto cont⟩ s = (⟨⟨v, env, w.onto cont⟩, true⟩, t) := by
    have hmoving : (w.onto cont).tag.isHalted = false := w.not_halted
    have heq := middle_eq config ⟨expr, env, []⟩ hmoving s
    rw [hlook] at heq
    exact heq
  obtain ⟨hnext, hreport⟩ := next_onto hfound hmiddle
  rw [hturn] at hnext
  exact ⟨_, passes_of_next hs hst hnext (hreport.trans hsilent) hr, hlater, hfound'⟩

omit hinjective in
/-- The last step of a run: it hands a value to the outermost continuation. -/
theorem ends (hst : State.Held ⟨expr, env, .outermost⟩ s)
    (hlook : EvalPhase.look config.lookupDepth expr env s = (.value v, t)) (ht : t.content ⊆ known) :
    Passes config known ⟨expr, env, .outermost⟩ s ⟨v, env, .terminal⟩ t := by
  have hsound := reachable_sound hs.reachable
  obtain ⟨hexpr, henv, -⟩ := State.held_iff.1 hst
  obtain ⟨hgrows, -⟩ := EvalPhase.look_inherits inherited_holds config.lookupDepth hsound hexpr henv
  rw [hlook] at hgrows
  have hmiddle : middle config ⟨expr, env, .outermost⟩ s = (⟨⟨v, env, .outermost⟩, true⟩, t) := by
    have houtermost : Pointer.outermost.tag.isHalted = false := rfl
    have heq := middle_eq config ⟨expr, env, []⟩ houtermost s
    rw [hlook] at heq
    exact heq
  apply passes_of_next hs hst
  · unfold next
    rw [hmiddle]
    rfl
  · unfold report?
    rw [hmiddle]
    rfl
  · exact ⟨hgrows.reachable hs.reachable, ht⟩

end Store.Bounded

/-! ## Stores with specimens -/

namespace Specimen

variable {x : Pointer}

theorem bounded_empty (shared : Bool) : (Store.empty shared).Bounded {xs | xs ∈ preimages} :=
  .empty shared fun _ hname => name_mem (List.mem_cons_of_mem _ hname)

/-- A store with the forms and the calls. -/
structure Prepared (s : Store) : Prop where
  bounded : s.Bounded {xs | xs ∈ preimages}
  pair : ∀ ab ∈ parts, s.IsPair (pair ab.1 ab.2) ab.1 ab.2

theorem Prepared.mono (h : Prepared s) (ht : t.Bounded {xs | xs ∈ preimages}) (hgrows : s.Grows t) : Prepared t :=
  ⟨ht, fun ab hab => (h.pair ab hab).mono hgrows.extends_⟩

theorem exists_prepared : ∃ s, Prepared s := by
  obtain ⟨s, -, hs, -, hnamed⟩ := (bounded_empty false).symbol (show "x" ≠ "nil" by decide) (name_mem (by simp [names]))
  have hsound := reachable_sound hs.reachable
  have hfive : s.Holds five := s.holds_immediate (Pointer.immediate_canonical _ _) rfl
  have hnone : s.Holds Builtin.noParameterPointer := inherited_holds.builtin hsound (by decide)
  have hbase : ∀ p ∈ [.nil, five, named, Builtin.noParameterPointer, Form.bindLet.symbol, Form.lambda.symbol],
      s.Holds p := by
    simp only [List.forall_mem_cons, List.not_mem_nil, false_imp_iff, implies_true, and_true]
    exact ⟨s.holds_nil, hfive, hnamed, hnone, inherited_holds.symbol hsound _, inherited_holds.symbol hsound _⟩
  have hfounded : Founded [.nil, five, named, Builtin.noParameterPointer, Form.bindLet.symbol, Form.lambda.symbol]
      (parts.map fun ab => (.cons, [ab.1, ab.2])) := by
    simp [parts, formParts, Founded, Tag.arity?, fives, single, double, lambdas, applied, symbols, binding, bindings,
      letArguments, lambdaArguments, lambdaForm, Specimen.pair]
  obtain ⟨t, ht, -, hpairs⟩ := hs.pairs injOn_preimages hbase hfounded fun ab => parts_mem
  exact ⟨t, ht, hpairs⟩

namespace Prepared

variable (h : Prepared s)
include h

theorem isPair {a b : Pointer} (hab : (a, b) ∈ parts) : s.IsPair (Specimen.pair a b) a b := h.pair (a, b) hab

theorem pair_fives : s.IsPair fives five .nil := h.isPair (by simp [parts])

theorem pair_single : s.IsPair single .nil .nil := h.isPair (by simp [parts])

theorem pair_double : s.IsPair double (lambdaForm named) single := h.isPair (by simp [parts])

theorem pair_call : s.IsPair call (lambdaForm named) double := h.isPair (by simp [parts])

theorem pair_lambdas : s.IsPair lambdas (lambdaForm named) .nil := h.isPair (by simp [parts])

theorem pair_applied : s.IsPair applied (lambdaForm named) lambdas := h.isPair (by simp [parts])

theorem pair_curried : s.IsPair curried applied single := h.isPair (by simp [parts])

section
variable (hx : x = named ∨ x = Builtin.noParameterPointer)
include hx

theorem formPair {a b : Pointer} (hab : (a, b) ∈ formParts x) : s.IsPair (Specimen.pair a b) a b := by
  apply h.isPair
  rcases hx with rfl | rfl <;> simp [parts, hab]

theorem pair_letForm : s.IsPair (letForm x) Form.bindLet.symbol (letArguments x) := h.formPair hx (by simp [formParts])

theorem pair_application : s.IsPair (application x) (lambdaForm x) fives := h.formPair hx (by simp [formParts])

/-- The form `(let ((x 5)) x)`. -/
theorem isBind : s.IsBind false (letForm x) x five x := by
  have hsymbols : s.IsPair (symbols x) x .nil := h.formPair hx (by simp [formParts])
  have hbinding : s.IsPair (binding x) x fives := h.formPair hx (by simp [formParts])
  have hbindings : s.IsPair (bindings x) (binding x) .nil := h.formPair hx (by simp [formParts])
  have harguments : s.IsPair (letArguments x) (bindings x) (symbols x) := h.formPair hx (by simp [formParts])
  refine ⟨bindings x, binding x, ?_, ?_, ?_⟩
  · rw [(h.pair_letForm hx).items, harguments.items, hsymbols.items]
    rfl
  · rw [hbindings.items]
    rfl
  · rw [hbinding.items, h.pair_fives.items]
    rfl

/-- The function `(lambda (x) x)`. -/
theorem isLambda : s.IsLambda (lambdaForm x) x x := by
  have hsymbols : s.IsPair (symbols x) x .nil := h.formPair hx (by simp [formParts])
  have harguments : s.IsPair (lambdaArguments x) (symbols x) (symbols x) := h.formPair hx (by simp [formParts])
  have hform : s.IsPair (lambdaForm x) Form.lambda.symbol (lambdaArguments x) := h.formPair hx (by simp [formParts])
  refine ⟨symbols x, ?_, ?_⟩
  · rw [hform.items, harguments.items, hsymbols.items]
    rfl
  · rw [hsymbols.items]
    rfl

theorem items_application : s.items 2 (application x) = some [lambdaForm x, five] := by
  rw [(h.pair_application hx).items, h.pair_fives.items]
  rfl

end

end Prepared

/-- The symbol is no constant. -/
theorem expression_variable (hx : x = named ∨ x = Builtin.noParameterPointer) : s.expression x = .variable := by
  have htruth : x ≠ Builtin.truthPointer := by
    rcases hx with rfl | rfl
    · exact symbol_ne (by simp [names]) (by decide) (by decide)
    · exact symbol_ne (by decide) (by decide) (by decide)
  rcases hx with rfl | rfl <;> exact if_neg htruth

end Specimen

/-! ### Functions that capture a binding -/

namespace Capture

open Specimen (pair five fives)

theorem bounded_empty (shared : Bool) : (Store.empty shared).Bounded {xs | xs ∈ preimages} :=
  .empty shared fun _ hname => name_mem (List.mem_cons_of_mem _ (List.mem_cons_of_mem _ hname))

/-- A store with both forms for both expressions, and with the environment that the function captures. -/
structure Prepared (s : Store) : Prop where
  bounded : s.Bounded {xs | xs ∈ preimages}
  pair : ∀ ab ∈ parts, s.IsPair (pair ab.1 ab.2) ab.1 ab.2
  scope : s.nodes[scope]? = some [captured, five, .nil]

theorem Prepared.mono (h : Prepared s) (ht : t.Bounded {xs | xs ∈ preimages}) (hgrows : s.Grows t) : Prepared t :=
  ⟨ht, fun ab hab => (h.pair ab hab).mono hgrows.extends_, hgrows.extends_.node h.scope⟩

theorem exists_prepared : ∃ s, Prepared s := by
  obtain ⟨s, -, hs, -, hcallee⟩ :=
    (bounded_empty false).symbol (show "x" ≠ "nil" by decide) (name_mem (by simp [names]))
  obtain ⟨t, -, ht, hst, hcaptured⟩ := hs.symbol (show "y" ≠ "nil" by decide) (name_mem (by simp [names]))
  have hsound := reachable_sound ht.reachable
  have hfive : t.Holds five := t.holds_immediate (Pointer.immediate_canonical _ _) rfl
  have hbase : ∀ p ∈ [.nil, callee, captured, five, Form.lambda.symbol, Form.bindLet.symbol, Form.bindRec.symbol,
      Form.cond.symbol, same], t.Holds p := by
    simp only [List.forall_mem_cons, List.not_mem_nil, false_imp_iff, implies_true, and_true]
    exact ⟨t.holds_nil, hst.holds hcallee, hcaptured, hfive, inherited_holds.symbol hsound _,
      inherited_holds.symbol hsound _, inherited_holds.symbol hsound _, inherited_holds.symbol hsound _,
      inherited_holds.symbol hsound _⟩
  have hfounded : Founded [.nil, callee, captured, five, Form.lambda.symbol, Form.bindLet.symbol, Form.bindRec.symbol,
      Form.cond.symbol, same] (parts.map fun ab => (.cons, [ab.1, ab.2])) := by
    simp [parts, expressionParts, bindingParts, choiceParts, programParts, Founded, Tag.arity?, call, result, arguments,
      abstraction, abstractions, fives, binding, bindings, delayedArguments, delayed, programBinding, programBindings,
      programArguments, test, branches, choiceArguments, choice, Specimen.pair]
  obtain ⟨u, hu, hgrows, hpairs⟩ := ht.pairs injOn_preimages hbase hfounded fun ab => parts_mem
  have harity : Tag.env.arity? = some [captured, five, .nil].length := rfl
  have hchildren : ∀ c ∈ [captured, five, .nil], u.Holds c := by
    simp only [List.forall_mem_cons, List.not_mem_nil, false_imp_iff, implies_true, and_true]
    exact ⟨hgrows.holds hcaptured, hgrows.holds hfive, u.holds_nil⟩
  obtain ⟨hr, hmore, hscope⟩ := hu.put injOn_preimages harity hchildren (mem_preimages (by simp [listed]))
  exact ⟨_, hr, fun ab hab => (hpairs ab hab).mono hmore.extends_, hscope⟩

namespace Prepared

variable {e body : Pointer} (h : Prepared s)
include h

theorem expression {a b : Pointer} (hab : (a, b) ∈ expressionParts) : s.IsPair (Specimen.pair a b) a b :=
  h.pair (a, b) (expression_mem hab)

/-- The expression `(let ((y 5)) (lambda () y))`. -/
theorem isBind_delayed : s.IsBind false delayed captured five abstraction := by
  have hform := h.expression (a := Form.bindLet.symbol) (b := delayedArguments) (by simp [expressionParts])
  have harguments := h.expression (a := bindings) (b := abstractions) (by simp [expressionParts])
  have hbody := h.expression (a := abstraction) (b := .nil) (by simp [expressionParts])
  have hbindings := h.expression (a := binding) (b := .nil) (by simp [expressionParts])
  have hbinding := h.expression (a := captured) (b := fives) (by simp [expressionParts])
  have hfives := h.expression (a := five) (b := .nil) (by simp [expressionParts])
  refine ⟨bindings, binding, ?_, ?_, ?_⟩
  · rw [delayed, hform.items, delayedArguments, harguments.items, abstractions, hbody.items]
    rfl
  · rw [bindings, hbindings.items]
    rfl
  · rw [binding, hbinding.items, fives, hfives.items]
    rfl

/-- The expression `(lambda () y)`. -/
theorem expression_abstraction : s.expression abstraction = .lambda Builtin.noParameterPointer none captured := by
  have hlambda := h.expression (a := Form.lambda.symbol) (b := arguments) (by simp [expressionParts])
  have harguments := h.expression (a := .nil) (b := result) (by simp [expressionParts])
  have hresult := h.expression (a := captured) (b := .nil) (by simp [expressionParts])
  have hform : formOf? (s.car abstraction) = some .lambda := by rw [abstraction, hlambda.car, formOf?_symbol]
  have hitems : s.items 2 (s.cdr abstraction) = some [.nil, captured] := by
    rw [abstraction, hlambda.cdr, arguments, harguments.items, result, hresult.items]
    rfl
  simp only [expression_of_form rfl hform, formExpression, hitems]
  rfl

/-- The expression `(eq x (lambda () y))`. -/
theorem expression_test : s.expression test = .binary .same callee abstraction := by
  have hform := h.pair (same, programBinding abstraction) (choice_mem (by simp [choiceParts]))
  have hoperands := h.pair (callee, abstractions) (binding_mem (.inl rfl) (by simp [bindingParts, abstractions]))
  have hsecond := h.expression (a := abstraction) (b := .nil) (by simp [expressionParts])
  have hsame : formOf? (s.car test) = some (.binary .same) := by rw [test, hform.car, same, formOf?_symbol]
  have hitems : s.items 2 (s.cdr test) = some [callee, abstraction] := by
    rw [test, hform.cdr, programBinding]
    change s.items 2 (Specimen.pair callee abstractions) = _
    rw [hoperands.items, abstractions, hsecond.items]
    rfl
  simp only [expression_of_form rfl hsame, formExpression, hitems]

/-- The expression `(if (eq x (lambda () y)) nil 5)`. -/
theorem expression_choice : s.expression choice = .cond test .nil five := by
  have hform := h.pair (Form.cond.symbol, choiceArguments) (choice_mem (by simp [choiceParts]))
  have harguments := h.pair (test, branches) (choice_mem (by simp [choiceParts]))
  have hbranches := h.pair (.nil, fives) (choice_mem (by simp [choiceParts]))
  have hfives := h.expression (a := five) (b := .nil) (by simp [expressionParts])
  have hcond : formOf? (s.car choice) = some .cond := by rw [choice, hform.car, formOf?_symbol]
  have hitems : s.items 3 (s.cdr choice) = some [test, .nil, five] := by
    rw [choice, hform.cdr, choiceArguments, harguments.items, branches, hbranches.items, fives, hfives.items]
    rfl
  simp only [expression_of_form rfl hcond, formExpression, hitems]

section
variable (he : e = abstraction ∨ e = delayed) (hbody : body = call ∨ body = choice) (recursive : Bool)
include he hbody

theorem pair_program : s.IsPair (program (bindForm recursive) e body) (bindForm recursive).symbol
    (programArguments e body) :=
  h.pair ((bindForm recursive).symbol, programArguments e body)
    (program_mem he hbody (by cases recursive <;> simp [programParts, bindForm]))

/-- The form `(let ((x e)) body)` for either of the expressions and either of the bodies, or its recursive kind. -/
theorem isBind : s.IsBind recursive (program (bindForm recursive) e body) callee e body := by
  have hform := h.pair_program he hbody recursive
  have harguments := h.pair (programBindings e, Specimen.pair body .nil)
    (program_mem he hbody (by simp [programParts]))
  have hbindings := h.pair (programBinding e, .nil) (binding_mem he (by simp [bindingParts]))
  have hbinding := h.pair (callee, Specimen.pair e .nil) (binding_mem he (by simp [bindingParts]))
  have hes : s.IsPair (Specimen.pair e .nil) e .nil := by
    rcases he with rfl | rfl <;> exact h.expression (by simp [expressionParts])
  have hbodies : s.IsPair (Specimen.pair body .nil) body .nil := by
    rcases hbody with rfl | rfl
    · exact h.expression (by simp [expressionParts])
    · exact h.pair (choice, .nil) (choice_mem (by simp [choiceParts]))
  refine ⟨programBindings e, programBinding e, ?_, ?_, ?_⟩
  · rw [hform.items, programArguments, harguments.items, hbodies.items]
    rfl
  · rw [programBindings, hbindings.items]
    rfl
  · rw [programBinding, hbinding.items, hes.items]
    rfl

/-- Both forms are in the store. -/
theorem holds : s.Holds (program (bindForm recursive) e body) :=
  ((h.pair_program he hbody recursive).holds (reachable_sound h.bounded.reachable)).1

end

end Prepared

end Capture

end FieldLisp
