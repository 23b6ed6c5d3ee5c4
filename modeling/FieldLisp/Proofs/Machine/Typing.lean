import FieldLisp.Proofs.Machine.Safety

/-!
# Well-typed states

Programs keep to a discipline that the store does not enforce. The tag of a node says what its children
are, and a state is made of a value or a thunk, a chain of environments and a chain of continuations:

* `Store.Value`, `Store.EnvChain`, `Store.ContChain`: what may be bound, and where values are kept;
* `Store.Typed`: a store whose pairs, functions, thunks and commitments are made of such parts;
* `Store.Typed.put`: it stays so when a node is taken in that fits;
* `State.Typed`: the states that programs reach.
-/

namespace FieldLisp

/-- Values have these tags. -/
def Tag.isValue : Tag → Bool
  | nil | number | symbol | cons | function | commitment => true
  | _ => false

/-- Rules give these reasons for an error. The two others say that the machine itself is at fault. -/
def ErrorCode.ofProgram : ErrorCode → Bool
  | invalidExpression | invalidContinuation => false
  | _ => true

namespace Store

variable {s t : Store} {p : Pointer}

/-- A value in the store. -/
structure Value (s : Store) (p : Pointer) : Prop where
  holds : s.Holds p
  tag : p.tag.isValue = true

/-- A symbol in the store. -/
structure Symbol (s : Store) (p : Pointer) : Prop where
  holds : s.Holds p
  tag : p.tag = .symbol

/-- A chain of bindings of symbols to values, which ends in nil. -/
inductive EnvChain (s : Store) : Pointer → Prop where
  | nil : EnvChain s .nil
  | bind {p var value outer : Pointer} (env : p.tag.isEnv = true)
      (node : s.nodes[p]? = some [var, value, outer]) (name : s.Symbol var)
      (bound : s.Value value) (rest : EnvChain s outer) : EnvChain s p

/-- What the first three children of a continuation are. The fourth is the next continuation. -/
def FitsFrame (s : Store) : Tag → Pointer → Pointer → Pointer → Prop
  | .call0, env, b, c => s.EnvChain env ∧ b = .nil ∧ c = .nil
  | .call, argument, others, env => s.Value argument ∧ s.Value others ∧ s.EnvChain env
  | .call2, function, others, env => s.Value function ∧ s.Value others ∧ s.EnvChain env
  | .bindLet, var, body, env => s.Symbol var ∧ s.Value body ∧ s.EnvChain env
  | .bindRec, var, body, env => s.Symbol var ∧ s.Value body ∧ s.EnvChain env
  | .branch, first, second, env => s.Value first ∧ s.Value second ∧ s.EnvChain env
  | .unary, operator, b, c => (unaryOf? operator).isSome ∧ b = .nil ∧ c = .nil
  | .binary, operator, second, env => (binaryOf? operator).isSome ∧ s.Value second ∧ s.EnvChain env
  | .binary2, operator, first, c => (binaryOf? operator).isSome ∧ s.Value first ∧ c = .nil
  | _, _, _, _ => False

/-- A chain of continuations, which ends in the outermost one. -/
inductive ContChain (s : Store) : Pointer → Prop where
  | outermost : ContChain s .outermost
  | frame {p a b c outer : Pointer} (node : s.nodes[p]? = some [a, b, c, outer])
      (fits : s.FitsFrame p.tag a b c) (rest : ContChain s outer) : ContChain s p

/-- What the children of an environment are. -/
def FitsBinding (s : Store) (cs : List Pointer) : Prop :=
  ∃ var value outer, cs = [var, value, outer] ∧ s.Symbol var ∧ s.Value value ∧ s.EnvChain outer

/-- What the children of a node are. -/
def FitsNode (s : Store) : Tag → List Pointer → Prop
  | .cons, cs => ∀ c ∈ cs, s.Value c
  | .commitment, cs => ∀ c ∈ cs, s.Value c
  | .thunk, cs => ∃ v, cs = [v, .nil] ∧ s.Value v
  | .function, cs => ∃ parameter body env, cs = [parameter, body, env] ∧ s.Symbol parameter ∧
    s.Value body ∧ s.EnvChain env
  | .env, cs => s.FitsBinding cs
  | .recEnv, cs => s.FitsBinding cs
  | tag, cs => ∃ a b c outer, cs = [a, b, c, outer] ∧ s.FitsFrame tag a b c ∧ s.ContChain outer

/-! ## Larger stores -/

theorem Extends.value (h : s.Extends t) (hp : s.Value p) : t.Value p := ⟨h.holds hp.holds, hp.tag⟩

theorem Extends.symbol (h : s.Extends t) (hp : s.Symbol p) : t.Symbol p := ⟨h.holds hp.holds, hp.tag⟩

theorem Extends.envChain (h : s.Extends t) (hp : s.EnvChain p) : t.EnvChain p := by
  induction hp with
  | nil => exact .nil
  | bind henv hnode hvar hvalue _ ih => exact .bind henv (h.node hnode) (h.symbol hvar) (h.value hvalue) ih

theorem Extends.fitsFrame (h : s.Extends t) {tag : Tag} {a b c : Pointer}
    (hfits : s.FitsFrame tag a b c) : t.FitsFrame tag a b c := by
  cases tag with
  | call0 => exact ⟨h.envChain hfits.1, hfits.2⟩
  | call | call2 | branch => exact ⟨h.value hfits.1, h.value hfits.2.1, h.envChain hfits.2.2⟩
  | bindLet | bindRec => exact ⟨h.symbol hfits.1, h.value hfits.2.1, h.envChain hfits.2.2⟩
  | binary => exact ⟨hfits.1, h.value hfits.2.1, h.envChain hfits.2.2⟩
  | unary => exact hfits
  | binary2 => exact ⟨hfits.1, h.value hfits.2.1, hfits.2.2⟩
  | _ => exact hfits

theorem Extends.contChain (h : s.Extends t) (hp : s.ContChain p) : t.ContChain p := by
  induction hp with
  | outermost => exact .outermost
  | frame hnode hfits _ ih => exact .frame (h.node hnode) (h.fitsFrame hfits) ih

theorem Extends.fitsNode (h : s.Extends t) {tag : Tag} {cs : List Pointer}
    (hfits : s.FitsNode tag cs) : t.FitsNode tag cs := by
  cases tag with
  | cons | commitment => exact fun c hc => h.value (hfits c hc)
  | thunk =>
    obtain ⟨v, hcs, hv⟩ := hfits
    exact ⟨v, hcs, h.value hv⟩
  | function =>
    obtain ⟨parameter, body, env, hcs, hparameter, hbody, henv⟩ := hfits
    exact ⟨parameter, body, env, hcs, h.symbol hparameter, h.value hbody, h.envChain henv⟩
  | env | recEnv =>
    obtain ⟨var, value, outer, hcs, hvar, hvalue, houter⟩ := hfits
    exact ⟨var, value, outer, hcs, h.symbol hvar, h.value hvalue, h.envChain houter⟩
  | _ =>
    obtain ⟨a, b, c, outer, hcs, hframe, houter⟩ := hfits
    exact ⟨a, b, c, outer, hcs, h.fitsFrame hframe, h.contChain houter⟩

/-! ## Membership -/

theorem EnvChain.holds (hs : s.Sound) (h : s.EnvChain p) : s.Holds p := by
  cases h with
  | nil => exact s.holds_nil
  | bind _ hnode => exact hs.contains_of_node hnode

theorem ContChain.holds (hs : s.Sound) (h : s.ContChain p) : s.Holds p := by
  cases h with
  | outermost => exact s.holds_immediate (Pointer.immediate_canonical .outermost 0) rfl
  | frame hnode => exact hs.contains_of_node hnode

theorem holds_unary (hs : s.Sound) (hop : (unaryOf? p).isSome) : s.Holds p := by
  unfold unaryOf? at hop
  cases hform : formOf? p with
  | none => simp [hform] at hop
  | some form =>
    rw [EvalPhase.symbol_of_form hform]
    exact hs.holds_symbol form

theorem holds_binary (hs : s.Sound) (hop : (binaryOf? p).isSome) : s.Holds p := by
  unfold binaryOf? at hop
  cases hform : formOf? p with
  | none => simp [hform] at hop
  | some form =>
    rw [EvalPhase.symbol_of_form hform]
    exact hs.holds_symbol form

theorem FitsFrame.holds (hs : s.Sound) {tag : Tag} {a b c : Pointer} (h : s.FitsFrame tag a b c) :
    s.Holds a ∧ s.Holds b ∧ s.Holds c := by
  cases tag with
  | call0 =>
    obtain ⟨henv, rfl, rfl⟩ := h
    exact ⟨henv.holds hs, s.holds_nil, s.holds_nil⟩
  | call | call2 | branch => exact ⟨h.1.holds, h.2.1.holds, h.2.2.holds hs⟩
  | bindLet | bindRec => exact ⟨h.1.holds, h.2.1.holds, h.2.2.holds hs⟩
  | unary =>
    obtain ⟨hop, rfl, rfl⟩ := h
    exact ⟨holds_unary hs hop, s.holds_nil, s.holds_nil⟩
  | binary => exact ⟨holds_binary hs h.1, h.2.1.holds, h.2.2.holds hs⟩
  | binary2 =>
    obtain ⟨hop, hfirst, rfl⟩ := h
    exact ⟨holds_binary hs hop, hfirst.holds, s.holds_nil⟩
  | _ => exact h.elim

/-- What fits is in the store. -/
theorem FitsNode.holds (hs : s.Sound) {tag : Tag} {cs : List Pointer} (h : s.FitsNode tag cs) :
    ∀ c ∈ cs, s.Holds c := by
  cases tag with
  | cons | commitment => exact fun c hc => (h c hc).holds
  | thunk =>
    obtain ⟨v, rfl, hv⟩ := h
    simp [hv.holds, s.holds_nil]
  | function =>
    obtain ⟨parameter, body, env, rfl, hparameter, hbody, henv⟩ := h
    simp [hparameter.holds, hbody.holds, henv.holds hs]
  | env | recEnv =>
    obtain ⟨var, value, outer, rfl, hvar, hvalue, houter⟩ := h
    simp [hvar.holds, hvalue.holds, houter.holds hs]
  | _ =>
    obtain ⟨a, b, c, outer, rfl, hframe, houter⟩ := h
    simp [FitsFrame.holds hs hframe, houter.holds hs]

/-! ## Typed stores -/

/-- A store that operations built, all of whose nodes are made of what their tags call for. -/
structure Typed (s : Store) : Prop where
  reachable : Reachable s
  node : ∀ {p : Pointer} {cs : List Pointer}, s.nodes[p]? = some cs → s.FitsNode p.tag cs

/-- A larger store that is still typed. -/
structure Widens (s t : Store) : Prop where
  typed : t.Typed
  extends_ : s.Extends t

namespace Typed

theorem sound (hs : s.Typed) : s.Sound := reachable_sound hs.reachable

/-- A node that fits is taken in. -/
theorem put (hs : s.Typed) {tag : Tag} {cs : List Pointer} (htag : tag.arity? = some cs.length)
    (hfits : s.FitsNode tag cs) :
    s.Widens (s.put tag cs) ∧ (s.put tag cs).Holds (nodePointer tag cs) := by
  have hcs := FitsNode.holds hs.sound hfits
  have htakes := takes_put tag hs.sound htag hcs
  obtain ⟨hgrows, hnode⟩ := grows_put hs.sound htag hcs
  refine ⟨⟨⟨hgrows.reachable hs.reachable, fun {p ds} hp => ?_⟩, hgrows.extends_⟩, hnode⟩
  rcases htakes.fresh hp with hp | ⟨rfl, rfl⟩
  · exact hgrows.extends_.fitsNode (hs.node hp)
  · exact hgrows.extends_.fitsNode hfits

end Typed

theorem Widens.refl (hs : s.Typed) : s.Widens s := ⟨hs, .refl s⟩

theorem Widens.trans {u : Store} (h : s.Widens t) (h' : t.Widens u) : s.Widens u :=
  ⟨h'.typed, h.extends_.trans h'.extends_⟩

theorem value_nil (s : Store) : s.Value .nil := ⟨s.holds_nil, rfl⟩

theorem value_number (s : Store) (n : Int) : s.Value (.number n) :=
  ⟨s.holds_immediate (Pointer.immediate_canonical .number n) rfl, rfl⟩

theorem value_verdict (hs : s.Sound) (b : Bool) : s.Value (verdict b) := by
  refine ⟨MarkM.holds_truth hs b, ?_⟩
  cases b <;> rfl

theorem value_symbol (hs : s.Sound) (form : Form) : s.Value form.symbol := by
  refine ⟨hs.holds_symbol form, ?_⟩
  rw [Form.symbol_eq]
  rfl

/-! ## Parts -/

theorem EnvChain.parts (h : s.EnvChain p) (henv : p.tag.isEnv = true) :
    s.Symbol (s.part p 0) ∧ s.Value (s.part p 1) ∧ s.EnvChain (s.part p 2) := by
  cases h with
  | nil => cases henv
  | bind _ hnode hvar hvalue hrest =>
    simp only [part_of_node hnode]
    exact ⟨hvar, hvalue, hrest⟩

theorem ContChain.parts (h : s.ContChain p) (hframe : p.tag.arity? = some 4) :
    s.FitsFrame p.tag (s.part p 0) (s.part p 1) (s.part p 2) ∧ s.ContChain (s.part p 3) := by
  cases h with
  | outermost => cases hframe
  | frame hnode hfits hrest =>
    simp only [part_of_node hnode]
    exact ⟨hfits, hrest⟩

/-- A chain is at rest nowhere. -/
theorem ContChain.not_halted (h : s.ContChain p) : p.tag.isHalted = false := by
  cases h with
  | outermost => rfl
  | frame _ hfits => cases htag : p.tag <;> rw [htag] at hfits <;> first | rfl | cases hfits

namespace Typed

theorem fits (hs : s.Typed) {n : ℕ} (hn : p.tag.arity? = some n) (hp : s.Holds p) :
    s.FitsNode p.tag (s.children p) := hs.node (hs.sound.children_eq hn hp).1

/-- Environments are chains. -/
theorem envChain (hs : s.Typed) (henv : p.tag.isEnv = true) (hp : s.Holds p) : s.EnvChain p := by
  have hn := Tag.arity_of_isEnv henv
  have hnode := (hs.sound.children_eq hn hp).1
  have hfits : s.FitsBinding (s.children p) := by
    have hfits := hs.fits hn hp
    cases htag : p.tag <;> rw [htag] at hfits henv <;> first | exact hfits | cases henv
  obtain ⟨var, value, outer, hchildren, hvar, hvalue, houter⟩ := hfits
  rw [hchildren] at hnode
  exact .bind henv hnode hvar hvalue houter

/-- Continuations with children are chains. -/
theorem contChain (hs : s.Typed) (hframe : p.tag.arity? = some 4) (hp : s.Holds p) : s.ContChain p := by
  have hnode := (hs.sound.children_eq hframe hp).1
  have hfits : ∃ a b c outer, s.children p = [a, b, c, outer] ∧ s.FitsFrame p.tag a b c ∧
      s.ContChain outer := by
    have hfits := hs.fits hframe hp
    cases htag : p.tag <;> rw [htag] at hfits hframe <;> first | exact hfits | cases hframe
  obtain ⟨a, b, c, outer, hchildren, hfits, houter⟩ := hfits
  rw [hchildren] at hnode
  exact .frame hnode hfits houter

/-- A binding in front of a chain is a chain. -/
theorem putEnv (hs : s.Typed) (tag : Tag) {var value outer : Pointer} (htag : tag.isEnv = true)
    (hvar : s.Symbol var) (hvalue : s.Value value) (houter : s.EnvChain outer) :
    s.Widens (s.put tag [var, value, outer]) ∧
      (s.put tag [var, value, outer]).EnvChain (nodePointer tag [var, value, outer]) := by
  have hfits : s.FitsNode tag [var, value, outer] := by
    cases tag <;> first | exact ⟨var, value, outer, rfl, hvar, hvalue, houter⟩ | cases htag
  obtain ⟨hwidens, hnode⟩ := hs.put (Tag.arity_of_isEnv htag) hfits
  exact ⟨hwidens, hwidens.typed.envChain htag hnode⟩

/-- A continuation in front of a chain is a chain. -/
theorem putFrame (hs : s.Typed) (tag : Tag) {a b c outer : Pointer} (htag : tag.arity? = some 4)
    (hfits : s.FitsFrame tag a b c) (houter : s.ContChain outer) :
    s.Widens (s.put tag [a, b, c, outer]) ∧
      (s.put tag [a, b, c, outer]).ContChain (nodePointer tag [a, b, c, outer]) := by
  have hnode : s.FitsNode tag [a, b, c, outer] := by
    cases tag <;> first | exact ⟨a, b, c, outer, rfl, hfits, houter⟩ | cases htag
  obtain ⟨hwidens, hheld⟩ := hs.put htag hnode
  exact ⟨hwidens, hwidens.typed.contChain htag hheld⟩

/-- Pairs and commitments are made of values. -/
theorem value_part (hs : s.Typed) (htag : p.tag = .cons ∨ p.tag = .commitment) (hp : s.Holds p) (i : ℕ) :
    s.Value (s.part p i) := by
  have hchildren : ∀ c ∈ s.children p, s.Value c := by
    rcases htag with htag | htag
    · have hfits := hs.fits (by rw [htag]; rfl) hp
      rw [htag] at hfits
      exact hfits
    · have hfits := hs.fits (by rw [htag]; rfl) hp
      rw [htag] at hfits
      exact hfits
  rw [part, List.getD_eq_getElem?_getD]
  cases hc : (s.children p)[i]? with
  | none => exact s.value_nil
  | some c => exact hchildren c (List.mem_of_getElem? hc)

theorem hereditary_value (hs : s.Typed) : s.Hereditary s.Value where
  car {p} hp := by
    unfold Store.car
    split
    · exact hs.value_part (.inl ‹_›) hp.holds 0
    · exact s.value_nil
  cdr {p} hp := by
    unfold Store.cdr
    split
    · exact hs.value_part (.inl ‹_›) hp.holds 1
    · exact s.value_nil

theorem value_thunk (hs : s.Typed) (htag : p.tag = .thunk) (hp : s.Holds p) : s.Value (s.part p 0) := by
  have hfits := hs.fits (by rw [htag]; rfl) hp
  rw [htag] at hfits
  obtain ⟨v, hchildren, hv⟩ := hfits
  rw [part, hchildren]
  exact hv

theorem function_parts (hs : s.Typed) (htag : p.tag = .function) (hp : s.Holds p) :
    s.Symbol (s.part p 0) ∧ s.Value (s.part p 1) ∧ s.EnvChain (s.part p 2) := by
  have hfits := hs.fits (by rw [htag]; rfl) hp
  rw [htag] at hfits
  obtain ⟨parameter, body, env, hchildren, hparts⟩ := hfits
  simp only [part, hchildren]
  exact hparts

end Typed

end Store

/-! ## Parts of expressions -/

/-- An expression that the grammar allows for, or one that breaks it: what is bound is a symbol. -/
def Expression.Binds : Expression → Prop
  | .lambda parameter _ _ => parameter.tag = .symbol
  | .bind _ var _ _ _ => var.tag = .symbol
  | .foreign => False
  | _ => True

namespace Store

variable {s : Store} {p : Pointer}

theorem parameters?_symbol {list parameter : Pointer} {more : Option Pointer}
    (h : s.parameters? list = some (parameter, more)) : parameter.tag = .symbol := by
  unfold parameters? at h
  split at h
  · cases h
    rfl
  · split at h
    · rename_i hsymbol
      obtain ⟨_, -, hparts⟩ := Option.map_eq_some_iff.1 h
      cases hparts
      exact hsymbol.2
    · cases h

theorem binding?_symbol {list var init : Pointer} {more : Option Pointer}
    (h : s.binding? list = some (var, init, more)) : var.tag = .symbol := by
  unfold binding? at h
  split at h
  · split at h
    · split at h
      · rename_i hsymbol
        obtain ⟨_, -, hparts⟩ := Option.map_eq_some_iff.1 h
        cases hparts
        exact hsymbol
      · cases h
    · cases h
  · cases h

theorem binds_bind (s : Store) (recursive : Bool) (p : Pointer) : (s.bindExpression recursive p).Binds := by
  unfold bindExpression
  split
  · split
    · trivial
    · split
      · rename_i hbinding
        exact binding?_symbol hbinding
      · trivial
  · trivial

theorem binds_form (s : Store) (form : Form) (p : Pointer) : (s.formExpression form p).Binds := by
  cases form with
  | bindLet => exact s.binds_bind false p
  | bindRec => exact s.binds_bind true p
  | lambda =>
    unfold formExpression
    dsimp only
    split
    · split
      · rename_i hparameters
        exact parameters?_symbol hparameters
      · trivial
    · trivial
  | _ =>
    unfold formExpression
    dsimp only
    split <;> trivial

/-- Values and thunks are expressions. -/
theorem binds_expression (s : Store) (h : p.tag.isValue = true ∨ p.tag = .thunk) :
    (s.expression p).Binds := by
  unfold expression
  cases htag : p.tag <;> rw [htag] at h <;> dsimp only
  case symbol => split <;> trivial
  case cons =>
    split
    · exact s.binds_form _ _
    · unfold callExpression
      split
      · trivial
      · split <;> trivial
  all_goals trivial

/-- An expression is made of values. -/
theorem Typed.value_expression (hs : s.Typed) (h : s.Value p ∨ s.Holds p ∧ p.tag = .thunk) :
    ∀ q ∈ (s.expression p).pointers, s.Value q := by
  rcases h with hp | ⟨hp, htag⟩
  · refine hs.hereditary_value.expression ⟨hs.sound.holds_builtin (by decide), rfl⟩ (fun htag => ?_) hp
    have hvalue := hp.tag
    rw [htag] at hvalue
    cases hvalue
  · simpa [expression, htag, Expression.pointers] using hs.value_thunk htag hp

end Store

/-! ## Typed states -/

/-- A state that a program reaches: it runs, with a value or a thunk to evaluate next, or it has come to
a value or to an error of the program. -/
inductive State.Typed (s : Store) : State → Prop where
  | running {expr env cont : Pointer} (expression : s.Value expr ∨ s.Holds expr ∧ expr.tag = .thunk)
      (bound : s.EnvChain env) (frames : s.ContChain cont) : Typed s ⟨expr, env, cont⟩
  | completed {value env : Pointer} (result : s.Value value) (bound : s.EnvChain env) :
      Typed s ⟨value, env, .terminal⟩
  | failed {code : ErrorCode} {env : Pointer} (reason : code.ofProgram = true)
      (bound : s.EnvChain env) : Typed s (.fail env code)

theorem State.Typed.mono {s t : Store} {st : State} (h : s.Extends t) (hst : st.Typed s) : st.Typed t := by
  cases hst with
  | running hexpr henv hcont =>
    exact .running (hexpr.imp h.value fun hthunk => ⟨h.holds hthunk.1, hthunk.2⟩) (h.envChain henv)
      (h.contChain hcont)
  | completed hvalue henv => exact .completed (h.value hvalue) (h.envChain henv)
  | failed hcode henv => exact .failed hcode (h.envChain henv)

theorem State.Typed.held {s : Store} {st : State} (hs : s.Sound) (hst : st.Typed s) : st.Held s := by
  rw [State.held_iff]
  cases hst with
  | running hexpr henv hcont =>
    exact ⟨hexpr.elim Store.Value.holds And.left, henv.holds hs, hcont.holds hs⟩
  | completed hvalue henv =>
    exact ⟨hvalue.holds, henv.holds hs,
      s.holds_immediate (Pointer.immediate_canonical .terminal 0) rfl⟩
  | failed _ henv =>
    exact ⟨s.holds_immediate (Pointer.immediate_canonical .error _) rfl, henv.holds hs,
      s.holds_immediate (Pointer.immediate_canonical .failed 0) rfl⟩

end FieldLisp
