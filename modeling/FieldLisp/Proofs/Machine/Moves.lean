import FieldLisp.Proofs.Machine.ContReduct
import FieldLisp.Proofs.Machine.StepTracking
import FieldLisp.Proofs.Machine.Turns

/-!
# What phases leave behind

A phase goes on to a larger store, and passes on to the state that it makes what nodes and their
children have in common:

* `Store.Grows`: a sound store that has taken in all that another one has, built by operations if that
  is;
* `Store.Inherited`: what passes from a node to its children and back, such as being in the store;
* `Expression.pointers`, `Store.Hereditary.expression`: what an expression is made of;
* `EvalPhase.reduct_inherits`, `ContPhase.reduct_inherits`: the phases pass on what is inherited;
* `EvalPhase.reduct_moves`, `ContPhase.reduct_moves`: in particular, the states that they make are held.
-/

namespace FieldLisp

namespace Store

variable {s t u : Store}

/-! ## Growth -/

/-- Sound stores, of which the second one has taken in all that the first one has. If operations built
the first one, they built the second one. -/
structure Grows (s t : Store) : Prop where
  origin : s.Sound
  sound : t.Sound
  extends_ : s.Extends t
  interned : ∀ {tag : Tag} {cs : List Pointer} {p : Pointer}, s.interned[(tag, cs)]? = some p →
    t.interned[(tag, cs)]? = some p
  name : ∀ {p : Pointer} {name : String}, s.names[p]? = some name → t.names[p]? = some name
  reachable : Reachable s → Reachable t

theorem Grows.refl (hs : s.Sound) : s.Grows s := ⟨hs, hs, .refl s, id, id, id⟩

theorem Grows.trans (h : s.Grows t) (h' : t.Grows u) : s.Grows u :=
  ⟨h.origin, h'.sound, h.extends_.trans h'.extends_, h'.interned ∘ h.interned, h'.name ∘ h.name,
    h'.reachable ∘ h.reachable⟩

theorem Grows.holds (h : s.Grows t) {p : Pointer} (hp : s.Holds p) : t.Holds p := h.extends_.holds hp

/-- A content that was taken in stays so. -/
theorem interned_put {tag tag' : Tag} {cs cs' : List Pointer} {p : Pointer}
    (h : s.interned[(tag, cs)]? = some p) : (s.put tag' cs').interned[(tag, cs)]? = some p := by
  unfold put after internNode
  cases s.checkNode tag' cs' with
  | error fault => exact h
  | ok _ =>
    dsimp only
    cases s.internedAs? tag' cs' with
    | some found => exact h
    | none =>
      change (s.interned.insertIfNew (tag', cs') _)[(tag, cs)]? = _
      rw [Std.HashMap.getElem?_insertIfNew, if_neg, h]
      rintro ⟨hkey, habsent⟩
      refine habsent ?_
      rw [beq_iff_eq.1 hkey, Std.HashMap.mem_iff_isSome_getElem?, h]
      rfl

/-- A node is no symbol. -/
theorem names_put (s : Store) (tag : Tag) (cs : List Pointer) : (s.put tag cs).names = s.names := by
  unfold put after internNode
  cases s.checkNode tag cs with
  | error fault => rfl
  | ok _ =>
    dsimp only
    cases s.internedAs? tag cs <;> rfl

/-- A node is taken in. -/
theorem grows_put {tag : Tag} {cs : List Pointer} (hs : s.Sound) (htag : tag.arity? = some cs.length)
    (hcs : ∀ c ∈ cs, s.Holds c) : s.Grows (s.put tag cs) ∧ (s.put tag cs).Holds (nodePointer tag cs) := by
  have htakes := takes_put tag hs htag hcs
  exact ⟨⟨hs, htakes.sound, htakes.extends_, interned_put, by rw [names_put]; exact id,
    fun h => .node tag h fun c hc => (hcs c hc).canonical⟩, htakes.holds⟩

/-! ## Inheritance -/

/-- What passes from a node to its children and from the children to the node, and holds of all that is
in a store and has no children, other than error values. -/
structure Inherited (P : Store → Pointer → Prop) : Prop where
  holds : ∀ {s p}, P s p → s.Holds p
  mono : ∀ {s t p}, s.Grows t → P s p → P t p
  leaf : ∀ {s p}, s.Holds p → p.tag.arity? = none → p.tag ≠ .error → P s p
  part : ∀ {s p n}, s.Sound → p.tag.arity? = some n → P s p → ∀ i, P s (s.part p i)
  put : ∀ {s tag cs}, s.Sound → tag.arity? = some cs.length → (∀ c ∈ cs, P s c) →
    P (s.put tag cs) (nodePointer tag cs)

/-- To be in the store is inherited. -/
theorem inherited_holds : Inherited Holds where
  holds := id
  mono hgrows hp := hgrows.holds hp
  leaf hp _ _ := hp
  part hs hn hp := hs.holds_part hn hp
  put hs htag hcs := (grows_put hs htag hcs).2

variable {P : Store → Pointer → Prop}

namespace Inherited

theorem immediate (hP : Inherited P) (s : Store) {tag : Tag} (value : Int) (htag : tag.arity? = none)
    (himmediate : tag.isImmediate = true) (herror : tag ≠ .error) : P s (.immediate tag value) :=
  hP.leaf (s.holds_immediate (Pointer.immediate_canonical tag value) himmediate) htag herror

theorem nil (hP : Inherited P) (s : Store) : P s .nil := hP.immediate s 0 rfl rfl (by decide)

theorem number (hP : Inherited P) (s : Store) (n : Int) : P s (.number n) :=
  hP.immediate s _ rfl rfl (by decide)

theorem builtin (hP : Inherited P) (hs : s.Sound) {name : String} (hname : name ∈ Builtin.names) :
    P s (symbolPointer name) := hP.leaf (hs.holds_builtin hname) rfl (fun h => by cases h)

theorem verdict (hP : Inherited P) (hs : s.Sound) (b : Bool) : P s (verdict b) := by
  cases b with
  | false => exact hP.nil s
  | true => exact hP.builtin hs (by decide)

theorem symbol (hP : Inherited P) (hs : s.Sound) (form : Form) : P s form.symbol := by
  rw [Form.symbol_eq]
  refine hP.builtin hs (List.mem_cons_of_mem _ (List.mem_cons_of_mem _ ?_))
  exact List.mem_map.2 ⟨form, form.mem_all, rfl⟩

theorem car (hP : Inherited P) (hs : s.Sound) {p : Pointer} (hp : P s p) : P s (s.car p) := by
  unfold Store.car
  split
  · rename_i htag
    exact hP.part hs (by rw [htag]; rfl) hp 0
  · exact hP.nil s

theorem cdr (hP : Inherited P) (hs : s.Sound) {p : Pointer} (hp : P s p) : P s (s.cdr p) := by
  unfold Store.cdr
  split
  · rename_i htag
    exact hP.part hs (by rw [htag]; rfl) hp 1
  · exact hP.nil s

/-- A node is taken in. -/
theorem grows_put (hP : Inherited P) {tag : Tag} {cs : List Pointer} (hs : s.Sound)
    (htag : tag.arity? = some cs.length) (hcs : ∀ c ∈ cs, P s c) :
    s.Grows (s.put tag cs) ∧ P (s.put tag cs) (nodePointer tag cs) :=
  ⟨(Store.grows_put hs htag fun c hc => hP.holds (hcs c hc)).1, hP.put hs htag hcs⟩

theorem grows_putList (hP : Inherited P) (hs : s.Sound) {ps : List Pointer} (hps : ∀ p ∈ ps, P s p) :
    s.Grows (s.putList ps) ∧ P (s.putList ps) (listPointer ps) := by
  induction ps with
  | nil => exact ⟨.refl hs, hP.nil s⟩
  | cons p ps ih =>
    rw [List.forall_mem_cons] at hps
    obtain ⟨hgrows, hlist⟩ := ih hps.2
    have hchildren : ∀ c ∈ [p, listPointer ps], P (s.putList ps) c := by
      simp [hP.mono hgrows hps.1, hlist]
    have harity : Tag.cons.arity? = some [p, listPointer ps].length := rfl
    obtain ⟨hput, hpair⟩ := hP.grows_put hgrows.sound harity hchildren
    exact ⟨hgrows.trans hput, hpair⟩

theorem grows_putNested (hP : Inherited P) (hs : s.Sound) (form : Form) {more : Option Pointer}
    {body : Pointer} (hmore : ∀ p ∈ more, P s p) (hbody : P s body) :
    s.Grows (s.putNested form more body) ∧ P (s.putNested form more body) (nested form more body) := by
  cases more with
  | none => exact ⟨.refl hs, hbody⟩
  | some rest => exact hP.grows_putList hs (by simp [hP.symbol hs, hmore rest rfl, hbody])

end Inherited

end Store

/-! ## Parts of expressions -/

/-- The pointers that an expression is made of. -/
def Expression.pointers : Expression → List Pointer
  | .value v => [v]
  | .variable | .malformed | .foreign => []
  | .lambda parameter more inner => parameter :: inner :: more.toList
  | .cond test first second => [test, first, second]
  | .body inner => [inner]
  | .bind _ var init more inner => var :: init :: inner :: more.toList
  | .unary _ operand => [operand]
  | .binary _ first second => [first, second]
  | .call0 head => [head]
  | .call head first others => [head, first, others]

namespace Store

/-- What passes on to the parts of pairs. -/
structure Hereditary (s : Store) (P : Pointer → Prop) : Prop where
  car : ∀ {p}, P p → P (s.car p)
  cdr : ∀ {p}, P p → P (s.cdr p)

variable {s : Store} {P : Pointer → Prop} {e p : Pointer}

namespace Hereditary

theorem items (h : s.Hereditary P) {n : ℕ} {ps : List Pointer} (hps : s.items n p = some ps) (hp : P p) :
    ∀ q ∈ ps, P q := by
  induction n generalizing p ps with
  | zero =>
    unfold Store.items at hps
    split at hps <;> cases hps
    exact List.forall_mem_nil _
  | succ n ih =>
    unfold Store.items at hps
    split at hps
    · obtain ⟨qs, hqs, rfl⟩ := Option.map_eq_some_iff.1 hps
      rw [List.forall_mem_cons]
      exact ⟨h.car hp, ih hqs (h.cdr hp)⟩
    · cases hps

theorem rest? {more : Option Pointer} (h : Store.rest? p = some more) (hp : P p) : ∀ q ∈ more, P q := by
  intro q hq
  rwa [(of_rest? h q hq).1]

theorem binding? (h : s.Hereditary P) {list var init : Pointer} {more : Option Pointer}
    (hbinding : s.binding? list = some (var, init, more)) (hlist : P list) :
    P var ∧ P init ∧ ∀ q ∈ more, P q := by
  unfold Store.binding? at hbinding
  split at hbinding
  · split at hbinding
    · rename_i var init hpair
      split at hbinding
      · obtain ⟨more, hmore, hparts⟩ := Option.map_eq_some_iff.1 hbinding
        cases hparts
        have hpair := h.items hpair (h.car hlist)
        simp only [List.mem_cons, List.not_mem_nil, or_false, forall_eq_or_imp, forall_eq] at hpair
        exact ⟨hpair.1, hpair.2, rest? hmore (h.cdr hlist)⟩
      · cases hbinding
    · cases hbinding
  · cases hbinding

theorem binding (h : s.Hereditary P) {recursive : Bool} (hp : P p) :
    ∀ q ∈ (s.bindExpression recursive p).pointers, P q := by
  unfold bindExpression
  split
  · rename_i list body hitems
    have hparts := h.items hitems hp
    have hlist := hparts list (by simp)
    have hbody := hparts body (by simp)
    split
    · simpa [Expression.pointers] using hbody
    · cases hbinding : s.binding? list with
      | none => exact List.forall_mem_nil _
      | some found =>
        obtain ⟨var, init, more⟩ := found
        obtain ⟨hvar, hinit, hmore⟩ := h.binding? hbinding hlist
        simpa [Expression.pointers, hbody, hvar, hinit] using hmore
  · exact List.forall_mem_nil _

theorem form (h : s.Hereditary P) (hdummy : P Builtin.noParameterPointer) (form : Form) (hp : P p) :
    ∀ q ∈ (s.formExpression form p).pointers, P q := by
  cases form with
  | quote | unary op | cond | binary op =>
    unfold formExpression
    dsimp only
    split
    · rename_i hitems
      simpa [Expression.pointers] using h.items hitems hp
    · exact List.forall_mem_nil _
  | bindLet => exact h.binding hp
  | bindRec => exact h.binding hp
  | lambda =>
    unfold formExpression
    dsimp only
    split
    · rename_i list body hitems
      have hparts := h.items hitems hp
      have hlist := hparts list (by simp)
      have hbody := hparts body (by simp)
      cases hparameters : s.parameters? list with
      | none => exact List.forall_mem_nil _
      | some found =>
        unfold parameters? at hparameters
        split at hparameters
        · cases hparameters
          simp [Expression.pointers, hdummy, hbody]
        · split at hparameters
          · obtain ⟨more, hmore, rfl⟩ := Option.map_eq_some_iff.1 hparameters
            have hmore := rest? hmore (h.cdr hlist)
            simpa [Expression.pointers, hbody, h.car hlist] using hmore
          · cases hparameters
    · exact List.forall_mem_nil _

/-- What holds of an expression holds of all that it is made of. -/
theorem expression (h : s.Hereditary P) (hdummy : P Builtin.noParameterPointer)
    (hthunk : e.tag = .thunk → P (s.part e 0)) (he : P e) : ∀ p ∈ (s.expression e).pointers, P p := by
  unfold Store.expression
  cases htag : e.tag with
  | thunk => simpa [Expression.pointers] using hthunk htag
  | symbol =>
    dsimp only
    split
    · simpa [Expression.pointers] using he
    · exact List.forall_mem_nil _
  | cons =>
    dsimp only
    cases formOf? (s.car e) with
    | some form => exact h.form hdummy form (h.cdr he)
    | none =>
      simp only [callExpression]
      split
      · simpa [Expression.pointers] using h.car he
      · split
        · simp [Expression.pointers, h.car he, h.car (h.cdr he), h.cdr (h.cdr he)]
        · exact List.forall_mem_nil _
  | nil | number | function | commitment => simpa [Expression.pointers] using he
  | _ => exact List.forall_mem_nil _

end Hereditary

end Store

namespace Store.Inherited

variable {s : Store} {P : Store → Pointer → Prop} {env v : Pointer}

/-! ## Values -/

theorem expression (hP : Inherited P) (hs : s.Sound) {e : Pointer} (he : P s e) :
    ∀ p ∈ (s.expression e).pointers, P s p := by
  have hpairs : s.Hereditary (P s) := ⟨hP.car hs, hP.cdr hs⟩
  exact hpairs.expression (hP.builtin hs (by decide)) (fun htag => hP.part hs (by rw [htag]; rfl) he 0) he

/-- A binding that a search comes to. -/
theorem search (hP : Inherited P) (hs : s.Sound) {sought node found : Pointer} {depth : ℕ}
    (hnode : P s node) (h : s.search sought depth node = .at found) :
    P s found ∧ found.tag.isEnv = true := by
  induction depth generalizing node with
  | zero =>
    unfold Store.search at h
    split at h <;> cases h
  | succ depth ih =>
    unfold Store.search at h
    split at h
    · rename_i henv
      dsimp only at h
      split at h
      · cases h
        exact ⟨hnode, henv⟩
      · exact ih (hP.part hs (Tag.arity_of_isEnv henv) hnode 2) h
    · cases h

/-- What is computed from numbers is a number or a truth value. -/
theorem numberValue (hP : Inherited P) (hs : s.Sound) {op : BinaryOp} {x y : Int}
    (h : numberValue? op x y = some (.ok v)) : P s v := by
  cases op with
  | add | sub | mul =>
    cases h
    exact hP.number s _
  | div =>
    have h := Option.some.inj h
    split at h <;> cases h
    exact hP.number s _
  | rem =>
    have h := Option.some.inj h
    split at h
    · split at h <;> cases h
      exact hP.number s _
    · cases h
  | equal | less | greater | atMost | atLeast =>
    cases h
    exact hP.verdict hs _
  | same | cons | hide => cases h

end Store.Inherited

namespace Store

variable {s : Store} {P : Store → Pointer → Prop} {v : Pointer}

/-- A value is found or computed, if it is, on a larger store, and has what is inherited. -/
def Finds (P : Store → Pointer → Prop) (s : Store) (result : Except ErrorCode Pointer × Store) : Prop :=
  s.Grows result.2 ∧ ∀ v, result.1 = .ok v → P result.2 v

theorem finds_error (hs : s.Sound) (code : ErrorCode) : Finds P s (.error code, s) :=
  ⟨.refl hs, fun v h => by cases h⟩

theorem finds_ok (hs : s.Sound) (hv : P s v) : Finds P s (.ok v, s) :=
  ⟨.refl hs, fun w h => by
    cases h
    exact hv⟩

variable (hP : Inherited P)
include hP

theorem finds_put {tag : Tag} {cs : List Pointer} (hs : s.Sound) (htag : tag.arity? = some cs.length)
    (hcs : ∀ c ∈ cs, P s c) : Finds P s (.ok (nodePointer tag cs), s.put tag cs) := by
  obtain ⟨hgrows, hnode⟩ := hP.grows_put hs htag hcs
  exact ⟨hgrows, fun w h => by
    cases h
    exact hnode⟩

theorem finds_lookup (hs : s.Sound) (depth : ℕ) (sought : Pointer) {env : Pointer} (henv : P s env) :
    Finds P s (s.lookup depth sought env) := by
  unfold lookup
  cases hsearch : s.search sought depth env with
  | unbound => exact finds_error hs _
  | beyond => exact finds_error hs _
  | «at» node =>
    obtain ⟨hnode, hisEnv⟩ := hP.search hs henv hsearch
    have hvalue := hP.part hs (Tag.arity_of_isEnv hisEnv) hnode 1
    dsimp only
    split
    · rename_i hclosed
      have hparts := hP.part hs (by rw [hclosed.2]; rfl) hvalue
      exact finds_put hP hs rfl (by simp [hparts, hnode])
    · exact finds_ok hs hvalue

theorem finds_unary (hs : s.Sound) (operator : Pointer) (hv : P s v) :
    Finds P s (s.applyUnary operator v) := by
  unfold applyUnary
  cases unaryOf? operator with
  | none => exact finds_error hs _
  | some op =>
    cases op with
    | car =>
      simp only [unaryValue]
      split
      · exact finds_ok hs (hP.car hs hv)
      · exact finds_error hs _
    | cdr =>
      simp only [unaryValue]
      split
      · exact finds_ok hs (hP.cdr hs hv)
      · exact finds_error hs _
    | payload | secret =>
      simp only [unaryValue]
      split
      · rename_i htag
        exact finds_ok hs (hP.part hs (by rw [htag]; rfl) hv _)
      · exact finds_error hs _
    | atom => exact finds_ok hs (hP.verdict hs _)
    | commit => exact finds_put hP hs rfl (by simp [hv, hP.number])
    | emit => exact finds_ok hs hv

theorem finds_binary (hs : s.Sound) (operator : Pointer) {a b : Pointer} (ha : P s a) (hb : P s b) :
    Finds P s (s.applyBinary operator a b) := by
  unfold applyBinary
  cases binaryOf? operator with
  | none => exact finds_error hs _
  | some op =>
    simp only [binaryValue]
    cases hnumeric : numberValue? op (a.digest.headD 0) (b.digest.headD 0) with
    | some result =>
      refine ⟨.refl hs, fun v hv => ?_⟩
      dsimp only at hv
      split at hv
      · exact hP.numberValue hs (hnumeric.trans (congrArg some hv))
      · cases hv
    | none =>
      cases op with
      | cons => exact finds_put hP hs rfl (by simp [ha, hb])
      | hide =>
        dsimp only
        split
        · exact finds_put hP hs rfl (by simp [ha, hb])
        · exact finds_error hs _
      | _ => exact finds_ok hs (hP.verdict hs _)

end Store

/-! ## States -/

theorem State.held_iff {s : Store} {st : State} :
    st.Held s ↔ s.Holds st.expr ∧ s.Holds st.env ∧ s.Holds st.cont := by
  simp only [State.Held, State.pointers, List.forall_mem_cons, List.not_mem_nil, false_imp_iff,
    implies_true, and_true]

variable {s : Store} {P : Store → Pointer → Prop} {expr env cont v : Pointer}

/-- A state all of whose pointers have what is inherited, apart from the error value it may stop with. -/
structure State.Of (P : Store → Pointer → Prop) (s : Store) (st : State) : Prop where
  expr : P s st.expr ∨ ∃ code, st = .fail st.env code
  env : P s st.env
  cont : P s st.cont

theorem State.Of.held (hP : Store.Inherited P) {st : State} (h : st.Of P s) : st.Held s := by
  refine State.held_iff.2 ⟨?_, hP.holds h.env, hP.holds h.cont⟩
  rcases h.expr with hexpr | ⟨code, hfail⟩
  · exact hP.holds hexpr
  · rw [hfail]
    exact s.holds_immediate (Pointer.immediate_canonical .error _) rfl

theorem State.of_holds {st : State} (h : st.Held s) : st.Of Store.Holds s :=
  ⟨.inl (State.held_iff.1 h).1, (State.held_iff.1 h).2.1, (State.held_iff.1 h).2.2⟩

/-- What a phase leaves has what is inherited, on a larger store. -/
def Store.Inherits (P : Store → Pointer → Prop) (s : Store) (st : State) (t : Store) : Prop :=
  s.Grows t ∧ st.Of P t

/-- What a phase leaves is held, on a larger store. -/
def Store.Moves (s : Store) (st : State) (t : Store) : Prop := s.Grows t ∧ st.Held t

section
variable (hP : Store.Inherited P)
include hP

theorem Store.Inherits.moves {st : State} {t : Store} (h : s.Inherits P st t) : s.Moves st t :=
  ⟨h.1, h.2.held hP⟩

theorem Store.inherits_fail (hs : s.Sound) (henv : P s env) (code : ErrorCode) :
    s.Inherits P (.fail env code) s :=
  ⟨.refl hs, .inr ⟨code, rfl⟩, henv, hP.immediate s 0 rfl rfl (by decide)⟩

omit hP in
theorem Store.inherits_refl (hs : s.Sound) (hexpr : P s expr) (henv : P s env) (hcont : P s cont) :
    s.Inherits P ⟨expr, env, cont⟩ s := ⟨.refl hs, .inl hexpr, henv, hcont⟩

/-- A node is taken in, which becomes a part of the state. -/
theorem Store.inherits_put {tag : Tag} {cs : List Pointer} {st : State} (hs : s.Sound)
    (htag : tag.arity? = some cs.length) (hcs : ∀ c ∈ cs, P s c)
    (hst : ∀ p ∈ st.pointers, p = Store.nodePointer tag cs ∨ P s p) : s.Inherits P st (s.put tag cs) := by
  obtain ⟨hgrows, hnode⟩ := hP.grows_put hs htag hcs
  have hall : ∀ p ∈ st.pointers, P (s.put tag cs) p := by
    intro p hp
    rcases hst p hp with rfl | hp
    · exact hnode
    · exact hP.mono hgrows hp
  simp only [State.pointers, List.forall_mem_cons] at hall
  exact ⟨hgrows, .inl hall.1, hall.2.1, hall.2.2.1⟩

/-- A turn, and what it takes in, have what is inherited. -/
def Turn.Inherits (P : Store → Pointer → Prop) (s : Store) (result : Turn × Store) : Prop :=
  s.Grows result.2 ∧ ∀ p ∈ result.1.pointers, P result.2 p

/-- The state that follows a turn has what is inherited. -/
theorem Turn.inherits_state {result : Turn × Store} (h : Turn.Inherits P s result) (hcont : P s cont) :
    s.Inherits P (result.1.state cont) (result.1.store cont result.2) := by
  obtain ⟨turn, t⟩ := result
  obtain ⟨hgrows, hparts⟩ := h
  have hcont := hP.mono hgrows hcont
  cases turn <;>
    simp only [pointers, List.forall_mem_cons, List.not_mem_nil, false_imp_iff, implies_true, and_true] at hparts
  case stop env code => exact ⟨hgrows, (Store.inherits_fail hP hgrows.sound hparts code).2⟩
  case enter expr env => exact ⟨hgrows, .inl hparts.1, hparts.2, hcont⟩
  case wait expr env w =>
    obtain ⟨hexpr, henv, hchildren⟩ := hparts
    have hall : ∀ c ∈ w.children cont, P t c := by simp [Waiting.children, hchildren, hcont]
    have hput : t.Inherits P ⟨expr, env, w.onto cont⟩ (t.put w.tag (w.children cont)) :=
      Store.inherits_put hP hgrows.sound w.arity hall (by simp [State.pointers, Waiting.onto, hexpr, henv])
    exact ⟨hgrows.trans hput.1, hput.2⟩

omit hP in
theorem Turn.inherits_stop (hs : s.Sound) (henv : P s env) (code : ErrorCode) :
    Turn.Inherits P s (.stop env code, s) := ⟨.refl hs, by simpa [pointers] using henv⟩

namespace EvalPhase

/-! ## The evaluation phase -/

/-- What the evaluation phase leaves, and a value that it returns, have what is inherited. -/
def Inherits (P : Store → Pointer → Prop) (s : Store) (result : Outcome × Store) : Prop :=
  s.Inherits P result.1.state result.2 ∧ (result.1.returned = true → P result.2 result.1.state.expr)

/-- What the evaluation phase decides has what is inherited. -/
theorem look_inherits (depth : ℕ) (hs : s.Sound) (hexpr : P s expr) (henv : P s env) :
    s.Grows (look depth expr env s).2 ∧
      ∀ p ∈ (look depth expr env s).1.pointers, P (look depth expr env s).2 p := by
  have hparts := hP.expression hs hexpr
  have hnil := hP.nil s
  have hsymbol := hP.symbol hs
  unfold look
  cases hexpression : s.expression expr <;>
    simp only [hexpression, Expression.pointers, List.forall_mem_cons, Option.mem_toList,
      List.not_mem_nil, false_imp_iff, implies_true, and_true, Look.pointers, Turn.pointers] at hparts ⊢
  case «variable» =>
    obtain ⟨hgrows, hfound⟩ := Store.finds_lookup hP hs depth expr henv
    refine ⟨hgrows, ?_⟩
    cases hresult : (s.lookup depth expr env).1 with
    | ok v => simpa [found, Look.pointers] using hfound v hresult
    | error code => simpa [found, Look.pointers, Turn.pointers] using hP.mono hgrows henv
  case lambda parameter more body =>
    obtain ⟨hparameter, hbody, hmore⟩ := hparts
    obtain ⟨hgrows, hnested⟩ := hP.grows_putNested hs .lambda hmore hbody
    have hchildren : ∀ c ∈ [parameter, nested .lambda more body, env],
        P (s.putNested .lambda more body) c := by
      simp [hP.mono hgrows hparameter, hnested, hP.mono hgrows henv]
    obtain ⟨hput, hfunction⟩ := hP.grows_put hgrows.sound (by rfl : Tag.function.arity? = _) hchildren
    exact ⟨hgrows.trans hput, hfunction⟩
  case bind recursive var init more body =>
    obtain ⟨hvar, hinit, hbody, hmore⟩ := hparts
    obtain ⟨hgrows, hnested⟩ := hP.grows_putNested hs (bindForm recursive) hmore hbody
    have hmono {p : Pointer} (hp : P s p) := hP.mono hgrows hp
    exact ⟨hgrows, hmono hinit, hmono henv, hmono hvar, hnested, hmono henv⟩
  all_goals simp [Store.Grows.refl hs, hparts, henv, hnil, hsymbol]

/-- The evaluation of an expression passes on what is inherited. -/
theorem evaluate_inherits (depth : ℕ) (hs : s.Sound) (hexpr : P s expr) (henv : P s env)
    (hcont : P s cont) : Inherits P s (evaluate depth ⟨expr, env, cont⟩ s) := by
  obtain ⟨hgrows, hparts⟩ := look_inherits hP depth hs hexpr henv
  rw [evaluate_eq]
  generalize look depth expr env s = result at hgrows hparts
  obtain ⟨decision, t⟩ := result
  cases decision with
  | value v =>
    have hv : P t v := hparts v (by simp [Look.pointers])
    exact ⟨⟨hgrows, .inl hv, hP.mono hgrows henv, hP.mono hgrows hcont⟩, fun _ => hv⟩
  | turn turn =>
    have hturn : Turn.Inherits P s (turn, t) := ⟨hgrows, hparts⟩
    exact ⟨Turn.inherits_state hP hturn hcont, fun h => by cases h⟩

/-- The evaluation phase passes on what is inherited. -/
theorem reduct_inherits (depth : ℕ) (hs : s.Sound) {st : State} (hst : st.Of P s) :
    Inherits P s (reduct depth st s) := by
  unfold reduct
  split
  · exact ⟨⟨.refl hs, hst⟩, fun h => by cases h⟩
  · rename_i hhalted
    rcases hst.expr with hexpr | ⟨code, hfail⟩
    · exact evaluate_inherits hP depth hs hexpr hst.env hst.cont
    · rw [hfail] at hhalted
      exact absurd rfl hhalted

omit hP in
/-- What the evaluation phase makes of a state is held. -/
theorem reduct_moves (depth : ℕ) (hs : s.Sound) {st : State} (hst : st.Held s) :
    s.Moves (reduct depth st s).1.state (reduct depth st s).2 :=
  (reduct_inherits Store.inherited_holds depth hs (State.of_holds hst)).1.moves Store.inherited_holds

end EvalPhase

namespace ContPhase

/-! ## The continuation phase -/

theorem inherits_delivery {result : Except ErrorCode Pointer × Store} (h : Store.Finds P s result)
    (henv : P s env) : Turn.Inherits P s (delivery env result) := by
  obtain ⟨found, t⟩ := result
  obtain ⟨hgrows, hfound⟩ := h
  cases found with
  | ok v =>
    obtain ⟨hput, hthunk⟩ := hP.grows_put hgrows.sound (by rfl : Tag.thunk.arity? = some [v, .nil].length)
      (by simp [hfound v rfl, hP.nil])
    have hall := hgrows.trans hput
    exact ⟨hall, by simp [delivery, Turn.pointers, hthunk, hP.mono hall henv]⟩
  | error code => exact ⟨hgrows, by simpa [delivery, Turn.pointers] using hP.mono hgrows henv⟩

/-- A function that is called with an argument passes on what is inherited. -/
theorem entry_inherits (hs : s.Sound) {function caller : Pointer} {more : Option Pointer}
    (hfunction : P s function) (hv : P s v) (hcaller : P s caller) (henv : P s env)
    (hmore : ∀ p ∈ more, p.tag = .cons ∧ P s p) :
    Turn.Inherits P s (entry s function v caller env more) := by
  unfold entry
  split
  swap
  · exact Turn.inherits_stop hs henv _
  rename_i htag
  have hpart := hP.part hs (by rw [htag]; rfl) hfunction
  split
  · exact Turn.inherits_stop hs henv _
  obtain ⟨hgrows, hbound⟩ := hP.grows_put hs
    (by rfl : Tag.env.arity? = some [s.part function 0, v, s.part function 2].length) (by simp [hpart, hv])
  refine ⟨hgrows, ?_⟩
  cases more with
  | none => simp [Turn.pointers, hbound, hP.mono hgrows (hpart 1)]
  | some rest =>
    obtain ⟨hcons, hrest⟩ := hmore rest rfl
    have hrestPart (i : ℕ) := hP.mono hgrows (hP.part hs (by rw [hcons]; rfl) hrest i)
    simp [Turn.pointers, hbound, hrestPart, hP.mono hgrows hcaller, hP.mono hgrows (hpart 1)]

/-- What the continuation phase decides has what is inherited. -/
theorem turn_inherits (hs : s.Sound) {w : Waiting} (hw : ∀ p ∈ [w.first, w.second, w.third], P s p)
    (hv : P s v) (henv : P s env) : Turn.Inherits P s (turn w v env s) := by
  have hfailed (code : ErrorCode) := Turn.inherits_stop hs henv code
  have hnil := hP.nil s
  simp only [List.forall_mem_cons, List.not_mem_nil, false_imp_iff, implies_true, and_true] at hw
  obtain ⟨hfirst, hsecond, hthird⟩ := hw
  unfold turn
  split
  · split
    · rename_i htag
      have hpart := hP.part hs (by rw [htag]; rfl) hv
      split
      · exact ⟨.refl hs, by simp [Turn.pointers, hpart]⟩
      · exact hfailed _
    · exact hfailed _
  · split
    · exact ⟨.refl hs, by simp [Turn.pointers, hfirst, hsecond, hthird, hv]⟩
    · exact hfailed _
  · cases hmore : Store.rest? w.second with
    | none => exact hfailed _
    | some more =>
      refine entry_inherits hP hs hfirst hv hthird henv fun p hp => ?_
      obtain ⟨rfl, hcons⟩ := Store.of_rest? hmore p hp
      exact ⟨hcons, hsecond⟩
  · obtain ⟨hgrows, hbound⟩ := hP.grows_put hs
      (by rfl : Tag.env.arity? = some [w.first, v, w.third].length) (by simp [hfirst, hv, hthird])
    exact ⟨hgrows, by simp [Turn.pointers, hbound, hP.mono hgrows hsecond]⟩
  · obtain ⟨hgrows, hbound⟩ := hP.grows_put hs
      (by rfl : Tag.recEnv.arity? = some [w.first, v, w.third].length) (by simp [hfirst, hv, hthird])
    exact ⟨hgrows, by simp [Turn.pointers, hbound, hP.mono hgrows hsecond]⟩
  · refine ⟨.refl hs, ?_⟩
    split <;> simp [Turn.pointers, hfirst, hsecond, hthird]
  · exact inherits_delivery hP (Store.finds_unary hP hs _ hv) henv
  · exact ⟨.refl hs, by simp [Turn.pointers, hfirst, hsecond, hthird, hv, hnil]⟩
  · exact inherits_delivery hP (Store.finds_binary hP hs _ hsecond hv) henv
  · exact hfailed _

/-- What the continuation phase makes of a value has what is inherited. -/
theorem resume_inherits (hs : s.Sound) (hv : P s v) (henv : P s env) (hcont : P s cont) :
    s.Inherits P (resume ⟨v, env, cont⟩ s).1 (resume ⟨v, env, cont⟩ s).2 := by
  by_cases harity : cont.tag.arity? = some 4
  · have hchild := hP.part hs harity hcont
    rw [resume_eq harity]
    exact Turn.inherits_state hP (turn_inherits hP hs (by simp [Store.waiting, hchild]) hv henv) (hchild 3)
  · cases htag : cont.tag <;> simp only [resume, htag]
    case outermost => exact Store.inherits_refl hs hv henv (hP.immediate s 0 rfl rfl (by decide))
    case call0 | call | call2 | bindLet | bindRec | branch | unary | binary | binary2 =>
      exact absurd (by rw [htag]; rfl) harity
    all_goals exact Store.inherits_fail hP hs henv _

/-- What the continuation phase makes of an outcome has what is inherited. -/
theorem reduct_inherits (hs : s.Sound) {o : Outcome} (h : o.state.Of P s)
    (hvalue : o.returned = true → P s o.state.expr) : s.Inherits P (reduct o s).1 (reduct o s).2 := by
  unfold reduct
  split
  · rename_i hreturned
    exact resume_inherits hP hs (hvalue hreturned) h.env h.cont
  · exact ⟨.refl hs, h⟩

omit hP in
/-- What the continuation phase makes of an outcome is held. -/
theorem reduct_moves (hs : s.Sound) {o : Outcome} (h : o.state.Held s) :
    s.Moves (reduct o s).1 (reduct o s).2 :=
  (reduct_inherits Store.inherited_holds hs (State.of_holds h) fun _ => (State.held_iff.1 h).1).moves
    Store.inherited_holds

end ContPhase

end

end FieldLisp
