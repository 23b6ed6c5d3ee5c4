import FieldLisp.Proofs.Machine.Bounded
import FieldLisp.Proofs.Machine.Grammar
import FieldLisp.Proofs.Machine.Operators
import FieldLisp.Proofs.Machine.Reading
import FieldLisp.Proofs.Machine.Walks

/-!
# Arithmetic

A program that computes with integers takes one step for each integer and two for each operator:

* `Arithmetic`: expression trees of sums, differences and products;
* `Store.IsArithmetic`: the expressions of a store that are such trees;
* `Store.intern_datum`: every store takes in any tree;
* `Machine.walks_arithmetic`: the value of a tree is returned to whatever waits for it, by induction on the tree;
* `Machine.arithmetic_completes`: an evaluation comes to the value if its budget allows it, after exactly so many steps.
-/

namespace FieldLisp

open Store

/-! ## Trees -/

/-- The operators of arithmetic without division. -/
inductive Arithmetic.Op where
  | add | sub | mul
  deriving DecidableEq, Repr

/-- Expression trees over integers. -/
inductive Arithmetic where
  | number (n : ℤ)
  | node (op : Arithmetic.Op) (left right : Arithmetic)
  deriving DecidableEq, Repr

namespace Arithmetic

/-- The builtin that computes it. -/
def Op.builtin : Op → BinaryOp
  | add => .add
  | sub => .sub
  | mul => .mul

def Op.apply : Op → ℤ → ℤ → ℤ
  | add, x, y => x + y
  | sub, x, y => x - y
  | mul, x, y => x * y

theorem Op.name_ne_nil (op : Op) : op.builtin.name ≠ "nil" := by
  cases op <;> decide

/-- The value over the integers. -/
def value : Arithmetic → ℤ
  | number n => n
  | node op left right => op.apply left.value right.value

def leaves : Arithmetic → ℕ
  | number _ => 1
  | node _ left right => left.leaves + right.leaves

def operators : Arithmetic → ℕ
  | number _ => 0
  | node _ left right => left.operators + right.operators + 1

/-- The list that a tree is written as. -/
def datum : Arithmetic → Datum
  | number n => .integer n
  | node op left right => .items [.text op.builtin.name, left.datum, right.datum]

/-- The pointer of this list. -/
def pointer : Arithmetic → Pointer
  | number n => .number n
  | node op left right => listPointer [(Form.binary op.builtin).symbol, left.pointer, right.pointer]

theorem leaves_eq (tree : Arithmetic) : tree.leaves = tree.operators + 1 := by
  induction tree with
  | number n => rfl
  | node op left right ihleft ihright =>
    rw [leaves, operators, ihleft, ihright]
    omega

end Arithmetic

variable {config : Config} {s t u bound : Store} {e env cont : Pointer} {tree : Arithmetic}

namespace Store

/-! ## Expressions -/

/-- An expression of the store is this tree: a number, or a list of the symbol of an operator and of two such
expressions. -/
inductive IsArithmetic (s : Store) : Pointer → Arithmetic → Prop
  | number (n : ℤ) : IsArithmetic s (.number n) (.number n)
  | node {e first second : Pointer} {op : Arithmetic.Op} {left right : Arithmetic}
      (hitems : s.items 3 e = some [(Form.binary op.builtin).symbol, first, second])
      (hleft : IsArithmetic s first left) (hright : IsArithmetic s second right) :
      IsArithmetic s e (.node op left right)

theorem IsArithmetic.mono (h : s.IsArithmetic e tree) (hs : s.Sound) (he : s.Holds e) (hext : s.Extends t) :
    t.IsArithmetic e tree := by
  induction h with
  | number n => exact .number n
  | node hitems _ _ ihleft ihright =>
    have hheld := holds_of_items hs he hitems
    refine .node ?_ (ihleft (hheld _ (by simp))) (ihright (hheld _ (by simp)))
    rw [items_within hext hs he, hitems]

/-- A proper list is taken in, from its end. -/
theorem list_eq_ok (hs : s.Sound) {ps : List Pointer} (hps : ∀ p ∈ ps, s.Holds p) :
    list ps .nil s = .ok (listPointer ps) (s.putList ps) := by
  induction ps with
  | nil => rfl
  | cons p ps ih =>
    rw [List.forall_mem_cons] at hps
    obtain ⟨hgrows, hlist⟩ := inherited_holds.grows_putList hs hps.2
    have hchildren : ∀ c ∈ [p, listPointer ps], (s.putList ps).Holds c := by
      simp [hgrows.holds hps.1, hlist]
    rw [list, EStateM.bind_of_ok (ih hps.2)]
    exact (internNode_put hgrows.sound rfl hchildren).1

theorem internItems_cons {datum : Datum} {data : List Datum} {p : Pointer} {ps : List Pointer} {u : Store}
    (h : intern datum s = .ok p t) (h' : internItems data t = .ok ps u) :
    internItems (datum :: data) s = .ok (p :: ps) u := by
  rw [internItems, EStateM.bind_of_ok h, EStateM.bind_of_ok h']
  rfl

/-- A store takes in any tree. If nothing collides the expression is this tree. -/
theorem intern_datum (tree : Arithmetic) (hs : s.Sound) : ∃ t, intern tree.datum s = .ok tree.pointer t ∧ s.Grows t ∧
    t.Holds tree.pointer ∧ (t.Faithful → t.IsArithmetic tree.pointer tree) := by
  induction tree generalizing s with
  | number n =>
    exact ⟨s, rfl, .refl hs, holds_immediate s (Pointer.immediate_canonical .number n) rfl, fun _ => .number n⟩
  | node op left right ihleft ihright =>
    have hgrows := grows_recordName hs (op.name_ne_nil)
    set t := s.recordName (symbolPointer op.builtin.name) op.builtin.name
    have hsymbol : internSymbol op.builtin.name s = .ok (Form.binary op.builtin).symbol t := by
      rw [internSymbol, if_neg (op.name_ne_nil), Form.symbol_eq]
      rfl
    obtain ⟨u, hleft, hgrows', hheld, htree⟩ := ihleft hgrows.sound
    obtain ⟨v, hright, hgrows'', hheld', htree'⟩ := ihright hgrows'.sound
    have hpointers : ∀ p ∈ [(Form.binary op.builtin).symbol, left.pointer, right.pointer], v.Holds p := by
      simp [hgrows''.sound.holds_symbol, hgrows''.holds hheld, hheld']
    obtain ⟨hput, hlist⟩ := inherited_holds.grows_putList hgrows''.sound hpointers
    have hitems : internItems [.text op.builtin.name, left.datum, right.datum] s =
        .ok [(Form.binary op.builtin).symbol, left.pointer, right.pointer] v := by
      refine internItems_cons ?_ (internItems_cons hleft (internItems_cons hright (by rw [internItems]; rfl)))
      rw [intern, hsymbol]
    have hwhole := ((hgrows.trans hgrows').trans hgrows'').trans hput
    refine ⟨_, ?_, hwhole, hlist, fun hfaithful => .node (items_putList hgrows''.sound hpointers hfaithful) ?_ ?_⟩
    · rw [Arithmetic.datum, intern, EStateM.bind_of_ok hitems]
      exact list_eq_ok hgrows''.sound hpointers
    · have hearlier := (hgrows''.trans hput).faithful hfaithful
      exact (htree hearlier).mono hgrows'.sound hheld (hgrows''.trans hput).extends_
    · exact (htree' (hput.faithful hfaithful)).mono hgrows''.sound hheld' hput.extends_

end Store

namespace Machine

/-! ## Runs -/

/-- An operator of arithmetic computes with numbers as integers. -/
theorem applyBinary_arithmetic (s : Store) (op : Arithmetic.Op) (x y : ℤ) :
    s.applyBinary (Form.binary op.builtin).symbol (.number x) (.number y) = (.ok (.number (op.apply x y)), s) := by
  have hnumber {a b : ℤ} (h : (a : Field.Element) = b) : Pointer.number a = .number b := by
    rw [Pointer.number, Pointer.number, Pointer.immediate, Pointer.immediate, Field.cast_eq_iff.1 h]
  rw [s.applyBinary_symbol]
  cases op with
  | add =>
    have hsum : Pointer.number (Field.reduce x + Field.reduce y) = .number (x + y) := hnumber (by simp)
    exact congrArg (fun p => (Except.ok p, s)) hsum
  | sub =>
    have hdifference : Pointer.number (Field.reduce x - Field.reduce y) = .number (x - y) := hnumber (by simp)
    exact congrArg (fun p => (Except.ok p, s)) hdifference
  | mul =>
    have hproduct : Pointer.number (Field.reduce x * Field.reduce y) = .number (x * y) := hnumber (by simp)
    exact congrArg (fun p => (Except.ok p, s)) hproduct

section
variable {op : BinaryOp} {first second a b v : Pointer} {st : State} {k l : ℕ}

/-- What waits for the first operand, and what waits for the second one. -/
def firstWaiting (op : BinaryOp) (second env cont : Pointer) : List Pointer :=
  [(Form.binary op).symbol, second, env, cont]
def secondWaiting (op : BinaryOp) (a cont : Pointer) : List Pointer := [(Form.binary op).symbol, a, .nil, cont]

/-- The form of an operator evaluates its first operand first. -/
theorem middle_binary (hmoving : cont.tag.isHalted = false)
    (hitems : s.items 3 e = some [(Form.binary op).symbol, first, second]) :
    middle config ⟨e, env, cont⟩ s = EvalPhase.push env first .binary (firstWaiting op second env cont) s := by
  obtain ⟨htag, hhead, harguments⟩ := items_cons.1 hitems
  have hform : formOf? (s.car e) = some (.binary op) := by rw [hhead, formOf?_symbol]
  have hexpression : s.expression e = .binary op first second := by
    rw [expression_of_form htag hform, formExpression, harguments]
  rw [middle_of_moving hmoving, EvalPhase.evaluate]
  dsimp only
  rw [hexpression]
  rfl

/-- The value of the first operand is kept, and the second one is next. -/
theorem walks_first (hnode : s.nodes[nodePointer .binary (firstWaiting op second env cont)]? =
      some (firstWaiting op second env cont))
    (hpresents : Presents config a env (nodePointer .binary (firstWaiting op second env cont)) st s) :
    Walks config bound 1 st s fun st t =>
      st = ⟨second, env, nodePointer .binary2 (secondWaiting op a cont)⟩ ∧
        t = s.put .binary2 (secondWaiting op a cont) := by
  refine walks_handed hpresents (by rw [nodePointer_tag]; decide) ?_
  simp only [ContPhase.resume, nodePointer_tag, part_of_node hnode]
  exact ⟨rfl, rfl⟩

/-- The value that an operator gives is handed on in a thunk, and returned from there. -/
theorem walks_second (hbound : bound.Faithful) (hmoving : cont.tag.isHalted = false) (hv : s.Holds v)
    (hnode : s.nodes[nodePointer .binary2 (secondWaiting op a cont)]? = some (secondWaiting op a cont))
    (hvalue : s.applyBinary (Form.binary op).symbol a b = (.ok v, s))
    (hpresents : Presents config b env (nodePointer .binary2 (secondWaiting op a cont)) st s) :
    Walks config bound 1 st s (Presents config v env cont) := by
  refine .of_stage hbound fun hreachable _ _ => ?_
  have hresume : ContPhase.resume ⟨b, env, nodePointer .binary2 (secondWaiting op a cont)⟩ s =
      (⟨nodePointer .thunk [v, .nil], env, cont⟩, s.put .thunk [v, .nil]) := by
    simp only [ContPhase.resume, nodePointer_tag, part_of_node hnode]
    exact congrArg (ContPhase.handOn env cont) hvalue
  have hhanded : Walks config bound 1 st s fun st t =>
      st = ⟨nodePointer .thunk [v, .nil], env, cont⟩ ∧ t = s.put .thunk [v, .nil] :=
    walks_handed hpresents (by rw [nodePointer_tag]; decide) (by rw [hresume]; exact ⟨rfl, rfl⟩)
  refine hhanded.bind (l := 0) ?_
  rintro _ _ - ⟨rfl, rfl⟩
  refine .of_stage hbound fun _ _ hfaithful => walks_zero (presents_of_value hmoving ?_)
  have hthunk := node_put (reachable_sound hreachable) rfl (by simp [hv, holds_nil]) hfaithful
  simp only [expression, nodePointer_tag, part_of_node hthunk]
  rfl

/-- The form of an operator, whose operands return values after so many steps from every store and to whatever waits for
them: one more step takes the form apart, one hands over the value of the first operand, and one that of the second. -/
theorem walks_operator (hbound : bound.Faithful) (hmoving : cont.tag.isHalted = false)
    (hitems : s.items 3 e = some [(Form.binary op).symbol, first, second])
    (hfirst : ∀ t next, s.Grows t → next.tag.isHalted = false →
      Walks config bound k ⟨first, env, next⟩ t (Presents config a env next))
    (hsecond : ∀ t next, s.Grows t → next.tag.isHalted = false →
      Walks config bound l ⟨second, env, next⟩ t (Presents config b env next))
    (ha : ∀ t : Store, t.Holds a) (hv : ∀ t : Store, t.Holds v)
    (hvalue : ∀ t : Store, t.applyBinary (Form.binary op).symbol a b = (.ok v, t)) :
    Walks config bound (1 + (k + (1 + (l + 1)))) ⟨e, env, cont⟩ s (Presents config v env cont) := by
  refine .of_stage hbound fun hreachable hheld _ => ?_
  have hs := reachable_sound hreachable
  obtain ⟨he, henv, hcont⟩ := State.held_iff.1 hheld
  have hparts := holds_of_items hs he hitems
  have hwaiting : ∀ c ∈ firstWaiting op second env cont, s.Holds c := by
    simp [firstWaiting, hs.holds_symbol, hparts second (by simp), henv, hcont]
  have harity : Tag.binary.arity? = some (firstWaiting op second env cont).length := rfl
  obtain ⟨hgrows, -⟩ := grows_put hs harity hwaiting
  have hpush : Walks config bound 1 ⟨e, env, cont⟩ s fun st t =>
      st = ⟨first, env, nodePointer .binary (firstWaiting op second env cont)⟩ ∧
        t = s.put .binary (firstWaiting op second env cont) :=
    walks_silent hmoving (middle_binary hmoving hitems) ⟨rfl, rfl⟩
  refine hpush.bind ?_
  rintro _ _ - ⟨rfl, rfl⟩
  refine .of_stage hbound fun _ _ hfaithful => ?_
  have hnode := node_put hs harity hwaiting hfaithful
  refine (hfirst _ _ hgrows rfl).bind fun st t hgrown hpresents => ?_
  refine (walks_first (hgrown.extends_.node hnode) hpresents).bind ?_
  rintro _ _ - ⟨rfl, rfl⟩
  refine .of_stage hbound fun _ _ hfaithful => ?_
  have hoperand : ∀ c ∈ secondWaiting op a cont, t.Holds c := by
    simp [secondWaiting, hgrown.sound.holds_symbol, holds_nil, (hgrows.trans hgrown).holds hcont, ha]
  have harity' : Tag.binary2.arity? = some (secondWaiting op a cont).length := rfl
  obtain ⟨hgrows', -⟩ := grows_put hgrown.sound harity' hoperand
  have hnode' := node_put hgrown.sound harity' hoperand hfaithful
  refine (hsecond _ _ ((hgrows.trans hgrown).trans hgrows') rfl).bind fun st' u hgrown' hpresents' => ?_
  exact walks_second hbound hmoving (hv u) (hgrown'.extends_.node hnode') (hvalue u) hpresents'

end

/-- The value of a tree is returned to whatever waits for it, after three steps for each operator. -/
theorem walks_arithmetic (hbound : bound.Faithful) (h : s.IsArithmetic e tree) (hmoving : cont.tag.isHalted = false) :
    Walks config bound (3 * tree.operators) ⟨e, env, cont⟩ s (Presents config (.number tree.value) env cont) := by
  have holds_number (t : Store) (n : ℤ) : t.Holds (.number n) := t.holds_immediate (Pointer.immediate_canonical _ _) rfl
  induction tree generalizing s e cont with
  | number n =>
    cases h
    exact walks_zero (presents_of_value hmoving rfl)
  | node op left right ihleft ihright =>
    obtain _ | @⟨_, first, second, _, _, _, hitems, hleft, hright⟩ := h
    refine .of_stage hbound fun hreachable hheld _ => ?_
    have hs := reachable_sound hreachable
    have hparts := holds_of_items hs (State.held_iff.1 hheld).1 hitems
    have hcount : 3 * (Arithmetic.node op left right).operators =
        1 + (3 * left.operators + (1 + (3 * right.operators + 1))) := by
      rw [Arithmetic.operators]
      omega
    rw [hcount]
    -- The operands are trees in every larger store too.
    refine walks_operator hbound hmoving hitems (fun t next hgrows hnext => ?_) (fun t next hgrows hnext => ?_)
      (holds_number · left.value) (holds_number · _) (applyBinary_arithmetic · op _ right.value)
    · exact ihleft (hleft.mono hs (hparts first (by simp)) hgrows.extends_) hnext
    · exact ihright (hright.mono hs (hparts second (by simp)) hgrows.extends_) hnext

/-- From the outermost continuation this takes one step more. -/
theorem walks_to_value (hbound : bound.Faithful) (h : s.IsArithmetic e tree) :
    Walks config bound (tree.leaves + 2 * tree.operators) (.initial e env) s
      fun st _ => st = ⟨.number tree.value, env, .terminal⟩ := by
  have hcount : tree.leaves + 2 * tree.operators = 3 * tree.operators + 1 := by
    rw [tree.leaves_eq]
    omega
  rw [hcount]
  refine (walks_arithmetic hbound h rfl).bind fun st t _ hpresents => ?_
  exact walks_handed hpresents (by decide) rfl

/-- An evaluation of a tree with so many integers and operators takes one step for each integer and two for each
operator, and comes to the value of the tree. With a smaller budget it takes all steps that the budget allows. The
machine reads back the continuations and thunks that it has taken in, so no hashes of what it takes in may collide. -/
theorem arithmetic_completes (config : Config) (env : Option Pointer) (maxSteps : ℤ) (hs : Reachable s)
    (he : s.Holds e) (henv : s.Holds (env.getD .nil)) (h : s.IsArithmetic e tree) (hsteps : 0 ≤ maxSteps)
    (hinjective : Set.InjOn Sponge.hash (after (steps config maxSteps.toNat (.initial e (env.getD .nil))) s).content) :
    ∃ E t, evaluate config maxSteps false e env s = .ok E t ∧
      (tree.leaves + 2 * tree.operators ≤ maxSteps → E.reason = .completed ∧ E.result = .number tree.value ∧
        E.frames.length = tree.leaves + 2 * tree.operators) ∧
      (maxSteps < tree.leaves + 2 * tree.operators → E.reason = .maxStepsReached ∧ E.frames.length = maxSteps) := by
  exact_mod_cast Walks.evaluates hs he henv hsteps rfl hinjective fun _ hbound => walks_to_value hbound h

end Machine

/-! ## A sum -/

namespace Addition

open Machine
open EStateM (bind_of_ok)

theorem bounded_empty (shared : Bool) : (Store.empty shared).Bounded {xs | xs ∈ preimages} :=
  .empty shared fun _ => mem_of_name

/-- The tree of the expression. -/
def sum : Arithmetic := .node .add (.number 1) (.number 2)

/-- A symbol and two numerals in brackets are read as a list of three. -/
theorem read_eq {plus : Pointer} (hplus : internSymbol "+" s = .ok plus t)
    (hlist : list [plus, one, two] .nil t = .ok e u) : read "(+ 1 2)" s = .ok e u := by
  have htokens : tokenize "(+ 1 2)" = [.openParen, .word "+", .word "1", .word "2", .closeParen] := by decide
  have hword : Reading.step ⟨[], [.items []]⟩ (.word "+") s = .ok ⟨[], [.items [plus]]⟩ t := by
    change (internSymbol "+" >>= fun value => Reading.deliver [] value [.items []]) s = _
    rw [bind_of_ok hplus]
    rfl
  have hclose : Reading.step ⟨[], [.items [two, one, plus]]⟩ .closeParen t = .ok ⟨[e], []⟩ u := by
    change (list [plus, one, two] .nil >>= fun value => Reading.deliver [] value []) t = _
    rw [bind_of_ok hlist]
    rfl
  have hreading : (tokenize "(+ 1 2)").foldlM Reading.step ⟨[], []⟩ s = .ok ⟨[e], []⟩ u := by
    rw [htokens]
    change (Reading.step ⟨[], [.items []]⟩ (.word "+") >>= fun reading =>
      [.word "1", .word "2", .closeParen].foldlM Reading.step reading) s = _
    rw [bind_of_ok hword]
    change (Reading.step ⟨[], [.items [two, one, plus]]⟩ .closeParen >>= pure) t = _
    rw [bind_of_ok hclose]
    rfl
  have hall : readAll "(+ 1 2)" s = .ok [e] u := by
    rw [readAll, bind_of_ok hreading]
    rfl
  rw [read, bind_of_ok hall]
  rfl

/-- A store with the expression, and with no other content than what is listed. -/
structure Prepared (s : Store) : Prop where
  bounded : s.Bounded {xs | xs ∈ preimages}
  node : s.nodes[Addition.expression]? = some [plus, operands]
  tree : s.IsArithmetic Addition.expression sum

/-- A fresh store reads the expression. -/
theorem reads (shared : Bool) : ∃ s, read "(+ 1 2)" (.empty shared) = .ok Addition.expression s ∧ Prepared s := by
  obtain ⟨s, hintern, hs, -, hplus⟩ :=
    (bounded_empty shared).symbol (show "+" ≠ "nil" by decide) (mem_of_name (by decide))
  have hname : symbolPointer "+" = plus := (Form.symbol_eq (.binary .add)).symm
  rw [hname] at hintern hplus
  have hsound := reachable_sound hs.reachable
  have hnumber (t : Store) (n : ℤ) : t.Holds (.number n) := t.holds_immediate (Pointer.immediate_canonical _ _) rfl
  have hnumbers : ∀ p ∈ [one, two], s.Holds p := by simp [one, two, hnumber]
  have hitems : ∀ p ∈ [plus, one, two], s.Holds p := List.forall_mem_cons.2 ⟨hplus, hnumbers⟩
  have hlisted : ∀ p others, p :: others <:+ [plus, one, two] → (p, listPointer others) ∈ parts := by
    intro p others hsuffix
    simp only [List.suffix_cons_iff, List.suffix_nil, List.cons.injEq, reduceCtorEq, or_false] at hsuffix
    obtain ⟨rfl, rfl⟩ | ⟨rfl, rfl⟩ | ⟨rfl, rfl⟩ := hsuffix <;>
      simp [parts, listPointer, operands, seconds, Specimen.pair]
  obtain ⟨ht, -⟩ := hs.putList injOn_preimages hitems fun p others hsuffix => parts_mem (hlisted p others hsuffix)
  obtain ⟨hgrows, hoperands⟩ := inherited_holds.grows_putList hsound hnumbers
  have hchildren : ∀ c ∈ [plus, operands], (s.putList [one, two]).Holds c := by
    simp only [List.forall_mem_cons, List.not_mem_nil, false_imp_iff, implies_true, and_true]
    exact ⟨hgrows.holds hplus, hoperands⟩
  have hfaithful := ht.faithful injOn_preimages
  have harity : Tag.cons.arity? = some [plus, operands].length := rfl
  have hnode := node_put hgrows.sound harity hchildren hfaithful
  exact ⟨_, read_eq hintern (list_eq_ok hsound hitems), ht, hnode,
    .node (items_putList hsound hitems hfaithful) (.number 1) (.number 2)⟩

namespace Prepared

variable (h : Prepared s)
include h

theorem holds : s.Holds Addition.expression := (reachable_sound h.bounded.reachable).contains_of_node h.node

theorem held : State.Held (.initial Addition.expression .nil) s := held_initial h.holds s.holds_nil

theorem mono (ht : t.Bounded {xs | xs ∈ preimages}) (hgrows : s.Grows t) : Prepared t :=
  ⟨ht, hgrows.extends_.node h.node,
    h.tree.mono (reachable_sound h.bounded.reachable) h.holds hgrows.extends_⟩

theorem items : s.items 3 Addition.expression = some [plus, one, two] := by
  obtain _ | @⟨_, _, _, _, _, _, hitems, ⟨⟩, ⟨⟩⟩ := h.tree
  exact hitems

theorem expression_eq : s.expression Addition.expression = .binary .add one two := by
  obtain ⟨htag, hhead, harguments⟩ := items_cons.1 h.items
  rw [expression_of_form htag (by rw [hhead, plus, formOf?_symbol]), formExpression, harguments]

/-- What stands in the place of a lambda's parameters is a number. -/
theorem parameters {p q : Pointer} (hnode : s.nodes[operands]? = some [p, q]) : p = one := by
  obtain ⟨-, -, harguments⟩ := items_cons.1 h.items
  have hcdr : s.cdr Addition.expression = operands := part_of_node h.node 1
  rw [hcdr] at harguments
  exact (part_of_node hnode 0).symm.trans (items_cons.1 harguments).2.1

end Prepared

/-- What waits for the first number, and what waits for the second one. -/
def waitsFirst : Waiting := ⟨.binary, Tag.arity_binary, plus, two, .nil⟩
def waitsSecond : Waiting := ⟨.binary2, Tag.arity_binary2, plus, one, .nil⟩

/-- The first frame of the run. It returns nothing yet: the first number is next. -/
structure FirstFrame (config : Config) (s : Store) (F : Frame) (t : Store) : Prop where
  step : Machine.step config (.initial Addition.expression .nil) s = .ok F t
  bounded : t.Bounded {xs | xs ∈ preimages}
  input : F.input = .initial Addition.expression .nil
  output : F.output = ⟨one, .nil, waitsFirst.onto .outermost⟩
  intermediate : F.intermediate = F.output
  node : t.nodes[waitsFirst.onto .outermost]? = some (waitsFirst.children .outermost)
  slot : F.slots.get? ⟨.eval, 2, 0⟩ = some (nodePreimage .cons [plus, operands])

theorem exists_firstFrame (config : Config) (h : Prepared s) : ∃ F t, FirstFrame config s F t := by
  have hs := h.bounded
  have hmiddle : middle config (.initial Addition.expression .nil) s =
      (⟨⟨one, .nil, waitsFirst.onto .outermost⟩, false⟩, s.put .binary (waitsFirst.children .outermost)) :=
    middle_binary rfl h.items
  have hnext : next config (.initial Addition.expression .nil) s =
      (⟨one, .nil, waitsFirst.onto .outermost⟩, s.put .binary (waitsFirst.children .outermost)) := by
    rw [next, hmiddle]
    rfl
  have hsilent : report? config (.initial Addition.expression .nil) s = none := by
    rw [report?, hmiddle]
    rfl
  obtain ⟨F, hstep, hfollows⟩ :=
    step_silent config (reachable_sound hs.reachable) h.held hsilent
  have hintermediate := hfollows.intermediate
  have houtput := hfollows.output
  rw [hmiddle] at hintermediate
  rw [hnext] at hstep houtput
  have htwo : s.Holds two := holds_immediate _ (Pointer.immediate_canonical _ _) rfl
  have houtermost : s.Holds .outermost := holds_immediate _ (Pointer.immediate_canonical _ _) rfl
  have hchildren : ∀ c ∈ waitsFirst.children .outermost, s.Holds c := by
    simp [waitsFirst, Waiting.children, plus, (reachable_sound hs.reachable).holds_symbol, htwo, holds_nil, houtermost]
  have harity : Tag.binary.arity? = some (waitsFirst.children .outermost).length := rfl
  obtain ⟨ht, -, hnode⟩ := hs.put injOn_preimages harity hchildren
    (taken_mem (by simp [taken, waitsFirst, Waiting.children]))
  obtain ⟨P⟩ := own_passage hstep (reachable_sound hs.reachable) h.held
  have hslot := P.slot_of_cons rfl (by rw [hfollows.input]; rfl) (by rw [hfollows.input]; exact h.node)
  exact ⟨F, _, hstep, ht, hfollows.input, houtput, hintermediate.trans houtput.symm, hnode, hslot⟩

/-- The run takes four steps, and takes in no more than what is listed. -/
theorem visits (config : Config) (h : Prepared s) : ∃ t u,
    Visits config {xs | xs ∈ preimages} [.initial Addition.expression .nil, ⟨one, .nil, waitsFirst.onto .outermost⟩,
      ⟨two, .nil, waitsSecond.onto .outermost⟩] (.initial Addition.expression .nil) s
      ⟨nodePointer .thunk [three, .nil], .nil, .outermost⟩ t ∧
    Visits config {xs | xs ∈ preimages} [⟨nodePointer .thunk [three, .nil], .nil, .outermost⟩]
      ⟨nodePointer .thunk [three, .nil], .nil, .outermost⟩ t ⟨three, .nil, .terminal⟩ u := by
  have hs := h.bounded
  have hlook : EvalPhase.look config.lookupDepth Addition.expression .nil s =
      (.turn (.wait one .nil waitsFirst), s) := by
    simp only [EvalPhase.look, h.expression_eq]
    rfl
  obtain ⟨t, hfirst, hfound⟩ := hs.looks config injOn_preimages h.held rfl hlook hs.content
    (taken_mem (by simp [taken, waitsFirst, Waiting.children]))
  obtain ⟨F, -, hran, ht, -, hheld⟩ := id hfirst
  have hturn : ContPhase.turn waitsFirst one .nil t = (.wait two .nil waitsSecond, t) := rfl
  obtain ⟨u, hsecond, -, hfound'⟩ := ht.hands config injOn_preimages hheld hfound rfl rfl hturn
    ht.content (taken_mem (by simp [taken, waitsSecond, Waiting.children]))
  obtain ⟨G, -, hran', hu, -, hheld'⟩ := id hsecond
  have hturn' : ContPhase.turn waitsSecond two .nil u =
      (.enter (nodePointer .thunk [three, .nil]) .nil, u.put .thunk [three, .nil]) :=
    congrArg (ContPhase.delivery .nil) (applyBinary_arithmetic u .add 1 2)
  have hthree : u.Holds three := holds_immediate _ (Pointer.immediate_canonical _ _) rfl
  have harity : Tag.thunk.arity? = some [three, .nil].length := rfl
  obtain ⟨hput, -, hnode⟩ := hu.put injOn_preimages harity (by simp [hthree, holds_nil]) (taken_mem (by simp [taken]))
  obtain ⟨v, hthird, hgrows, -⟩ := hu.hands config injOn_preimages hheld' hfound' rfl rfl hturn' hput.content trivial
  obtain ⟨H, -, hran'', hv, -, hheld''⟩ := id hthird
  have hlook' : EvalPhase.look config.lookupDepth (nodePointer .thunk [three, .nil]) .nil v = (.value three, v) := by
    have hexpression : v.expression (nodePointer .thunk [three, .nil]) = .value three := by
      simp only [Store.expression, nodePointer_tag, part_of_node (hgrows.extends_.node hnode)]
      rfl
    simp only [EvalPhase.look, hexpression]
  exact ⟨v, v, (hfirst.visits.trans hsecond.visits).trans hthird.visits,
    (hv.ends config hheld'' hlook' hv.content).visits⟩

/-- No run from there takes in more than what is listed. -/
theorem content_run (config : Config) (h : Prepared s) (n : ℕ) :
    (after (steps config n (.initial Addition.expression .nil)) s).content ⊆ {xs | xs ∈ preimages} := by
  obtain ⟨t, u, hvisits, hends⟩ := visits config h
  obtain ⟨frames, -, hran, hu, -⟩ := hvisits.trans hends
  exact (hran.rests h.bounded.reachable h.held rfl n).2.trans hu.content

/-- An evaluation comes to three after four steps, and takes in no more than what is listed. -/
theorem evaluates (config : Config) {budget : ℤ} (hbudget : 0 ≤ budget) (h : Prepared s) :
    ∃ E t, evaluate config budget false Addition.expression none s = .ok E t ∧ Prepared t ∧
      (4 ≤ budget → E.reason = .completed ∧ E.result = three ∧ E.frames.length = 4) ∧
      (budget < 4 → E.reason = .maxStepsReached ∧ E.frames.length = budget) := by
  have hinjective := injOn_preimages.mono (content_run config h budget.toNat)
  have henv : s.Holds ((none : Option Pointer).getD .nil) := s.holds_nil
  have hwalks (bound : Store) (hbound : bound.Faithful) : Walks config bound 4 (.initial Addition.expression .nil) s
      fun st _ => st = ⟨three, .nil, .terminal⟩ := walks_to_value hbound h.tree
  obtain ⟨E, t, hrun, hcompletes, hexhausts⟩ :=
    Walks.evaluates h.bounded.reachable h.holds henv hbudget rfl hinjective hwalks
  obtain ⟨-, -, -, hinitial, htaken⟩ := evaluate_eq_ok.1 hrun
  obtain ⟨frames, -, hran, -⟩ := run_ran htaken
  rw [hinitial] at hran
  have hto : RanTo config (.initial Addition.expression .nil) s frames _ t := ⟨hran, rfl⟩
  have hgrows := hto.grows h.bounded.reachable h.held
  have hcontent := (hto.content_subset h.bounded.reachable h.held le_rfl).trans (content_run config h _)
  exact ⟨E, t, hrun, h.mono ⟨hgrows.reachable h.bounded.reachable, hcontent⟩ hgrows, hcompletes, hexhausts⟩

end Addition

/-- The expression `(+ 1 2)` has its value after four steps, and with a budget of three it has none. -/
theorem Machine.arithmetic_completes_sum : ∃ s, Reachable s ∧ s.Holds Addition.expression ∧
    s.IsArithmetic Addition.expression Addition.sum ∧
    (∃ E t, evaluate .standard 4 false Addition.expression none s = .ok E t ∧ E.reason = .completed ∧
      E.result = .number 3 ∧ E.frames.length = 4) ∧
    ∃ E t, evaluate .standard 3 false Addition.expression none s = .ok E t ∧ E.reason = .maxStepsReached ∧
      E.frames.length = 3 := by
  obtain ⟨s, -, h⟩ := Addition.reads false
  have hinjective (n : ℕ) := Addition.injOn_preimages.mono (Addition.content_run .standard h n)
  obtain ⟨E, t, hrun, hcompletes, -⟩ :=
    arithmetic_completes .standard none 4 h.bounded.reachable h.holds s.holds_nil h.tree (by decide)
      (hinjective 4)
  obtain ⟨E', t', hrun', -, hexhausts⟩ :=
    arithmetic_completes .standard none 3 h.bounded.reachable h.holds s.holds_nil h.tree (by decide)
      (hinjective 3)
  obtain ⟨hreason, hresult, hlength⟩ := hcompletes (by decide)
  obtain ⟨hreason', hlength'⟩ := hexhausts (by decide)
  exact ⟨s, h.bounded.reachable, h.holds, h.tree, ⟨E, t, hrun, hreason, hresult, hlength⟩,
    ⟨E', t', hrun', hreason', by exact_mod_cast hlength'⟩⟩

end FieldLisp
