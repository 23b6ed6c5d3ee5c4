import FieldLisp.Proofs.Machine.Pursuits

/-!
# What decisions take in

What a run decides can be read off any larger store. If nothing collides, the larger store also finds the nodes
that the decision takes in:

* `Store.Settled`: a faithful store, in a larger one;
* `EvalPhase.Looked`, `ContPhase.Turned`: what a decision takes in on some store is in a larger one;
* `EvalPhase.Looked.lambda`, `ContPhase.Turned.bound`, ...: the nodes that the larger store finds.
-/

namespace FieldLisp

open Store

variable {s t u : Store} {tag : Tag} {cs : List Pointer} {p : Pointer}

namespace Store

/-- A faithful store, in a larger one. -/
structure Settled (s u : Store) : Prop where
  extends_ : s.Extends u
  faithful : s.Faithful

/-- A node of these children is found. -/
def HasNode (u : Store) (tag : Tag) (cs : List Pointer) : Prop := u.nodes[nodePointer tag cs]? = some cs

/-- A proper list of these items is found. -/
def HasList (u : Store) : List Pointer → Prop
  | [] => True
  | p :: ps => u.HasNode .cons [p, listPointer ps] ∧ u.HasList ps

theorem HasNode.part (h : u.HasNode tag cs) (i : ℕ) : u.part (nodePointer tag cs) i = cs.getD i .nil :=
  part_of_node h i

namespace Settled

theorem before (h : t.Settled u) (hgrows : s.Grows t) : s.Settled u :=
  ⟨hgrows.extends_.trans h.extends_, hgrows.faithful h.faithful⟩

theorem hasNode (h : (s.put tag cs).Settled u) (hs : s.Sound) (harity : tag.arity? = some cs.length)
    (hcs : ∀ c ∈ cs, s.Holds c) : u.HasNode tag cs :=
  h.extends_.node (node_put hs harity hcs h.faithful)

theorem hasList {ps : List Pointer} (h : (s.putList ps).Settled u) (hs : s.Sound) (hps : ∀ p ∈ ps, s.Holds p) :
    u.HasList ps := by
  induction ps with
  | nil => trivial
  | cons p ps ih =>
    rw [List.forall_mem_cons] at hps
    obtain ⟨hgrows, hlist⟩ := inherited_holds.grows_putList hs hps.2
    have harity : Tag.cons.arity? = some [p, listPointer ps].length := rfl
    have hchildren : ∀ c ∈ [p, listPointer ps], (s.putList ps).Holds c := by
      simp [hgrows.holds hps.1, hlist]
    obtain ⟨hput, -⟩ := grows_put hgrows.sound harity hchildren
    exact ⟨Settled.hasNode h hgrows.sound harity hchildren, ih (h.before hput) hps.2⟩

/-- A form of the other parameters or bindings is found. -/
theorem hasNested {form : Form} {more : Option Pointer} {body : Pointer} (h : (s.putNested form more body).Settled u)
    (hs : s.Sound) (hmore : ∀ p ∈ more, s.Holds p) (hbody : s.Holds body) :
    ∀ rest ∈ more, u.HasList [form.symbol, rest, body] := by
  rintro rest rfl
  exact Settled.hasList h hs (by simp [hs.holds_symbol, hmore rest rfl, hbody])

end Settled

end Store

/-! ## The evaluation phase -/

namespace EvalPhase

variable {depth : ℕ} {expr env node parameter body var init : Pointer} {more : Option Pointer} {recursive : Bool}

/-- What is decided of an expression on some store, and what this takes in, is in a larger one. -/
def Looked (u : Store) (depth : ℕ) (expr env : Pointer) : Prop :=
  ∃ s : Store, s.Sound ∧ s.Holds expr ∧ s.Holds env ∧ (look depth expr env s).2.Settled u

namespace Looked

variable (h : Looked u depth expr env)
include h

/-- A function that is closed over its own binding is found. -/
theorem closed (hexpr : u.expression expr = .variable) (hsearch : u.search expr depth env = .at node)
    (hclosed : node.tag = .recEnv ∧ (u.part node 1).tag = .function) :
    u.HasNode .function [u.part (u.part node 1) 0, u.part (u.part node 1) 1, node] := by
  obtain ⟨s, hs, hheld, henv, hsettled⟩ := h
  have hextends := (hsettled.before (look_inherits inherited_holds depth hs hheld henv).1).extends_
  rw [expression_within hextends hs hheld] at hexpr
  rw [search_within hextends hs henv] at hsearch
  obtain ⟨hnode, hisEnv⟩ := inherited_holds.search hs henv hsearch
  have hn := Tag.arity_of_isEnv hisEnv
  have hvalue := hs.holds_part hn hnode 1
  rw [hextends.part_eq hs hn hnode] at hclosed ⊢
  have hfunction : (s.part node 1).tag.arity? = some 3 := by rw [hclosed.2]; rfl
  have hparts := hs.holds_part hfunction hvalue
  rw [hextends.part_eq hs hfunction hvalue, hextends.part_eq hs hfunction hvalue]
  have htaken : (look depth expr env s).2 =
      s.put .function [s.part (s.part node 1) 0, s.part (s.part node 1) 1, node] := by
    simp only [look, hexpr, Store.lookup, hsearch, if_pos hclosed]
  rw [htaken] at hsettled
  exact hsettled.hasNode hs rfl (by simp [hparts, hnode])

/-- A function of a lambda expression is found, and so is the expression that its body becomes. -/
theorem lambda (hexpr : u.expression expr = .lambda parameter more body) :
    u.HasNode .function [parameter, nested .lambda more body, env] ∧
      ∀ rest ∈ more, u.HasList [Form.lambda.symbol, rest, body] := by
  obtain ⟨s, hs, hheld, henv, hsettled⟩ := h
  have hextends := (hsettled.before (look_inherits inherited_holds depth hs hheld henv).1).extends_
  rw [expression_within hextends hs hheld] at hexpr
  have hparts := inherited_holds.expression hs hheld
  simp only [hexpr, Expression.pointers, List.forall_mem_cons, Option.mem_toList] at hparts
  obtain ⟨hparameter, hbody, hmore⟩ := hparts
  obtain ⟨hgrows, hnested⟩ := inherited_holds.grows_putNested hs .lambda hmore hbody
  have hchildren : ∀ c ∈ [parameter, nested .lambda more body, env], (s.putNested .lambda more body).Holds c := by
    simp [hgrows.holds hparameter, hnested, hgrows.holds henv]
  have harity : Tag.function.arity? = some [parameter, nested .lambda more body, env].length := rfl
  have htaken : (look depth expr env s).2 =
      (s.putNested .lambda more body).put .function [parameter, nested .lambda more body, env] := by
    simp only [look, hexpr]
  rw [htaken] at hsettled
  exact ⟨hsettled.hasNode hgrows.sound harity hchildren,
    (hsettled.before (grows_put hgrows.sound harity hchildren).1).hasNested hs hmore hbody⟩

/-- The form of the other bindings is found. -/
theorem bind (hexpr : u.expression expr = .bind recursive var init more body) :
    ∀ rest ∈ more, u.HasList [(bindForm recursive).symbol, rest, body] := by
  obtain ⟨s, hs, hheld, henv, hsettled⟩ := h
  have hextends := (hsettled.before (look_inherits inherited_holds depth hs hheld henv).1).extends_
  rw [expression_within hextends hs hheld] at hexpr
  have hparts := inherited_holds.expression hs hheld
  simp only [hexpr, Expression.pointers, List.forall_mem_cons, Option.mem_toList] at hparts
  obtain ⟨-, -, hbody, hmore⟩ := hparts
  have htaken : (look depth expr env s).2 = s.putNested (bindForm recursive) more body := by
    simp only [look, hexpr]
  rw [htaken] at hsettled
  exact hsettled.hasNested hs hmore hbody

end Looked

end EvalPhase

/-! ## The continuation phase -/

namespace ContPhase

variable {w : Waiting} {v env : Pointer}

/-- What a node decides of a value on some store, and what this takes in, is in a larger one. -/
def Turned (u : Store) (w : Waiting) (v env : Pointer) : Prop :=
  ∃ s : Store, s.Sound ∧ (∀ p ∈ [w.first, w.second, w.third], s.Holds p) ∧ s.Holds v ∧ s.Holds env ∧
    (turn w v env s).2.Settled u

theorem settled_delivery {result : Except ErrorCode Pointer × Store} {r : Pointer}
    (hfinds : Store.Finds Store.Holds s result) (hsettled : (delivery env result).2.Settled u)
    (hresult : result.1 = .ok r) : result.2.Settled u ∧ u.HasNode .thunk [r, .nil] := by
  obtain ⟨found, t⟩ := result
  obtain ⟨hgrows, hfound⟩ := hfinds
  cases hresult
  have hchildren : ∀ c ∈ [r, .nil], t.Holds c := by simp [hfound r rfl, holds_nil]
  have harity : Tag.thunk.arity? = some [r, .nil].length := rfl
  exact ⟨hsettled.before (grows_put hgrows.sound harity hchildren).1, hsettled.hasNode hgrows.sound harity hchildren⟩

namespace Turned

variable (h : Turned u w v env)
include h

/-- The environment that a form of bindings makes is found. -/
theorem bound {recursive : Bool} (htag : w.tag = bindTag recursive) :
    u.HasNode (bindEnv recursive) [w.first, v, w.third] := by
  obtain ⟨s, hs, hw, hv, -, hsettled⟩ := h
  simp only [List.forall_mem_cons, List.not_mem_nil, false_imp_iff, implies_true, and_true] at hw
  have htaken : (turn w v env s).2 = s.put (bindEnv recursive) [w.first, v, w.third] := by
    unfold turn
    rw [htag]
    cases recursive <;> rfl
  have harity : (bindEnv recursive).arity? = some [w.first, v, w.third].length := by cases recursive <;> rfl
  rw [htaken] at hsettled
  exact hsettled.hasNode hs harity (by simp [hw, hv])

/-- The environment that a function makes of its argument is found. -/
theorem entered {more : Option Pointer} (htag : w.tag = .call2) (hmore : rest? w.second = some more)
    (hfunction : w.first.tag = .function) (hnamed : u.part w.first 0 ≠ Builtin.noParameterPointer) :
    u.HasNode .env [u.part w.first 0, v, u.part w.first 2] := by
  obtain ⟨s, hs, hw, hv, henv, hsettled⟩ := h
  have hextends := (hsettled.before (turn_inherits inherited_holds hs hw hv henv).1).extends_
  simp only [List.forall_mem_cons, List.not_mem_nil, false_imp_iff, implies_true, and_true] at hw
  have harity : w.first.tag.arity? = some 3 := by rw [hfunction]; rfl
  have hparts := hs.holds_part harity hw.1
  have hpart := hextends.part_eq hs harity hw.1
  rw [hpart] at hnamed ⊢
  rw [hpart]
  have htaken : (turn w v env s).2 = s.put .env [s.part w.first 0, v, s.part w.first 2] := by
    simp only [turn, htag, hmore, entry, if_pos hfunction, if_neg hnamed]
  rw [htaken] at hsettled
  exact hsettled.hasNode hs rfl (by simp [hparts, hv])

/-- The value of a builtin of one operand is found in a thunk, and what computes it is there as well. -/
theorem unary {r : Pointer} (htag : w.tag = .unary) (hresult : (u.applyUnary w.first v).1 = .ok r) :
    u.HasNode .thunk [r, .nil] ∧ ∃ s : Store, s.Sound ∧ s.Holds v ∧ (s.applyUnary w.first v).2.Settled u := by
  obtain ⟨s, hs, hw, hv, henv, hsettled⟩ := h
  have hextends := (hsettled.before (turn_inherits inherited_holds hs hw hv henv).1).extends_
  have htaken : turn w v env s = delivery env (s.applyUnary w.first v) := by simp only [turn, htag]
  rw [htaken] at hsettled
  rw [unary_within hextends hs _ hv] at hresult
  obtain ⟨hcomputed, hthunk⟩ := settled_delivery (finds_unary inherited_holds hs _ hv) hsettled hresult
  exact ⟨hthunk, s, hs, hv, hcomputed⟩

theorem committed (htag : w.tag = .unary) (hop : unaryOf? w.first = some .commit) :
    u.HasNode .commitment [.number 0, v] := by
  have hresult : (u.applyUnary w.first v).1 = .ok (nodePointer .commitment [.number 0, v]) := by
    simp only [applyUnary, hop, unaryValue]
  obtain ⟨-, s, hs, hv, hsettled⟩ := h.unary htag hresult
  have hzero : s.Holds (.number 0) := s.holds_immediate (Pointer.immediate_canonical .number 0) rfl
  simp only [applyUnary, hop, unaryValue] at hsettled
  exact hsettled.hasNode hs rfl (by simp [hv, hzero])

/-- The value of a builtin of two operands is found in a thunk, and what computes it is there as well. -/
theorem binary {r : Pointer} (htag : w.tag = .binary2) (hresult : (u.applyBinary w.first w.second v).1 = .ok r) :
    u.HasNode .thunk [r, .nil] ∧ ∃ s : Store, s.Sound ∧ (∀ p ∈ [w.second, v], s.Holds p) ∧
      (s.applyBinary w.first w.second v).2.Settled u := by
  obtain ⟨s, hs, hw, hv, henv, hsettled⟩ := h
  have hextends := (hsettled.before (turn_inherits inherited_holds hs hw hv henv).1).extends_
  simp only [List.forall_mem_cons, List.not_mem_nil, false_imp_iff, implies_true, and_true] at hw
  have htaken : turn w v env s = delivery env (s.applyBinary w.first w.second v) := by simp only [turn, htag]
  rw [htaken] at hsettled
  rw [binary_within s u] at hresult
  obtain ⟨hcomputed, hthunk⟩ := settled_delivery (finds_binary inherited_holds hs _ hw.2.1 hv) hsettled hresult
  exact ⟨hthunk, s, hs, by simp [hw, hv], hcomputed⟩

theorem paired (htag : w.tag = .binary2) (hop : binaryOf? w.first = some .cons) : u.HasNode .cons [w.second, v] := by
  have hresult : (u.applyBinary w.first w.second v).1 = .ok (nodePointer .cons [w.second, v]) := by
    simp only [applyBinary, hop, binaryValue, numberValue?]
  obtain ⟨-, s, hs, hoperands, hsettled⟩ := h.binary htag hresult
  simp only [applyBinary, hop, binaryValue, numberValue?] at hsettled
  exact hsettled.hasNode hs rfl hoperands

theorem hidden (htag : w.tag = .binary2) (hop : binaryOf? w.first = some .hide) (hnumber : w.second.tag = .number) :
    u.HasNode .commitment [w.second, v] := by
  have hresult : (u.applyBinary w.first w.second v).1 = .ok (nodePointer .commitment [w.second, v]) := by
    simp only [applyBinary, hop, binaryValue, numberValue?, if_pos hnumber]
  obtain ⟨-, s, hs, hoperands, hsettled⟩ := h.binary htag hresult
  simp only [applyBinary, hop, binaryValue, numberValue?, if_pos hnumber] at hsettled
  exact hsettled.hasNode hs rfl hoperands

end Turned

end ContPhase

end FieldLisp
