import FieldLisp.Proofs.Machine.Pairs
import FieldLisp.Proofs.Machine.Searches
import FieldLisp.Proofs.Machine.Taking

/-!
# Counterparts

Two runs bind a symbol to the same value in front of the same environment, the first one plainly and the second
one recursively. If the value is a function, the second run closes it over its own binding, and it loses the environment
that it was made in. Here is what then stands for what:

* `Store.Carries`: a function stands in a value;
* `Fork`: the symbol, the value and the environment;
* `Fork.Strays`: a symbol whose lookup tells the two environments of the function apart;
* `Fork.Strays.eq_symbol`: if the function was made in the environment of the binding, this is the symbol itself;
* `Counterpart`: values and environments of the first run, and what stands for them in the second one;
* `Counterpart.found`: what is found in an environment has a counterpart, unless the lookup strays or exceeds its bound;
* `Counterpart.within`: only the scope of a function makes a lookup of the second run longer;
* `Counterpart.unary`, `Counterpart.binary`: what builtins compute has a counterpart.
-/

namespace FieldLisp

open Store

namespace Store

variable {s u : Store} {p : Pointer}

/-- A function stands in a value. -/
inductive Carries (s : Store) : Pointer → Prop
  | function {p : Pointer} (htag : p.tag = .function) : Carries s p
  | part {p : Pointer} (htag : p.tag.arity? = some 2) (i : ℕ) (h : s.Carries (s.part p i)) : Carries s p

/-- In a larger store no other functions stand in a value. -/
theorem carries_within (h : s.Extends u) (hs : s.Sound) (hp : s.Holds p) (hcarries : u.Carries p) : s.Carries p := by
  induction hcarries with
  | function htag => exact .function htag
  | part htag i _ ih =>
    rw [h.part_eq hs htag hp] at ih
    exact .part htag i (ih (hs.holds_part htag hp i))

end Store

/-- A symbol that two runs bind to a value in front of an environment, the first one plainly and the second one
recursively. -/
structure Fork where
  symbol : Pointer
  value : Pointer
  env : Pointer

namespace Fork

/-- The environment of the first run. -/
def plain (f : Fork) : Pointer := nodePointer .env [f.symbol, f.value, f.env]

/-- The environment of the second run. -/
def recursive (f : Fork) : Pointer := nodePointer .recEnv [f.symbol, f.value, f.env]

/-- Both environments are there. -/
structure Fits (f : Fork) (u : Store) : Prop where
  plain : u.HasNode .env [f.symbol, f.value, f.env]
  recursive : u.HasNode .recEnv [f.symbol, f.value, f.env]

/-- The lookup of a symbol comes to the environment of the function that is bound, where the symbol has another value
than in the environment of the binding. -/
structure Strays (f : Fork) (u : Store) (depth : ℕ) (sought env : Pointer) : Prop where
  function : f.value.tag = .function
  leads : u.Leads sought env (u.part f.value 2)
  differs : (u.lookup depth sought (u.part f.value 2)).1 ≠ (u.lookup (depth + 1) sought f.plain).1

end Fork

/-- What has a counterpart. -/
inductive Role where
  | value
  | env

variable {u : Store} {f : Fork} {role : Role} {p p' a a' b b' v v' node sought : Pointer} {d depth : ℕ} {tag : Tag}

/-- What stands in the second run for what the first one has. -/
inductive Counterpart (u : Store) (f : Fork) : Role → Pointer → Pointer → Prop
  | same (role : Role) (p : Pointer) : Counterpart u f role p p
  | forked : Counterpart u f .env f.plain f.recursive
  /-- A function that is closed over its own binding does not see the environment that it was made in. -/
  | ahead (hfunction : f.value.tag = .function) : Counterpart u f .env (u.part f.value 2) f.recursive
  | bound {p p' : Pointer} (hisEnv : p.tag.isEnv = true) (htag : p'.tag = p.tag)
      (hsymbol : u.part p' 0 = u.part p 0) (hvalue : Counterpart u f .value (u.part p 1) (u.part p' 1))
      (hparent : Counterpart u f .env (u.part p 2) (u.part p' 2)) : Counterpart u f .env p p'
  | closure {p p' : Pointer} (htag : p.tag = .function) (htag' : p'.tag = .function)
      (hparameter : u.part p' 0 = u.part p 0) (hbody : u.part p' 1 = u.part p 1)
      (henv : Counterpart u f .env (u.part p 2) (u.part p' 2)) : Counterpart u f .value p p'
  | pair {tag : Tag} {a b a' b' : Pointer} (harity : tag.arity? = some 2) (hnode : u.HasNode tag [a, b])
      (hnode' : u.HasNode tag [a', b']) (hfirst : Counterpart u f .value a a')
      (hsecond : Counterpart u f .value b b') :
      Counterpart u f .value (nodePointer tag [a, b]) (nodePointer tag [a', b'])

namespace Counterpart

/-! ## Values -/

theorem tag_eq (h : Counterpart u f .value p p') : p'.tag = p.tag := by
  cases h with
  | same => rfl
  | closure htag htag' => rw [htag, htag']
  | pair => rfl

/-- What has no parts stands for itself. -/
theorem eq_of_leaf (h : Counterpart u f .value p p') (hleaf : p.tag.arity? = none) : p' = p := by
  cases h with
  | same => rfl
  | closure htag =>
    rw [htag] at hleaf
    cases hleaf
  | pair harity => cases harity.symm.trans hleaf

/-- The parts of a pair, a thunk or a commitment have counterparts. -/
theorem part (h : Counterpart u f .value p p') (harity : p.tag.arity? = some 2) {i : ℕ} (hi : i < 2) :
    Counterpart u f .value (u.part p i) (u.part p' i) := by
  cases h with
  | same => exact .same _ _
  | closure htag =>
    rw [htag] at harity
    cases harity
  | pair _ hnode hnode' hfirst hsecond =>
    rw [hnode.part, hnode'.part]
    match i with
    | 0 => exact hfirst
    | 1 => exact hsecond

theorem car (h : Counterpart u f .value p p') : Counterpart u f .value (u.car p) (u.car p') := by
  unfold Store.car
  rw [h.tag_eq]
  by_cases hcons : p.tag = .cons
  · rw [if_pos hcons, if_pos hcons]
    exact h.part (by rw [hcons]; rfl) (by omega)
  · rw [if_neg hcons, if_neg hcons]
    exact .same _ _

theorem cdr (h : Counterpart u f .value p p') : Counterpart u f .value (u.cdr p) (u.cdr p') := by
  unfold Store.cdr
  rw [h.tag_eq]
  by_cases hcons : p.tag = .cons
  · rw [if_pos hcons, if_pos hcons]
    exact h.part (by rw [hcons]; rfl) (by omega)
  · rw [if_neg hcons, if_neg hcons]
    exact .same _ _

/-- A function stands for a function of the same code. -/
theorem function (h : Counterpart u f .value p p') (htag : p.tag = .function) :
    u.part p' 0 = u.part p 0 ∧ u.part p' 1 = u.part p 1 ∧ Counterpart u f .env (u.part p 2) (u.part p' 2) := by
  cases h with
  | same => exact ⟨rfl, rfl, .same _ _⟩
  | closure _ _ hparameter hbody henv => exact ⟨hparameter, hbody, henv⟩
  | pair harity =>
    have hfunction : Tag.function.arity? = some 2 := htag ▸ harity
    cases hfunction

/-- A value in which no function stands stands for itself. -/
theorem eq_of_not_carries (h : Counterpart u f role p p') (hrole : role = .value)
    (hcarries : ¬u.Carries p ∨ ¬u.Carries p') : p' = p := by
  induction h with
  | same => rfl
  | forked | ahead | bound => cases hrole
  | closure htag htag' =>
    rcases hcarries with hcarries | hcarries
    · exact absurd (.function htag) hcarries
    · exact absurd (.function htag') hcarries
  | @pair tag a b a' b' harity hnode hnode' _ _ hfirst hsecond =>
    have hparts : ∀ i, (¬u.Carries (u.part (nodePointer tag [a, b]) i) ∨
        ¬u.Carries (u.part (nodePointer tag [a', b']) i)) := fun i =>
      hcarries.imp (fun h hpart => h (.part harity i hpart)) fun h hpart => h (.part harity i hpart)
    have h0 := hparts 0
    have h1 := hparts 1
    rw [hnode.part, hnode'.part] at h0 h1
    rw [hfirst rfl h0, hsecond rfl h1]

/-- Equality is decided alike, where no function stands in one of the operands. -/
theorem beq_eq (ha : Counterpart u f .value a a') (hb : Counterpart u f .value b b')
    (hcarries : ¬u.Carries a ∨ ¬u.Carries b) : (a' == b') = (a == b) := by
  rw [Bool.eq_iff_iff, beq_iff_eq, beq_iff_eq]
  rcases hcarries with hplain | hplain
  · have haa := ha.eq_of_not_carries rfl (.inl hplain)
    rw [haa]
    constructor
    · rintro rfl
      exact (hb.eq_of_not_carries rfl (.inr hplain)).symm ▸ rfl
    · rintro rfl
      exact (hb.eq_of_not_carries rfl (.inl hplain)).symm
  · have hbb := hb.eq_of_not_carries rfl (.inl hplain)
    rw [hbb]
    constructor
    · rintro rfl
      exact (ha.eq_of_not_carries rfl (.inr hplain)).symm ▸ rfl
    · rintro rfl
      exact ha.eq_of_not_carries rfl (.inl hplain)

/-- Nodes of the same tag over counterparts. -/
theorem environment {var env env' : Pointer} (hisEnv : tag.isEnv = true) (hnode : u.HasNode tag [var, v, env])
    (hnode' : u.HasNode tag [var, v', env']) (hv : Counterpart u f .value v v')
    (henv : Counterpart u f .env env env') :
    Counterpart u f .env (nodePointer tag [var, v, env]) (nodePointer tag [var, v', env']) := by
  have hpart := hnode.part
  have hpart' := hnode'.part
  have htag : (nodePointer tag [var, v', env']).tag = (nodePointer tag [var, v, env]).tag := rfl
  apply Counterpart.bound hisEnv htag
  · rw [hpart, hpart']
    rfl
  · rw [hpart, hpart']
    exact hv
  · rw [hpart, hpart']
    exact henv

/-- Functions of the same code over counterparts. -/
theorem lambda {parameter body env env' : Pointer} (hnode : u.HasNode .function [parameter, body, env])
    (hnode' : u.HasNode .function [parameter, body, env']) (henv : Counterpart u f .env env env') :
    Counterpart u f .value (nodePointer .function [parameter, body, env])
      (nodePointer .function [parameter, body, env']) := by
  have hpart := hnode.part
  have hpart' := hnode'.part
  apply Counterpart.closure rfl rfl
  · rw [hpart, hpart']
    rfl
  · rw [hpart, hpart']
    rfl
  · rw [hpart, hpart']
    exact henv

end Counterpart

/-! ## Lookups -/

/-- The function that a lookup closes over a node is found. -/
def Store.Closes (u : Store) (node : Pointer) : Prop :=
  node.tag = .recEnv ∧ (u.part node 1).tag = .function →
    u.HasNode .function [u.part (u.part node 1) 0, u.part (u.part node 1) 1, node]

namespace Fork

/-- The value that is bound has a counterpart in the second run, which closes a function over its own binding. -/
theorem valueAt_recursive (hf : f.Fits u) (hcloses : u.Closes f.recursive) :
    Counterpart u f .value f.value (u.valueAt f.recursive) := by
  have hvalue : u.part f.recursive 1 = f.value := hf.recursive.part 1
  unfold Store.Closes at hcloses
  unfold Store.valueAt
  rw [hvalue] at hcloses ⊢
  by_cases hfunction : f.value.tag = .function
  · have hnode := (hcloses ⟨rfl, hfunction⟩).part
    rw [if_pos ⟨rfl, hfunction⟩]
    apply Counterpart.closure hfunction rfl
    · rw [hnode]
      rfl
    · rw [hnode]
      rfl
    · rw [hnode]
      exact .ahead hfunction
  · rw [if_neg fun h => hfunction h.2]
    exact .same _ _

section
variable (hplain : u.HasNode .env [f.symbol, f.value, f.env])
include hplain

theorem valueAt_plain : u.valueAt f.plain = f.value := by
  unfold Store.valueAt
  rw [if_neg fun h => nomatch h.1]
  exact hplain.part 1

/-- What a symbol is looked up to in the environment of the first run. -/
theorem lookup_plain (depth : ℕ) (sought : Pointer) : (u.lookup (depth + 1) sought f.plain).1 =
    if f.symbol = sought then .ok f.value else (u.lookup depth sought f.env).1 := by
  have hsymbol : u.part f.plain 0 = f.symbol := hplain.part 0
  have hparent : u.part f.plain 2 = f.env := hplain.part 2
  have hisEnv : f.plain.tag.isEnv = true := rfl
  rw [lookup_node hisEnv, hsymbol, hparent, valueAt_plain hplain]

/-- A function that was made in the environment of the binding keeps what is bound there: only the lookup of the symbol
itself strays. -/
theorem Strays.eq_symbol {env : Pointer} (h : f.Strays u depth sought env) (hown : u.part f.value 2 = f.env) :
    sought = f.symbol := by
  by_contra hother
  apply h.differs
  rw [lookup_plain hplain, if_neg (Ne.symm hother), hown]

end

end Fork

namespace Counterpart

/-- A node of the same tag over counterparts has a value that corresponds. -/
theorem valueAt {node' : Pointer} (htag : node'.tag = node.tag)
    (hvalue : Counterpart u f .value (u.part node 1) (u.part node' 1)) (hnode : Counterpart u f .env node node')
    (hcloses : u.Closes node) (hcloses' : u.Closes node') :
    Counterpart u f .value (u.valueAt node) (u.valueAt node') := by
  unfold Store.Closes at hcloses hcloses'
  unfold Store.valueAt
  rw [htag, hvalue.tag_eq] at hcloses' ⊢
  by_cases hcloses_ : node.tag = .recEnv ∧ (u.part node 1).tag = .function
  · obtain ⟨hparameter, hbody, -⟩ := hvalue.function hcloses_.2
    have htaken' := hcloses' hcloses_
    rw [hparameter, hbody] at htaken'
    rw [if_pos hcloses_, if_pos hcloses_, hparameter, hbody]
    exact .lambda (hcloses hcloses_) htaken' hnode
  · rw [if_neg hcloses_, if_neg hcloses_]
    exact hvalue

/-- If a symbol is found in an environment, its value in the counterpart corresponds, unless the lookup strays or
exceeds its bound there. By induction on the bound. -/
theorem found {env env' : Pointer} (hf : f.Fits u) (h : Counterpart u f .env env env') (hd : d ≤ depth)
    (hstrays : u.Leads sought env' f.recursive → ¬f.Strays u depth sought env)
    (hfound : u.search sought d env = .at node) (hwithin : u.search sought d env' ≠ .beyond) :
    ∃ node', u.search sought d env' = .at node' ∧
      (u.Closes node → u.Closes node' → Counterpart u f .value (u.valueAt node) (u.valueAt node')) := by
  induction d generalizing env env' with
  | zero =>
    unfold Store.search at hfound
    split at hfound <;> cases hfound
  | succ d ih =>
    have hplain : ∀ i, u.part f.plain i = [f.symbol, f.value, f.env].getD i .nil := hf.plain.part
    have hrecursive : ∀ i, u.part f.recursive i = [f.symbol, f.value, f.env].getD i .nil := hf.recursive.part
    have hhere {p : Pointer} (hp : u.part p 0 = f.symbol) (hisEnv : p.tag.isEnv = true) (hsymbol : f.symbol = sought) :
        u.search sought (d + 1) p = .at p := search_here hisEnv (hp.trans hsymbol)
    have hbelow {p : Pointer} (hp : u.part p 0 = f.symbol) (hparent : u.part p 2 = f.env) (hisEnv : p.tag.isEnv = true)
        (hsymbol : f.symbol ≠ sought) : u.search sought (d + 1) p = u.search sought d f.env := by
      rw [search_further hisEnv (by rw [hp]; exact hsymbol), hparent]
    cases h with
    | same => exact ⟨node, hfound, fun _ _ => .same _ _⟩
    | forked =>
      by_cases hsymbol : f.symbol = sought
      · obtain rfl : f.plain = node := Binding.at.inj ((hhere (hplain 0) rfl hsymbol).symm.trans hfound)
        refine ⟨f.recursive, hhere (hrecursive 0) rfl hsymbol, fun _ hcloses => ?_⟩
        rw [Fork.valueAt_plain hf.plain]
        exact Fork.valueAt_recursive hf hcloses
      · refine ⟨node, ?_, fun _ _ => .same _ _⟩
        rw [hbelow (hrecursive 0) (hrecursive 2) rfl hsymbol, ← hbelow (hplain 0) (hplain 2) rfl hsymbol]
        exact hfound
    | ahead hfunction =>
      -- The symbol has the value in the scope of the binding that it has in the scope of the function.
      have hsame : (u.lookup depth sought (u.part f.value 2)).1 = (u.lookup (depth + 1) sought f.plain).1 := by
        by_contra hdiffers
        exact hstrays (.here _) ⟨hfunction, .here _, hdiffers⟩
      rw [lookup_at (search_mono hfound hd), Fork.lookup_plain hf.plain] at hsame
      by_cases hsymbol : f.symbol = sought
      · rw [if_pos hsymbol] at hsame
        refine ⟨f.recursive, hhere (hrecursive 0) rfl hsymbol, fun _ hcloses => ?_⟩
        rw [Except.ok.inj hsame]
        exact Fork.valueAt_recursive hf hcloses
      · rw [if_neg hsymbol] at hsame
        obtain ⟨node', hnode', hvalue⟩ := lookup_eq_ok hsame.symm
        rw [hbelow (hrecursive 0) (hrecursive 2) rfl hsymbol] at hwithin ⊢
        rw [search_deeper hwithin (by omega)] at hnode'
        refine ⟨node', hnode', fun _ _ => ?_⟩
        rw [hvalue]
        exact .same _ _
    | bound hisEnv htag hvar hvalue hparent =>
      have hisEnv' : env'.tag.isEnv = true := by rw [htag]; exact hisEnv
      by_cases hsought : u.part env 0 = sought
      · cases (search_here hisEnv hsought).symm.trans hfound
        exact ⟨env', search_here hisEnv' (hvar.trans hsought),
          valueAt htag hvalue (.bound hisEnv htag hvar hvalue hparent)⟩
      · have hsought' : u.part env' 0 ≠ sought := by rw [hvar]; exact hsought
        rw [search_further hisEnv hsought] at hfound
        rw [search_further hisEnv' hsought'] at hwithin ⊢
        apply ih hparent (by omega) _ hfound hwithin
        intro hleads h
        exact hstrays (.further hisEnv' hsought' hleads)
          ⟨h.function, .further hisEnv hsought h.leads, h.differs⟩

/-- If no function is bound, a lookup of the second run exceeds its bound only where the one of the first run does. -/
theorem within {env env' : Pointer} (hf : f.Fits u) (h : Counterpart u f .env env env')
    (hvalue : f.value.tag ≠ .function) (hwithin : u.search sought d env ≠ .beyond) :
    u.search sought d env' ≠ .beyond := by
  induction d generalizing env env' with
  | zero =>
    cases h with
    | same => exact hwithin
    | forked => exact absurd rfl hwithin
    | ahead hfunction => exact absurd hfunction hvalue
    | bound hisEnv => exact absurd (if_pos hisEnv) hwithin
  | succ d ih =>
    have below {p p' : Pointer} (hisEnv : p.tag.isEnv = true) (hisEnv' : p'.tag.isEnv = true)
        (hsymbol : u.part p' 0 = u.part p 0) (hparent : Counterpart u f .env (u.part p 2) (u.part p' 2))
        (hwithin : u.search sought (d + 1) p ≠ .beyond) : u.search sought (d + 1) p' ≠ .beyond := by
      by_cases hsought : u.part p 0 = sought
      · rw [search_here hisEnv' (hsymbol.trans hsought)]
        exact nofun
      · rw [search_further hisEnv hsought] at hwithin
        rw [search_further hisEnv' (by rw [hsymbol]; exact hsought)]
        exact ih hparent hwithin
    cases h with
    | same => exact hwithin
    | forked =>
      have hpart (i : ℕ) : u.part f.recursive i = u.part f.plain i :=
        (hf.recursive.part i).trans (hf.plain.part i).symm
      exact below (p := f.plain) rfl rfl (hpart 0) (by rw [hpart]; exact .same _ _) hwithin
    | ahead hfunction => exact absurd hfunction hvalue
    | bound hisEnv htag hvar _ hparent => exact below hisEnv (by rw [htag]; exact hisEnv) hvar hparent hwithin

/-! ## Builtins -/

/-- What an operator of one operand computes has a counterpart. -/
theorem unary {op : UnaryOp} {r : Pointer} (h : Counterpart u f .value v v')
    (hcommitted : op = .commit → u.HasNode .commitment [.number 0, v] ∧ u.HasNode .commitment [.number 0, v'])
    (hresult : (u.unaryValue op v).1 = .ok r) :
    ∃ r', (u.unaryValue op v').1 = .ok r' ∧ Counterpart u f .value r r' := by
  cases op with
  | car =>
    simp only [unaryValue, h.tag_eq] at hresult ⊢
    split at hresult <;> cases hresult
    rename_i hlist
    exact ⟨_, by rw [if_pos hlist], h.car⟩
  | cdr =>
    simp only [unaryValue, h.tag_eq] at hresult ⊢
    split at hresult <;> cases hresult
    rename_i hlist
    exact ⟨_, by rw [if_pos hlist], h.cdr⟩
  | payload | secret =>
    simp only [unaryValue, h.tag_eq] at hresult ⊢
    split at hresult <;> cases hresult
    rename_i hcommitment
    exact ⟨_, by rw [if_pos hcommitment], h.part (by rw [hcommitment]; rfl) (by omega)⟩
  | atom =>
    simp only [unaryValue, h.tag_eq] at hresult ⊢
    cases hresult
    exact ⟨_, rfl, .same _ _⟩
  | commit =>
    cases hresult
    obtain ⟨hnode, hnode'⟩ := hcommitted rfl
    exact ⟨_, rfl, .pair rfl hnode hnode' (.same _ _) h⟩
  | emit =>
    cases hresult
    exact ⟨v', rfl, h⟩

/-- What an operator of two operands computes has a counterpart, if equality is decided alike. -/
theorem binary {op : BinaryOp} {r : Pointer} (ha : Counterpart u f .value a a') (hb : Counterpart u f .value b b')
    (hcompared : op = .same → (a' == b') = (a == b))
    (hpair : op = .cons → u.HasNode .cons [a, b] ∧ u.HasNode .cons [a', b'])
    (hhidden : op = .hide → a.tag = .number → u.HasNode .commitment [a, b] ∧ u.HasNode .commitment [a', b'])
    (hresult : (u.binaryValue op a b).1 = .ok r) :
    ∃ r', (u.binaryValue op a' b').1 = .ok r' ∧ Counterpart u f .value r r' := by
  have hnumber {p p' : Pointer} (h : Counterpart u f .value p p') (htag : p.tag = .number) : p' = p :=
    h.eq_of_leaf (by rw [htag]; rfl)
  cases hnumeric : numberValue? op (a.digest.headD 0) (b.digest.headD 0) with
  | some result =>
    have hsame : (u.binaryValue op a b).1 =
        if a.tag = .number ∧ b.tag = .number then result else .error .argumentError := by
      simp only [binaryValue, hnumeric]
    rw [hsame] at hresult
    split at hresult
    · rename_i hnumbers
      refine ⟨r, ?_, .same _ _⟩
      rw [hnumber ha hnumbers.1, hnumber hb hnumbers.2, hsame, if_pos hnumbers]
      exact hresult
    · cases hresult
  | none =>
    cases op with
    | cons =>
      cases hresult
      obtain ⟨hnode, hnode'⟩ := hpair rfl
      exact ⟨_, rfl, .pair rfl hnode hnode' ha hb⟩
    | hide =>
      simp only [binaryValue, numberValue?] at hresult ⊢
      split at hresult <;> cases hresult
      rename_i htag
      obtain ⟨hnode, hnode'⟩ := hhidden rfl htag
      exact ⟨_, by rw [ha.tag_eq, if_pos htag], .pair rfl hnode hnode' ha hb⟩
    | same =>
      cases hresult
      exact ⟨_, rfl, by rw [hcompared rfl]; exact .same _ _⟩
    | _ => cases hnumeric

end Counterpart

end FieldLisp
