import FieldLisp.Proofs.Runs
import FieldLisp.Proofs.Store.Soundness
import FieldLisp.Store.Render

/-!
# Written forms

A store that operations built has no cycles: a node stands above its children. So what is in the store
has a written form, unless that form would show an error value with an unknown code.

* `Store.Leveled`, `Store.reachable_leveled`: nodes have levels, above those of their children;
* `Store.Child`, `Store.Above`, `Store.acyclic`: no node stands above itself;
* `Store.shown`, `Store.Writable`: what written forms show of a node, and what they must not lead to;
* `Store.Tells`, `Store.tells_render`: what is written out, and what keeps it from being written;
* `Store.exists_render_iff`: a pointer has a written form exactly if it is writable;
* `Store.render_eq_error`: the only cause for a pointer not to have a written form.
-/

namespace FieldLisp.Store

open Except (bind_of_ok)

variable {s t : Store} {p q : Pointer} {α β : Type} {ps qs : List Pointer}

/-! ## Levels -/

/-- A level for each pointer: a node is above its children, and no level is above the number of nodes. -/
structure Leveled (s : Store) (level : Pointer → ℕ) : Prop where
  below : ∀ {p cs}, s.nodes[p]? = some cs → ∀ c ∈ cs, level c < level p
  bounded : ∀ p, level p ≤ s.nodes.size

/-- A node that is new stands above all others. -/
theorem Leveled.insert {level : Pointer → ℕ} (h : s.Leveled level) (hs : s.Sound) {cs : List Pointer}
    (hnode : p.tag.arity? = some cs.length) (hcs : ∀ c ∈ cs, s.Holds c) (hnew : p ∉ s.nodes)
    (ht : t.nodes = s.nodes.insertIfNew p cs) :
    t.Leveled (Function.update level p (s.nodes.size + 1)) := by
  have habsent {c : Pointer} (hc : s.Holds c) : c ≠ p := by
    rintro rfl
    obtain ⟨ds, hds, -⟩ := hs.children_of_contains hnode hc.contains
    exact hnew (Std.HashMap.mem_iff_isSome_getElem?.2 (by rw [hds]; rfl))
  have hsize : t.nodes.size = s.nodes.size + 1 := by
    rw [ht, Std.HashMap.size_insertIfNew, if_neg hnew]
  refine ⟨fun {q ds} hq c hc => ?_, fun q => ?_⟩
  · rw [ht, Std.HashMap.getElem?_insertIfNew] at hq
    split at hq
    · rename_i hqp
      obtain rfl := beq_iff_eq.1 hqp.1
      cases hq
      rw [Function.update_self, Function.update_of_ne (habsent (hcs c hc))]
      exact Nat.lt_succ_of_le (h.bounded c)
    · have hqp : q ≠ p := by
        rintro rfl
        exact hnew (Std.HashMap.mem_iff_isSome_getElem?.2 (by rw [hq]; rfl))
      rw [Function.update_of_ne hqp, Function.update_of_ne (habsent ((hs.node hq).2.2 c hc))]
      exact h.below hq c hc
  · by_cases hqp : q = p
    · rw [hqp, Function.update_self, hsize]
    · rw [Function.update_of_ne hqp, hsize]
      exact (h.bounded q).trans (Nat.le_succ _)

theorem of_checkNode {tag : Tag} {cs : List Pointer} (h : s.checkNode tag cs = .ok ()) :
    tag.arity? = some cs.length ∧ ∀ c ∈ cs, s.contains c = true := by
  unfold checkNode at h
  split at h
  · rename_i harity
    split at h
    · cases h
    · rename_i hfind
      exact ⟨harity, fun c hc => by simpa using List.find?_eq_none.1 hfind c hc⟩
  · cases h

theorem leveled_internNode {level : Pointer → ℕ} (h : s.Leveled level) (hs : s.Sound) {tag : Tag}
    {cs : List Pointer} (hcs : ∀ c ∈ cs, c.Canonical) (ht : internNode tag cs s = .ok p t) :
    ∃ level', t.Leveled level' := by
  unfold internNode at ht
  split at ht
  · cases ht
  rename_i hcheck
  obtain ⟨harity, hcontains⟩ := of_checkNode hcheck
  have hheld (c : Pointer) (hc : c ∈ cs) : s.Holds c := ⟨hcs c hc, hcontains c hc⟩
  split at ht
  · cases ht
    exact ⟨level, h⟩
  rename_i hfresh
  obtain ⟨hpointer, -⟩ := record_takes hs harity hheld hfresh
  have hnodes : (s.record tag cs).2.nodes = s.nodes.insertIfNew (s.record tag cs).1 cs := rfl
  cases ht
  change ∃ level', (s.record tag cs).2.Leveled level'
  rw [hpointer] at hnodes
  by_cases hnew : nodePointer tag cs ∈ s.nodes
  · refine ⟨level, fun {q ds} hq => h.below ?_, fun q => ?_⟩
    · rwa [hnodes, Std.HashMap.getElem?_insertIfNew, if_neg fun hand => hand.2 hnew] at hq
    · rw [hnodes, Std.HashMap.size_insertIfNew, if_pos hnew]
      exact h.bounded q
  · exact ⟨_, h.insert hs harity hheld hnew hnodes⟩

/-- The nodes of a store that operations built have levels. -/
theorem reachable_leveled (h : Reachable s) : ∃ level, s.Leveled level := by
  induction h with
  | empty shared =>
    refine ⟨fun _ => 0, fun {p cs} h => ?_, fun _ => Nat.zero_le _⟩
    simp [empty] at h
  | @node s tag cs hreachable hcanonical ih =>
    obtain ⟨level, hlevel⟩ := ih
    unfold after
    split
    · rename_i ht
      exact leveled_internNode hlevel (reachable_sound hreachable) hcanonical ht
    · rename_i ht
      rw [internNode_error ht]
      exact ⟨level, hlevel⟩
  | @symbol s name _ ih =>
    obtain ⟨level, hlevel⟩ := ih
    have hnodes : (after (internSymbol name) s).nodes = s.nodes := by
      unfold after internSymbol
      split_ifs <;> rfl
    exact ⟨level, by rw [hnodes]; exact hlevel.below, by rw [hnodes]; exact hlevel.bounded⟩

/-- One pointer is a child of another one. -/
def Child (s : Store) (p c : Pointer) : Prop := ∃ cs, s.nodes[p]? = some cs ∧ c ∈ cs

/-- One pointer stands below another one, or is the same. -/
abbrev Above (s : Store) : Pointer → Pointer → Prop := Relation.ReflTransGen s.Child

/-- Nodes with levels have no cycles. -/
theorem acyclic (hs : Reachable s) (p : Pointer) : ¬Relation.TransGen s.Child p p := by
  obtain ⟨level, hlevel⟩ := reachable_leveled hs
  have descends {a b : Pointer} (h : Relation.TransGen s.Child a b) : level b < level a := by
    induction h with
    | single hchild =>
      obtain ⟨cs, hcs, hmem⟩ := hchild
      exact hlevel.below hcs _ hmem
    | tail _ hchild ih =>
      obtain ⟨cs, hcs, hmem⟩ := hchild
      exact (hlevel.below hcs _ hmem).trans ih
  exact fun h => lt_irrefl _ (descends h)

/-! ## Rendering -/

/-- If a form cannot be written, the cause is an error value with an unknown code below a pointer. -/
def Explained (s : Store) (p : Pointer) (x : Except Fault α) : Prop :=
  ∀ fault, x = .error fault → ∃ q value, s.Above p q ∧ q.tag = .error ∧ q.payload = .ok value ∧
    ErrorCode.ofValue? value = none ∧ fault = .unknownErrorCode value

/-- A node in the store is taken apart. -/
theorem exists_fetch (hs : s.Sound) {n : ℕ} (hn : p.tag.arity? = some n) (hp : s.Holds p) :
    ∃ cs, s.fetch p none = .ok cs ∧ s.nodes[p]? = some cs ∧ cs.length = n ∧ ∀ c ∈ cs, s.Holds c := by
  obtain ⟨cs, hcs, hlength, hheld⟩ := hs.children_of_contains hn hp.contains
  exact ⟨cs, by simp [fetch, hn, hcs], hcs, hlength, hheld⟩

theorem exists_payload (hp : p.Canonical) : ∃ value, p.payload = .ok value := by
  obtain ⟨d₀, d₁, d₂, d₃, hdigest⟩ := hp.exists_digest
  exact ⟨d₀, by rw [Pointer.payload, hdigest]⟩

/-- A node with children is not on the lowest level. -/
theorem Leveled.positive {level : Pointer → ℕ} (hlevel : s.Leveled level) (hs : s.Sound) {n : ℕ}
    (hn : p.tag.arity? = some (n + 1)) (hp : s.Holds p) : 0 < level p := by
  obtain ⟨cs, hcs, hlength, -⟩ := hs.children_of_contains hn hp.contains
  obtain ⟨c, rest, rfl⟩ := List.exists_cons_of_length_eq_add_one hlength
  exact (Nat.zero_le _).trans_lt (hlevel.below hcs c (by simp))

/-- A symbol in the store has a name. -/
theorem exists_name_of_contains (hs : s.Sound) (htag : p.tag = .symbol) (hp : s.contains p = true) :
    ∃ name, s.names[p]? = some name := by
  have hnode : s.nodes.contains p = false := by
    refine Bool.eq_false_iff.2 fun h => ?_
    rw [Std.HashMap.contains_eq_isSome_getElem?, Option.isSome_iff_exists] at h
    obtain ⟨cs, hcs⟩ := h
    have harity := (hs.node hcs).1
    rw [htag] at harity
    cases harity
  rw [contains, htag, hnode, Std.HashMap.contains_eq_isSome_getElem? (m := s.names)] at hp
  exact Option.isSome_iff_exists.1 hp

theorem exists_name (hs : s.Sound) (htag : p.tag = .symbol) (hp : s.Holds p) :
    ∃ name, s.nameOf p = .ok name := by
  obtain ⟨name, hname⟩ := exists_name_of_contains hs htag hp.contains
  exact ⟨name, by rw [nameOf, hname]⟩

/-! ### What a written form shows -/

/-- The children of a node that are written out in its written form. -/
def shown (tag : Tag) (cs : List Pointer) : List Pointer :=
  match tag with
  | .cons => cs
  | .function => cs.take 2
  | .thunk => cs.take 1
  | .env | .recEnv => cs.take 2 ++ (cs.drop 2).filter (·.tag.isEnv)
  | _ => []

/-- The written form of one pointer goes on with that of another one. -/
def Shows (s : Store) (p c : Pointer) : Prop := ∃ cs, s.nodes[p]? = some cs ∧ c ∈ shown p.tag cs

/-- An error value with a code that has no name. -/
def Nameless (p : Pointer) (value : Int) : Prop :=
  p.tag = .error ∧ p.payload = .ok value ∧ ErrorCode.ofValue? value = none

/-- Wherever the written form of a pointer leads to, there is no error value with a code that has no name. -/
def Writable (s : Store) (p : Pointer) : Prop :=
  ∀ q value, Relation.ReflTransGen s.Shows p q → ¬Nameless q value

theorem writable_iff : s.Writable p ↔ (∀ value, ¬Nameless p value) ∧ ∀ c, s.Shows p c → s.Writable c := by
  constructor
  · intro h
    exact ⟨fun value => h p value .refl, fun c hc q value hshows => h q value (.head hc hshows)⟩
  · rintro ⟨hself, hothers⟩ q value hshows
    cases hshows.cases_head with
    | inl heq =>
      subst heq
      exact hself value
    | inr hfirst =>
      obtain ⟨c, hc, hrest⟩ := hfirst
      exact hothers c hc q value hrest

/-- Something is written out if the pointers that it shows can be, and else the cause is shown by one of them. -/
def Tells (s : Store) (ps : List Pointer) (x : Except Fault α) : Prop :=
  (∀ a, x = .ok a → ∀ p ∈ ps, s.Writable p) ∧
  ∀ fault, x = .error fault → ∃ p ∈ ps, ∃ q value,
    Relation.ReflTransGen s.Shows p q ∧ Nameless q value ∧ fault = .unknownErrorCode value

theorem tells_nil (a : α) : s.Tells [] (.ok a) := ⟨fun _ _ => nofun, nofun⟩

theorem Tells.bind {x : Except Fault α} {f : α → Except Fault β} (hx : s.Tells ps x)
    (hf : ∀ a, s.Tells qs (f a)) : s.Tells (ps ++ qs) (x >>= f) := by
  cases x with
  | error fault =>
    constructor
    · intro b hb
      cases hb
    · intro fault' hfault
      cases hfault
      obtain ⟨p, hp, hcause⟩ := hx.2 fault rfl
      exact ⟨p, List.mem_append_left _ hp, hcause⟩
  | ok a =>
    constructor
    · intro b hb p hp
      rcases List.mem_append.1 hp with hp | hp
      · exact hx.1 a rfl p hp
      · exact (hf a).1 b hb p hp
    · intro fault hfault
      obtain ⟨p, hp, hcause⟩ := (hf a).2 fault hfault
      exact ⟨p, List.mem_append_right _ hp, hcause⟩

/-- Text around what is written changes nothing. -/
theorem Tells.map {x : Except Fault α} {f : α → β} (hx : s.Tells ps x) :
    s.Tells ps (x >>= fun a => .ok (f a)) := by
  have h := hx.bind fun a => tells_nil (f a)
  rwa [List.append_nil] at h

/-- A node is written as what it shows. -/
theorem Tells.node {cs : List Pointer} {x : Except Fault α} (htag : p.tag ≠ .error) (hcs : s.nodes[p]? = some cs)
    (hx : s.Tells (shown p.tag cs) x) : s.Tells [p] x := by
  constructor
  · intro a ha q hq
    obtain rfl := List.mem_singleton.1 hq
    refine writable_iff.2 ⟨fun value h => htag h.1, ?_⟩
    rintro c ⟨ds, hds, hc⟩
    cases hcs.symm.trans hds
    exact hx.1 a ha c hc
  · intro fault hfault
    obtain ⟨c, hc, q, value, hshows, hcause⟩ := hx.2 fault hfault
    exact ⟨p, List.mem_singleton_self p, q, value, .head ⟨cs, hcs, hc⟩ hshows, hcause⟩

/-- What shows no children is written by itself. -/
theorem tells_closed (htag : p.tag ≠ .error) (hshown : ∀ cs, shown p.tag cs = []) (a : α) : s.Tells [p] (.ok a) := by
  constructor
  · intro b _ q hq
    obtain rfl := List.mem_singleton.1 hq
    refine writable_iff.2 ⟨fun value h => htag h.1, ?_⟩
    rintro c ⟨ds, -, hc⟩
    rw [hshown] at hc
    cases hc
  · intro fault hfault
    cases hfault

/-- An error value is written by the name of its code. -/
theorem tells_error {value : Int} {f : ErrorCode → α} (htag : p.tag = .error) (hvalue : p.payload = .ok value) :
    s.Tells [p] (match ErrorCode.ofValue? value with
      | some code => .ok (f code)
      | none => .error (.unknownErrorCode value)) := by
  cases hcode : ErrorCode.ofValue? value with
  | some code =>
    constructor
    · intro a _ q hq
      obtain rfl := List.mem_singleton.1 hq
      refine writable_iff.2 ⟨fun value' hnameless => ?_, ?_⟩
      · cases hvalue.symm.trans hnameless.2.1
        cases hcode.symm.trans hnameless.2.2
      · rintro c ⟨ds, -, hc⟩
        rw [htag] at hc
        cases hc
    · intro fault hfault
      cases hfault
  | none =>
    constructor
    · intro a ha
      cases ha
    · intro fault hfault
      cases hfault
      exact ⟨p, List.mem_singleton_self p, p, value, .refl, ⟨htag, hvalue, hcode⟩, rfl⟩

/-! ### Descent -/

/-- With so many levels left, all is written that does not stand too high. -/
structure Tellable (s : Store) (level : Pointer → ℕ) (fuel : ℕ) : Prop where
  within : ∀ {p}, s.Holds p → 3 * level p + 1 ≤ fuel → s.Tells [p] (s.renderWithin fuel p)
  items : ∀ {p}, s.Holds p → (3 * level p + if p.tag = .cons then 0 else 2) ≤ fuel → 0 < fuel →
    s.Tells [p] (s.renderItems fuel p)
  bindings : ∀ {p}, s.Holds p → p.tag.isEnv = true → 3 * level p ≤ fuel → 0 < fuel →
    s.Tells [p] (s.renderBindings fuel p)

section
variable {level : Pointer → ℕ} {fuel : ℕ} (hs : s.Sound) (hlevel : s.Leveled level) (h : s.Tellable level fuel)
include hlevel h

/-- A child is written at the next level. -/
theorem Tellable.child {cs : List Pointer} {c : Pointer} (hcs : s.nodes[p]? = some cs) (hc : c ∈ cs)
    (hheld : s.Holds c) (hfuel : 3 * level p ≤ fuel + 1) : s.Tells [c] (s.renderWithin fuel c) := by
  have hbelow := hlevel.below hcs c hc
  exact h.within hheld (by omega)

include hs

theorem Tellable.within_succ (hp : s.Holds p) (hfuel : 3 * level p + 1 ≤ fuel + 1) :
    s.Tells [p] (s.renderWithin (fuel + 1) p) := by
  unfold renderWithin
  cases htag : p.tag <;> dsimp only
  case number | commitment =>
    obtain ⟨value, hvalue⟩ := exists_payload hp.canonical
    rw [hvalue]
    exact tells_closed (by simp [htag]) (fun _ => by rw [htag]; rfl) _
  case error =>
    obtain ⟨value, hvalue⟩ := exists_payload hp.canonical
    rw [bind_of_ok hvalue]
    exact tells_error htag hvalue
  case symbol =>
    obtain ⟨name, hname⟩ := exists_name hs htag hp
    rw [hname]
    exact tells_closed (by simp [htag]) (fun _ => by rw [htag]; rfl) _
  case cons =>
    have hpositive := hlevel.positive hs (by rw [htag]; rfl) hp
    have hitems : s.Tells [p] (s.renderItems fuel p) := by
      apply h.items hp
      · rw [if_pos htag]
        omega
      · omega
    exact hitems.map
  case function =>
    obtain ⟨cs, hfetch, hcs, hlength, hheld⟩ := exists_fetch hs (by rw [htag]; rfl) hp
    obtain ⟨parameter, body, env, rfl⟩ := List.length_eq_three.1 hlength
    have hparameter := h.child hlevel hcs (by simp) (hheld parameter (by simp)) (by omega)
    have hbody := h.child hlevel hcs (by simp) (hheld body (by simp)) (by omega)
    rw [bind_of_ok hfetch]
    refine Tells.node (by simp [htag]) hcs ?_
    rw [htag]
    dsimp only
    split
    · -- No parameter is written, and the symbol that stands for none could be.
      rename_i hnone
      have hsymbol : parameter.tag = .symbol := by
        rw [hnone]
        rfl
      have hempty : s.Tells [parameter] (.ok "") :=
        tells_closed (by simp [hsymbol]) (fun _ => by rw [hsymbol]; rfl) _
      exact hempty.bind fun _ => hbody.map
    · exact hparameter.bind fun _ => hbody.map
  case thunk =>
    obtain ⟨cs, hfetch, hcs, hlength, hheld⟩ := exists_fetch hs (by rw [htag]; rfl) hp
    obtain ⟨value, rest, rfl⟩ := List.length_eq_two.1 hlength
    rw [bind_of_ok hfetch]
    refine Tells.node (by simp [htag]) hcs ?_
    rw [htag]
    exact (h.child hlevel hcs (by simp) (hheld value (by simp)) (by omega)).map
  case env | recEnv =>
    have hpositive := hlevel.positive hs (by rw [htag]; rfl) hp
    exact (h.bindings hp (by rw [htag]; rfl) (by omega) (by omega)).map
  all_goals exact tells_closed (by simp [htag]) (fun _ => by rw [htag]; rfl) _

theorem Tellable.items_succ (hp : s.Holds p) (hfuel : (3 * level p + if p.tag = .cons then 0 else 2) ≤ fuel + 1) :
    s.Tells [p] (s.renderItems (fuel + 1) p) := by
  unfold renderItems
  by_cases htag : p.tag = .cons
  · obtain ⟨cs, hfetch, hcs, hlength, hheld⟩ := exists_fetch hs (by rw [htag]; rfl) hp
    obtain ⟨car, cdr, rfl⟩ := List.length_eq_two.1 hlength
    have hcdr := hlevel.below hcs cdr (by simp)
    rw [if_pos htag] at hfuel
    have hitem := h.child hlevel hcs (by simp) (hheld car (by simp)) (by omega)
    have hitems : s.Tells [cdr] (s.renderItems fuel cdr) := by
      apply h.items (hheld cdr (by simp))
      · split <;> omega
      · omega
    simp only [htag]
    rw [bind_of_ok hfetch]
    refine Tells.node (by simp [htag]) hcs ?_
    rw [htag]
    exact hitem.bind fun _ => hitems.map
  · rw [if_neg htag] at hfuel
    cases htag' : p.tag <;> dsimp only
    case cons => exact absurd htag' htag
    case nil => exact tells_closed (by simp [htag']) (fun _ => by rw [htag']; rfl) _
    all_goals exact (h.within hp (by omega)).map

theorem Tellable.bindings_succ (hp : s.Holds p) (henv : p.tag.isEnv = true) (hfuel : 3 * level p ≤ fuel + 1) :
    s.Tells [p] (s.renderBindings (fuel + 1) p) := by
  obtain ⟨cs, hfetch, hcs, hlength, hheld⟩ := exists_fetch hs (Tag.arity_of_isEnv henv) hp
  obtain ⟨var, value, parent, rfl⟩ := List.length_eq_three.1 hlength
  have hparent := hlevel.below hcs parent (by simp)
  have hvar := h.child hlevel hcs (by simp) (hheld var (by simp)) (by omega)
  have hvalue := h.child hlevel hcs (by simp) (hheld value (by simp)) (by omega)
  have hothers : s.Tells ([parent].filter (·.tag.isEnv)) (s.renderBindings fuel parent) := by
    by_cases hparentEnv : parent.tag.isEnv = true
    · have hfilter : [parent].filter (·.tag.isEnv) = [parent] := by simp [hparentEnv]
      rw [hfilter]
      exact h.bindings (hheld parent (by simp)) hparentEnv (by omega) (by omega)
    · obtain ⟨fuel, rfl⟩ := Nat.exists_eq_add_one_of_ne_zero (by omega : fuel ≠ 0)
      have hfilter : [parent].filter (·.tag.isEnv) = [] := by simp [hparentEnv]
      rw [hfilter, renderBindings, if_neg hparentEnv]
      exact tells_nil _
  have hshown : shown p.tag [var, value, parent] = [var] ++ ([value] ++ [parent].filter (·.tag.isEnv)) := by
    cases htag : p.tag <;> rw [htag] at henv <;> first | rfl | cases henv
  have herror : p.tag ≠ .error := by
    intro htag
    rw [htag] at henv
    cases henv
  rw [renderBindings, if_pos henv, bind_of_ok hfetch]
  refine Tells.node herror hcs ?_
  rw [hshown]
  exact hvar.bind fun _ => hvalue.bind fun _ => hothers.map

end

theorem tellable {level : Pointer → ℕ} (hs : s.Sound) (hlevel : s.Leveled level) (fuel : ℕ) :
    s.Tellable level fuel := by
  induction fuel with
  | zero => exact ⟨fun _ h => absurd h (by omega), fun _ _ h => absurd h (lt_irrefl 0),
      fun _ _ _ h => absurd h (lt_irrefl 0)⟩
  | succ fuel ih => exact ⟨fun hp hfuel => ih.within_succ hs hlevel hp hfuel,
      fun hp hfuel _ => ih.items_succ hs hlevel hp hfuel,
      fun hp henv hfuel _ => ih.bindings_succ hs hlevel hp henv hfuel⟩

theorem tells_render (h : Reachable s) (hp : s.Holds p) : s.Tells [p] (s.render p) := by
  obtain ⟨level, hlevel⟩ := reachable_leveled h
  have hbounded := hlevel.bounded p
  exact (tellable (reachable_sound h) hlevel _).within hp (by omega)

/-- A pointer in the store has a written form exactly if it is writable. -/
theorem exists_render_iff (h : Reachable s) (hp : s.Holds p) :
    (∃ text, s.render p = .ok text) ↔ s.Writable p := by
  have htells := tells_render h hp
  constructor
  · rintro ⟨text, htext⟩
    exact htells.1 text htext p (List.mem_singleton_self p)
  · intro hwritable
    cases hrender : s.render p with
    | ok text => exact ⟨text, rfl⟩
    | error fault =>
      obtain ⟨q, hq, r, value, hshows, hnameless, -⟩ := htells.2 fault hrender
      obtain rfl := List.mem_singleton.1 hq
      exact absurd hnameless (hwritable r value hshows)

theorem mem_of_mem_shown {tag : Tag} {cs : List Pointer} {c : Pointer} (h : c ∈ shown tag cs) : c ∈ cs := by
  cases tag
  case cons => exact h
  case function | thunk => exact List.mem_of_mem_take h
  case env | recEnv =>
    rcases List.mem_append.1 h with h | h
    · exact List.mem_of_mem_take h
    · exact List.mem_of_mem_drop (List.mem_of_mem_filter h)
  all_goals cases h

/-- What is shown stands below. -/
theorem above_of_shows (h : Relation.ReflTransGen s.Shows p q) : s.Above p q := by
  have hchild (a b : Pointer) (hshows : s.Shows a b) : s.Child a b := by
    obtain ⟨cs, hcs, hb⟩ := hshows
    exact ⟨cs, hcs, mem_of_mem_shown hb⟩
  exact Relation.ReflTransGen.mono hchild _ _ h

/-- If a pointer in the store has no written form, the cause is an error value with an unknown code
below it. -/
theorem render_eq_error (h : Reachable s) (hp : s.Holds p) : s.Explained p (s.render p) := by
  intro fault hfault
  obtain ⟨q, hq, r, value, hshows, hnameless, hcause⟩ := (tells_render h hp).2 fault hfault
  obtain rfl := List.mem_singleton.1 hq
  exact ⟨r, value, above_of_shows hshows, hnameless.1, hnameless.2.1, hnameless.2.2, hcause⟩

end FieldLisp.Store
