import FieldLisp.Proofs.Machine.Moves
import FieldLisp.Proofs.Store.Rendering

/-!
# Stores without collisions

A node is kept under the hash of its content. If two contents have one hash, only the content that came
first can be looked up. In a store where this has not happened, what was taken in is what is found, and
larger stores give the same answers:

* `Store.Faithful`: behind the hash of each content that was taken in stands this content;
* `Store.Within`, `Within.put`: a store has taken in all that another one has, and goes on to;
* `Store.expression_within`, `Store.Agrees`: what is asked of both has the same answer;
* `Store.Sane`: below a pointer stands no error value, so it has a written form.
-/

namespace FieldLisp

namespace Store

variable {s t m : Store} {p : Pointer} {tag : Tag} {cs : List Pointer}

/-! ## Content -/

/-- Behind the hash of each content that was taken in stands this content: no two contents that were
taken in have one hash. -/
def Faithful (s : Store) : Prop :=
  ∀ (tag : Tag) (cs : List Pointer) (p : Pointer), s.interned[(tag, cs)]? = some p →
    s.nodes[p]? = some cs

/-- All that one store has taken in, the other one has. -/
structure Within (s t : Store) : Prop where
  extends_ : s.Extends t
  interned : ∀ {tag : Tag} {cs : List Pointer} {p : Pointer}, s.interned[(tag, cs)]? = some p →
    t.interned[(tag, cs)]? = some p

theorem Grows.within (h : s.Grows t) : s.Within t := ⟨h.extends_, h.interned⟩

theorem Within.refl (s : Store) : s.Within s := ⟨.refl s, id⟩

theorem Within.trans (h : s.Within t) (h' : t.Within m) : s.Within m :=
  ⟨h.extends_.trans h'.extends_, h'.interned ∘ h.interned⟩

/-- What stands below a pointer does so in larger stores. -/
theorem Extends.above {q : Pointer} (h : s.Extends t) (hp : s.Above p q) : t.Above p q :=
  hp.lift id fun _ _ ⟨cs, hcs, hmem⟩ => ⟨cs, h.node hcs, hmem⟩

/-- A store in a faithful one is faithful. -/
theorem Within.faithful (h : s.Within t) (hs : s.Sound) (ht : t.Faithful) : s.Faithful := by
  intro tag cs p hp
  have hcontains := (hs.interned hp).2
  rw [Std.HashMap.contains_eq_isSome_getElem?, Option.isSome_iff_exists] at hcontains
  obtain ⟨ds, hds⟩ := hcontains
  have hkept := ht tag cs p (h.interned hp)
  rw [h.extends_.node hds] at hkept
  rw [hds, hkept]

theorem Grows.faithful (h : s.Grows t) (ht : t.Faithful) : s.Faithful :=
  h.within.faithful h.origin ht

/-- What became of the contents that were taken in when a node was. -/
theorem interned_put_iff (hs : s.Sound) (htag : tag.arity? = some cs.length)
    (hcs : ∀ c ∈ cs, s.Holds c) {tag' : Tag} {ds : List Pointer} :
    (s.put tag cs).interned[(tag', ds)]? = some p ↔
      s.interned[(tag', ds)]? = some p ∨ (tag', ds) = (tag, cs) ∧ p = nodePointer tag cs := by
  unfold put after internNode
  rw [checkNode_ok htag hcs]
  dsimp only
  cases hfound : s.internedAs? tag cs with
  | some q =>
    obtain ⟨rfl, -⟩ := hs.interned hfound
    refine ⟨.inl, ?_⟩
    rintro (h | ⟨hkey, rfl⟩)
    · exact h
    · rw [hkey]
      exact hfound
  | none =>
    change (s.interned.insertIfNew (tag, cs) (nodePointer tag cs))[(tag', ds)]? = some p ↔ _
    have hnew : s.interned[(tag, cs)]? = none := hfound
    rw [Std.HashMap.getElem?_insertIfNew]
    by_cases hkey : (tag', ds) = (tag, cs)
    · have habsent : (tag, cs) ∉ s.interned := by
        rw [Std.HashMap.mem_iff_isSome_getElem?, hnew]
        exact Bool.false_ne_true
      rw [if_pos ⟨beq_iff_eq.2 hkey.symm, habsent⟩, hkey, hnew, Option.some.injEq]
      simp [eq_comm]
    · rw [if_neg fun h => hkey (beq_iff_eq.1 h.1).symm]
      simp [hkey]

/-- A node that a faithful store has taken in is found. -/
theorem node_put (hs : s.Sound) (htag : tag.arity? = some cs.length) (hcs : ∀ c ∈ cs, s.Holds c)
    (hfaithful : (s.put tag cs).Faithful) : (s.put tag cs).nodes[nodePointer tag cs]? = some cs :=
  hfaithful tag cs _ ((interned_put_iff hs htag hcs).2 (.inr ⟨rfl, rfl⟩))

/-- Two stores go on to take in the same node. -/
theorem Within.put (h : s.Within m) (hs : s.Sound) (hm : m.Sound) (htag : tag.arity? = some cs.length)
    (hcs : ∀ c ∈ cs, s.Holds c) (hfaithful : (m.put tag cs).Faithful) :
    (s.put tag cs).Within (m.put tag cs) := by
  have hcs' (c : Pointer) (hc : c ∈ cs) : m.Holds c := h.extends_.holds (hcs c hc)
  have htakes := takes_put tag hs htag hcs
  obtain ⟨hgrows, -⟩ := grows_put hm htag hcs'
  refine ⟨⟨fun {p ds} hp => ?_, fun {p} hp => ?_⟩, fun {tag' ds p} hp => ?_⟩
  · rcases htakes.fresh hp with hp | ⟨rfl, rfl⟩
    · exact hgrows.extends_.node (h.extends_.node hp)
    · exact node_put hm htag hcs' hfaithful
  · rw [names_put] at hp
    exact hgrows.extends_.name (h.extends_.name hp)
  · rw [interned_put_iff hs htag hcs] at hp
    rw [interned_put_iff hm htag hcs']
    exact hp.imp_left h.interned

/-- Two stores go on to take in the same proper list. -/
theorem Within.putList (h : s.Within m) (hs : s.Sound) (hm : m.Sound) {ps : List Pointer}
    (hps : ∀ p ∈ ps, s.Holds p) (hfaithful : (m.putList ps).Faithful) :
    (s.putList ps).Within (m.putList ps) := by
  induction ps with
  | nil => exact h
  | cons p ps ih =>
    have hps' (q : Pointer) (hq : q ∈ p :: ps) : m.Holds q := h.extends_.holds (hps q hq)
    rw [List.forall_mem_cons] at hps hps'
    obtain ⟨hgrows, hlist⟩ := inherited_holds.grows_putList hs hps.2
    obtain ⟨hgrows', hlist'⟩ := inherited_holds.grows_putList hm hps'.2
    have hchildren : ∀ c ∈ [p, listPointer ps], (s.putList ps).Holds c := by
      simp [hgrows.holds hps.1, hlist]
    have hchildren' : ∀ c ∈ [p, listPointer ps], (m.putList ps).Holds c := by
      simp [hgrows'.holds hps'.1, hlist']
    have harity : Tag.cons.arity? = some [p, listPointer ps].length := rfl
    obtain ⟨hput, -⟩ := grows_put hgrows'.sound harity hchildren'
    exact (ih hps.2 (hput.faithful hfaithful)).put hgrows.sound hgrows'.sound harity hchildren hfaithful

/-- Two stores go on to take in the same rest of a form. -/
theorem Within.putNested (h : s.Within m) (hs : s.Sound) (hm : m.Sound) (form : Form)
    {more : Option Pointer} {body : Pointer} (hmore : ∀ q ∈ more, s.Holds q) (hbody : s.Holds body)
    (hfaithful : (m.putNested form more body).Faithful) :
    (s.putNested form more body).Within (m.putNested form more body) := by
  cases more with
  | none => exact h
  | some rest =>
    exact h.putList hs hm (by simp [hs.holds_symbol, hmore rest rfl, hbody]) hfaithful

/-! ## The same answers -/

section
variable (h : s.Extends m) (hs : s.Sound)
include h hs

theorem car_within (hp : s.Holds p) : m.car p = s.car p := by
  unfold car
  split
  · rename_i htag
    exact h.part_eq hs (by rw [htag]; rfl) hp 0
  · rfl

theorem cdr_within (hp : s.Holds p) : m.cdr p = s.cdr p := by
  unfold cdr
  split
  · rename_i htag
    exact h.part_eq hs (by rw [htag]; rfl) hp 1
  · rfl

theorem items_within (hp : s.Holds p) (n : ℕ) : m.items n p = s.items n p := by
  induction n generalizing p with
  | zero => rfl
  | succ n ih =>
    unfold items
    rw [car_within h hs hp, cdr_within h hs hp, ih (hs.holds_cdr hp)]

theorem parameters_within (hp : s.Holds p) : m.parameters? p = s.parameters? p := by
  unfold parameters?
  rw [car_within h hs hp, cdr_within h hs hp]

theorem binding_within (hp : s.Holds p) : m.binding? p = s.binding? p := by
  unfold binding?
  rw [car_within h hs hp, cdr_within h hs hp, items_within h hs (hs.holds_car hp)]

theorem bindExpression_within (recursive : Bool) (hp : s.Holds p) :
    m.bindExpression recursive p = s.bindExpression recursive p := by
  have hpairs : s.Hereditary s.Holds := ⟨hs.holds_car, hs.holds_cdr⟩
  unfold bindExpression
  rw [items_within h hs hp]
  split
  · rename_i list body hitems
    rw [binding_within h hs (hpairs.items hitems hp list (by simp))]
  · rfl

theorem formExpression_within (form : Form) (hp : s.Holds p) :
    m.formExpression form p = s.formExpression form p := by
  have hpairs : s.Hereditary s.Holds := ⟨hs.holds_car, hs.holds_cdr⟩
  cases form with
  | bindLet => exact bindExpression_within h hs false hp
  | bindRec => exact bindExpression_within h hs true hp
  | lambda =>
    unfold formExpression
    dsimp only
    rw [items_within h hs hp]
    split
    · rename_i list body hitems
      rw [parameters_within h hs (hpairs.items hitems hp list (by simp))]
    · rfl
  | _ =>
    unfold formExpression
    dsimp only
    rw [items_within h hs hp]

/-- What an expression is does not depend on what else is in the store. -/
theorem expression_within (hp : s.Holds p) : m.expression p = s.expression p := by
  unfold expression
  cases htag : p.tag with
  | thunk => rw [h.part_eq hs (by rw [htag]; rfl) hp]
  | cons =>
    dsimp only
    rw [car_within h hs hp, cdr_within h hs hp]
    cases formOf? (s.car p) with
    | some form => exact formExpression_within h hs form (hs.holds_cdr hp)
    | none =>
      simp only [callExpression]
      rw [car_within h hs (hs.holds_cdr hp), cdr_within h hs (hs.holds_cdr hp)]
  | _ => rfl

theorem search_within {depth : ℕ} {sought : Pointer} (hp : s.Holds p) :
    m.search sought depth p = s.search sought depth p := by
  induction depth generalizing p with
  | zero => rfl
  | succ depth ih =>
    unfold search
    split
    · rename_i henv
      have hn := Tag.arity_of_isEnv henv
      dsimp only
      rw [h.part_eq hs hn hp, h.part_eq hs hn hp, ih (hs.holds_part hn hp 2)]
    · rfl

theorem lookup_within (depth : ℕ) (sought : Pointer) {env : Pointer} (henv : s.Holds env) :
    (m.lookup depth sought env).1 = (s.lookup depth sought env).1 := by
  unfold lookup
  rw [search_within h hs henv]
  cases hsearch : s.search sought depth env with
  | unbound => rfl
  | beyond => rfl
  | «at» node =>
    obtain ⟨hnode, hisEnv⟩ := inherited_holds.search hs henv hsearch
    have hn := Tag.arity_of_isEnv hisEnv
    have hvalue := hs.holds_part hn hnode 1
    dsimp only
    rw [h.part_eq hs hn hnode]
    by_cases hclosed : node.tag = .recEnv ∧ (s.part node 1).tag = .function
    · have hparts := h.part_eq hs (by rw [hclosed.2]; rfl) hvalue
      rw [if_pos hclosed, if_pos hclosed, hparts, hparts]
    · rw [if_neg hclosed, if_neg hclosed]

theorem unary_within (operator : Pointer) {v : Pointer} (hv : s.Holds v) :
    (m.applyUnary operator v).1 = (s.applyUnary operator v).1 := by
  unfold applyUnary
  cases unaryOf? operator with
  | none => rfl
  | some op =>
    cases op with
    | car =>
      simp only [unaryValue]
      rw [car_within h hs hv]
      split <;> rfl
    | cdr =>
      simp only [unaryValue]
      rw [cdr_within h hs hv]
      split <;> rfl
    | payload | secret =>
      simp only [unaryValue]
      split
      · rename_i htag
        rw [h.part_eq hs (by rw [htag]; rfl) hv]
      · rfl
    | _ => rfl

end

theorem binary_within (s m : Store) (operator a b : Pointer) :
    (m.applyBinary operator a b).1 = (s.applyBinary operator a b).1 := by
  unfold applyBinary
  cases binaryOf? operator with
  | none => rfl
  | some op =>
    simp only [binaryValue]
    cases numberValue? op (a.digest.headD 0) (b.digest.headD 0) with
    | some result => rfl
    | none =>
      cases op with
      | hide => dsimp only; split <;> rfl
      | _ => rfl

/-- A proper list that a faithful store has taken in is found. -/
theorem items_putList (hs : s.Sound) {ps : List Pointer} (hps : ∀ p ∈ ps, s.Holds p)
    (hfaithful : (s.putList ps).Faithful) : (s.putList ps).items ps.length (listPointer ps) = some ps := by
  induction ps with
  | nil => rfl
  | cons p ps ih =>
    rw [List.forall_mem_cons] at hps
    obtain ⟨hgrows, hlist⟩ := inherited_holds.grows_putList hs hps.2
    have hchildren : ∀ c ∈ [p, listPointer ps], (s.putList ps).Holds c := by
      simp [hgrows.holds hps.1, hlist]
    have harity : Tag.cons.arity? = some [p, listPointer ps].length := rfl
    obtain ⟨hput, -⟩ := grows_put hgrows.sound harity hchildren
    have hnode := node_put hgrows.sound harity hchildren hfaithful
    have htag : (listPointer (p :: ps)).tag = .cons := rfl
    have hcar : (s.putList (p :: ps)).car (listPointer (p :: ps)) = p := by
      rw [car, if_pos htag]
      exact part_of_node hnode 0
    have hcdr : (s.putList (p :: ps)).cdr (listPointer (p :: ps)) = listPointer ps := by
      rw [cdr, if_pos htag]
      exact part_of_node hnode 1
    have hrest := ih hps.2 (hput.faithful hfaithful)
    rw [← items_within hput.extends_ hgrows.sound hlist] at hrest
    rw [List.length_cons, items, if_pos htag, hcar, hcdr, putList, hrest]
    rfl

/-- The same value is found or computed in both stores, or there is none for the same reason. -/
structure Agrees (r r' : Except ErrorCode Pointer × Store) : Prop where
  result : r'.1 = r.1
  within : r.2.Within r'.2

section
variable (h : s.Within m) (hs : s.Sound) (hm : m.Sound)
include h

theorem agrees_same (result : Except ErrorCode Pointer) : Agrees (result, s) (result, m) := ⟨rfl, h⟩

include hs hm

theorem agrees_put (htag : tag.arity? = some cs.length) (hcs : ∀ c ∈ cs, s.Holds c)
    (hfaithful : (m.put tag cs).Faithful) :
    Agrees (.ok (nodePointer tag cs), s.put tag cs) (.ok (nodePointer tag cs), m.put tag cs) :=
  ⟨rfl, h.put hs hm htag hcs hfaithful⟩

theorem agrees_lookup (depth : ℕ) (sought : Pointer) {env : Pointer} (henv : s.Holds env)
    (hfaithful : (m.lookup depth sought env).2.Faithful) :
    Agrees (s.lookup depth sought env) (m.lookup depth sought env) := by
  unfold lookup at hfaithful ⊢
  rw [search_within h.extends_ hs henv] at hfaithful ⊢
  cases hsearch : s.search sought depth env with
  | unbound => exact agrees_same h _
  | beyond => exact agrees_same h _
  | «at» node =>
    obtain ⟨hnode, hisEnv⟩ := inherited_holds.search hs henv hsearch
    have hn := Tag.arity_of_isEnv hisEnv
    have hvalue := hs.holds_part hn hnode 1
    rw [hsearch] at hfaithful
    dsimp only at hfaithful ⊢
    rw [h.extends_.part_eq hs hn hnode] at hfaithful ⊢
    by_cases hclosed : node.tag = .recEnv ∧ (s.part node 1).tag = .function
    · have hparts := h.extends_.part_eq hs (by rw [hclosed.2]; rfl) hvalue
      have hheld := hs.holds_part (by rw [hclosed.2]; rfl) hvalue
      rw [if_pos hclosed, if_pos hclosed, hparts, hparts]
      rw [if_pos hclosed, hparts, hparts] at hfaithful
      exact agrees_put h hs hm rfl (by simp [hheld, hnode]) hfaithful
    · rw [if_neg hclosed, if_neg hclosed]
      exact agrees_same h _

theorem agrees_unary (operator : Pointer) {v : Pointer} (hv : s.Holds v)
    (hfaithful : (m.applyUnary operator v).2.Faithful) :
    Agrees (s.applyUnary operator v) (m.applyUnary operator v) := by
  unfold applyUnary at hfaithful ⊢
  cases hop : unaryOf? operator with
  | none => exact agrees_same h _
  | some op =>
    rw [hop] at hfaithful
    cases op with
    | car =>
      simp only [unaryValue]
      rw [car_within h.extends_ hs hv]
      split <;> exact agrees_same h _
    | cdr =>
      simp only [unaryValue]
      rw [cdr_within h.extends_ hs hv]
      split <;> exact agrees_same h _
    | payload | secret =>
      simp only [unaryValue]
      split
      · rename_i htag
        rw [h.extends_.part_eq hs (by rw [htag]; rfl) hv]
        exact agrees_same h _
      · exact agrees_same h _
    | atom => exact agrees_same h _
    | commit =>
      have hzero : s.Holds (.number 0) := s.holds_immediate (Pointer.immediate_canonical .number 0) rfl
      exact agrees_put h hs hm rfl (by simp [hv, hzero]) hfaithful
    | emit => exact agrees_same h _

theorem agrees_binary (operator : Pointer) {a b : Pointer} (ha : s.Holds a) (hb : s.Holds b)
    (hfaithful : (m.applyBinary operator a b).2.Faithful) :
    Agrees (s.applyBinary operator a b) (m.applyBinary operator a b) := by
  unfold applyBinary at hfaithful ⊢
  cases hop : binaryOf? operator with
  | none => exact agrees_same h _
  | some op =>
    rw [hop] at hfaithful
    dsimp only at hfaithful ⊢
    unfold binaryValue at hfaithful ⊢
    cases hnumeric : numberValue? op (a.digest.headD 0) (b.digest.headD 0) with
    | some result => exact agrees_same h _
    | none =>
      rw [hnumeric] at hfaithful
      cases op with
      | cons => exact agrees_put h hs hm rfl (by simp [ha, hb]) hfaithful
      | hide =>
        dsimp only at hfaithful ⊢
        by_cases htag : a.tag = .number
        · rw [if_pos htag, if_pos htag]
          rw [if_pos htag] at hfaithful
          exact agrees_put h hs hm rfl (by simp [ha, hb]) hfaithful
        · rw [if_neg htag, if_neg htag]
          exact agrees_same h _
      | _ => exact agrees_same h _

end

/-! ## Values without error values -/

/-- No error value stands below a pointer. -/
def Clean (s : Store) (p : Pointer) : Prop := ∀ q, s.Above p q → q.tag ≠ .error

theorem clean_iff : s.Clean p ↔
    p.tag ≠ .error ∧ ∀ cs, s.nodes[p]? = some cs → ∀ c ∈ cs, s.Clean c := by
  constructor
  · intro h
    exact ⟨h p .refl, fun cs hcs c hc q hq => h q (.head ⟨cs, hcs, hc⟩ hq)⟩
  · rintro ⟨herror, hchildren⟩ q hq
    cases hq.cases_head with
    | inl heq => rwa [← heq]
    | inr hchild =>
      obtain ⟨c, ⟨cs, hcs, hc⟩, hbelow⟩ := hchild
      exact hchildren cs hcs c hc q hbelow

/-- Nothing stands below a pointer without children. -/
theorem clean_of_leaf (hs : s.Sound) (hleaf : p.tag.arity? = none) (herror : p.tag ≠ .error) : s.Clean p := by
  refine clean_iff.2 ⟨herror, fun cs hnode => ?_⟩
  have harity := (hs.node hnode).1
  rw [hleaf] at harity
  cases harity

/-- A pointer in a store, below which no error value stands unless contents have collided. -/
def Sane (s : Store) (p : Pointer) : Prop := s.Holds p ∧ (s.Sound → s.Faithful → s.Clean p)

/-- In a larger store the same stands below a pointer. -/
theorem above_within (h : s.Extends m) (hs : s.Sound) (hm : m.Sound) (hp : s.Holds p) {q : Pointer}
    (hq : m.Above p q) : s.Above p q ∧ s.Holds q := by
  induction hq with
  | refl => exact ⟨.refl, hp⟩
  | tail _ hchild ih =>
    obtain ⟨hbelow, hheld⟩ := ih
    obtain ⟨cs, hnode, hmem⟩ := hchild
    obtain ⟨harity, -, -⟩ := hm.node hnode
    obtain ⟨ds, hds, -, hchildren⟩ := hs.children_of_contains harity hheld.contains
    rw [h.node hds] at hnode
    cases hnode
    exact ⟨hbelow.tail ⟨_, hds, hmem⟩, hchildren _ hmem⟩

theorem Clean.mono (h : s.Extends m) (hs : s.Sound) (hm : m.Sound) (hp : s.Holds p) (hclean : s.Clean p) :
    m.Clean p := fun q hq => hclean q (above_within h hs hm hp hq).1

/-- To be sane is inherited. -/
theorem inherited_sane : Inherited Sane where
  holds := And.left
  mono {s t p} hgrows hp := by
    refine ⟨hgrows.holds hp.1, fun hsound hfaithful => ?_⟩
    exact (hp.2 hgrows.origin (hgrows.faithful hfaithful)).mono hgrows.extends_ hgrows.origin hsound hp.1
  leaf hp hleaf herror := ⟨hp, fun hs _ => clean_of_leaf hs hleaf herror⟩
  part {s p n} hs hn hp i := by
    refine ⟨hs.holds_part hn hp.1 i, fun hsound hfaithful => ?_⟩
    obtain ⟨hnode, -, -⟩ := hs.children_eq hn hp.1
    rw [part, List.getD_eq_getElem?_getD]
    cases hc : (s.children p)[i]? with
    | none => exact clean_of_leaf hsound rfl (by decide)
    | some c => exact (clean_iff.1 (hp.2 hsound hfaithful)).2 _ hnode c (List.mem_of_getElem? hc)
  put {s tag cs} hs htag hcs := by
    have hheld (c : Pointer) (hc : c ∈ cs) : s.Holds c := (hcs c hc).1
    obtain ⟨hgrows, hnode⟩ := grows_put hs htag hheld
    refine ⟨hnode, fun hsound hfaithful => clean_iff.2 ⟨?_, fun ds hds c hc => ?_⟩⟩
    · rintro rfl
      cases htag
    · rw [node_put hs htag hheld hfaithful] at hds
      cases hds
      have hclean := (hcs c hc).2 hs (hgrows.faithful hfaithful)
      exact hclean.mono hgrows.extends_ hs hsound (hheld c hc)

/-- A pointer below which no error value stands has a written form. -/
theorem Clean.exists_render (hs : Reachable s) (hp : s.Holds p) (hclean : s.Clean p) :
    ∃ text, s.render p = .ok text := by
  cases hrender : s.render p with
  | ok text => exact ⟨text, rfl⟩
  | error fault =>
    obtain ⟨q, value, hbelow, htag, -⟩ := render_eq_error hs hp fault hrender
    exact absurd htag (hclean q hbelow)

end Store

end FieldLisp
