import FieldLisp.Proofs.Machine.Reduct
import FieldLisp.Proofs.Runs

/-!
# Lines of a computation

What each line of a program does when it is computed on a store. Tests and choices leave the store
alone and are equations; what goes through a slot is said as a triple of a store, a result and the
next store:

* `Workspace.Gives`: a computation succeeds with a result and leaves a store, and reports nothing;
* `Workspace.Reports`: a computation that reports a value fails only for want of its written form;
* `Workspace.gives_hashTag`, `Workspace.gives_unhash2`: nodes that go in and come out.
-/

namespace FieldLisp

open StepModel
open EStateM (bind_of_ok bind_of_error)

namespace Store

variable {s : Store} {tag : Tag} {cs : List Pointer}

/-- Taking in a node whose children are there gives its hash. -/
theorem internNode_put (hs : s.Sound) (htag : tag.arity? = some cs.length)
    (hcs : ∀ c ∈ cs, s.Holds c) :
    internNode tag cs s = .ok (nodePointer tag cs) (s.put tag cs) ∧ s.Takes tag cs (s.put tag cs) := by
  obtain ⟨t, ht, htakes⟩ := internNode_takes hs htag hcs
  have hput : s.put tag cs = t := by rw [put, after, ht]
  rw [hput]
  exact ⟨ht, htakes⟩

theorem takes_put (tag : Tag) (hs : s.Sound) (htag : tag.arity? = some cs.length)
    (hcs : ∀ c ∈ cs, s.Holds c) :
    s.Takes tag cs (s.put tag cs) := (internNode_put hs htag hcs).2

/-- What is left of a store when a list was taken in. -/
theorem takes_putList (hs : s.Sound) {ps : List Pointer} (hps : ∀ p ∈ ps, s.Holds p) :
    (s.putList ps).Sound ∧ s.Extends (s.putList ps) ∧ (s.putList ps).Holds (listPointer ps) := by
  induction ps with
  | nil => exact ⟨hs, .refl s, s.holds_nil⟩
  | cons p ps ih =>
    rw [List.forall_mem_cons] at hps
    obtain ⟨hsound, hext, hlist⟩ := ih hps.2
    have hchildren : ∀ c ∈ [p, listPointer ps], (s.putList ps).Holds c := by
      simp only [List.forall_mem_cons, List.not_mem_nil, false_imp_iff, implies_true, and_true]
      exact ⟨hext.holds hps.1, hlist⟩
    have htakes := takes_put .cons hsound rfl hchildren
    exact ⟨htakes.sound, hext.trans htakes.extends_, htakes.holds⟩

namespace Sound

theorem children_eq (hs : s.Sound) {p : Pointer} {n : ℕ} (hn : p.tag.arity? = some n)
    (hp : s.Holds p) : s.nodes[p]? = some (s.children p) ∧ (s.children p).length = n ∧
      ∀ c ∈ s.children p, s.Holds c := by
  obtain ⟨cs, hcs, hlength, hheld⟩ := hs.children_of_contains hn hp.contains
  have hchildren : s.children p = cs := by
    rw [children, Std.HashMap.getD_eq_getD_getElem?, hcs, Option.getD_some]
  rw [hchildren]
  exact ⟨hcs, hlength, hheld⟩

/-- The parts of a node are in the store; where there is none, nil stands for it. -/
theorem holds_part (hs : s.Sound) {p : Pointer} {n : ℕ} (hn : p.tag.arity? = some n)
    (hp : s.Holds p) (i : ℕ) : s.Holds (s.part p i) := by
  obtain ⟨-, -, hheld⟩ := hs.children_eq hn hp
  rw [part, List.getD_eq_getElem?_getD]
  cases hchild : (s.children p)[i]? with
  | none => exact s.holds_nil
  | some c => exact hheld c (List.mem_of_getElem? hchild)

theorem holds_car (hs : s.Sound) {p : Pointer} (hp : s.Holds p) : s.Holds (s.car p) := by
  unfold car
  split
  · rename_i htag
    exact hs.holds_part (by rw [htag]; rfl) hp 0
  · exact s.holds_nil

theorem holds_cdr (hs : s.Sound) {p : Pointer} (hp : s.Holds p) : s.Holds (s.cdr p) := by
  unfold cdr
  split
  · rename_i htag
    exact hs.holds_part (by rw [htag]; rfl) hp 1
  · exact s.holds_nil

end Sound

theorem part_of_node {p : Pointer} (h : s.nodes[p]? = some cs) (i : ℕ) : s.part p i = cs.getD i .nil := by
  rw [part, children, Std.HashMap.getD_eq_getD_getElem?, h, Option.getD_some]

/-- A larger store has the same parts. -/
theorem Extends.part_eq {t : Store} (h : s.Extends t) (hs : s.Sound) {p : Pointer} {n : ℕ}
    (hn : p.tag.arity? = some n) (hp : s.Holds p) (i : ℕ) : t.part p i = s.part p i := by
  obtain ⟨hnode, -, -⟩ := hs.children_eq hn hp
  rw [part_of_node (h.node hnode), part_of_node hnode]

end Store

namespace Workspace

/-! ## Tests and choices -/

theorem lit_zero : (lit 0 : Int) = bit false := rfl

theorem ptr_eq (p : Pointer) : (ptr p : Pointer) = p := rfl

theorem no_bit (v : Bool) : no (bit v) = bit (!v) := by cases v <;> rfl

theorem tagIs_eq (p : Pointer) (tag : Tag) : (tagIs p tag : ComputeM Int) = pure (bit (p.tag == tag)) :=
  rfl

theorem pointerEq_eq (p q : Pointer) : (pointerEq p q : ComputeM Int) = pure (bit (p == q)) := rfl

theorem both_nil (x : Int) : (both x [] : ComputeM Int) = pure x := rfl

theorem both_cons (v w : Bool) (xs : List Int) :
    (both (bit v) (bit w :: xs) : ComputeM Int) = both (bit (v && w)) xs := by
  cases v <;> cases w <;> rfl

theorem select_bit (v : Bool) (x y : Int) :
    (select (bit v) x y : ComputeM Int) = pure (if v then x else y) := by cases v <;> rfl

theorem selectPointer_bit (v : Bool) (p q : Pointer) :
    (selectPointer (bit v) p q : ComputeM Pointer) = pure (if v then p else q) := by cases v <;> rfl

theorem choose_bit (v : Bool) (x y : Step Int Pointer) :
    (Step.choose (bit v) x y : ComputeM (Step Int Pointer)) = pure (if v then x else y) := by
  cases v <;> rfl

theorem truth_bit (v : Bool) : (truth (bit v) : ComputeM Pointer) = pure (verdict v) := by
  cases v <;> rfl

theorem exclusive_bit (v w : Bool) : (exclusive (bit v) (bit w) : ComputeM Int) = pure (bit (v ^^ w)) := by
  cases v <;> cases w <;> rfl

/-- The value of a sum of flags does not depend on their marks. -/
theorem value_oneOf (xs : List (Marked Int)) : (oneOf xs).value = oneOf (xs.map (·.value)) := by
  cases xs with
  | nil => rfl
  | cons x xs =>
    simp only [oneOf, List.map_cons]
    induction xs generalizing x with
    | nil => rfl
    | cons y xs ih => exact ih (ElementModel.add x y)

theorem oneOf_map {κ : Type} {v : κ → Bool} {ks : List κ} (hne : ks ≠ [])
    (h : ks.Pairwise fun a b => (v a && v b) = false) :
    oneOf (ks.map fun k => bit (v k)) = bit (ks.any v) := by
  have hmarked := congrArg Marked.value (MarkM.oneOf_map (s := fun _ => true) hne h)
  rw [value_oneOf, List.map_map] at hmarked
  exact hmarked

/-- One of two flags of which at most one is set. -/
theorem oneOf_pair {v w : Bool} (h : (v && w) = false) : oneOf [bit v, bit w] = bit (v || w) := by
  cases v <;> cases w <;> first | rfl | cases h

theorem tagIn_eq {tags : List Tag} (hne : tags ≠ []) (hascending : Tag.ascending tags = tags)
    (hnodup : tags.Nodup) (p : Pointer) :
    (tagIn p tags : ComputeM Int) = pure (bit (tags.contains p.tag)) := by
  have hflags : (tags.mapM (tagIs p) : ComputeM (List Int)) =
      pure (tags.map fun tag => bit (p.tag == tag)) := List.mapM_pure
  have hpairs : tags.Pairwise fun a b => (p.tag == a && p.tag == b) = false :=
    hnodup.imp fun {a b} hab => MarkM.tags_exclusive p a b hab
  have hany : tags.any (fun tag => p.tag == tag) = tags.contains p.tag := List.any_beq
  unfold tagIn
  rw [hascending, hflags, pure_bind, oneOf_map hne hpairs, hany]

/-- Tests whether a pointer is the symbol of each of several operators. -/
theorem operatorFlags_eq {κ : Type} (p : Pointer) (form : κ → Form) (ks : List κ) :
    (ks.mapM fun k => do
      let same ← pointerEq p (ptr (form k).symbol)
      pure (k, same) : ComputeM (List (κ × Int))) =
        pure (ks.map fun k => (k, bit (formOf? p == some (form k)))) := by
  rw [← List.mapM_pure]
  simp only [ptr_eq, pointerEq_eq, pure_bind, beq_symbol]

theorem flag_map {κ : Type} [BEq κ] [LawfulBEq κ] {ks : List κ} {k : κ} (h : k ∈ ks) (f : κ → Int) :
    flag (ks.map fun k => (k, f k)) k = f k := by
  unfold flag
  induction ks with
  | nil => cases h
  | cons a ks ih =>
    rw [List.map_cons, List.lookup_cons]
    by_cases hka : k = a
    · subst hka
      simp
    · rw [beq_eq_false_iff_ne.2 hka]
      exact ih ((List.mem_cons.1 h).resolve_left hka)

/-- One flag for several forms. -/
theorem oneOf_forms {head : Pointer} {forms : List Form} (hne : forms ≠ []) (hnodup : forms.Nodup) :
    oneOf (forms.map fun form => bit (formOf? head == some form)) =
      bit (forms.any (formOf? head == some ·)) := by
  have hmarked : (oneOf (forms.map fun form => Marked.bit true (head == form.symbol))).value = _ :=
    congrArg Marked.value (MarkM.oneOf_forms hne hnodup)
  rw [value_oneOf, List.map_map] at hmarked
  simp only [← beq_symbol] at hmarked ⊢
  exact hmarked

/-! ## Arithmetic -/

theorem enabled_bit (b : Bool) : enabled (some (bit b)) = b := by cases b <;> rfl

theorem payload_of_canonical {p : Pointer} (h : p.Canonical) :
    (payload p : ComputeM Int) = pure (p.digest.headD 0) := by
  obtain ⟨d0, d1, d2, d3, hdigest⟩ := h.exists_digest
  change ask (fun _ => p.payload) = _
  rw [Pointer.payload, hdigest]
  rfl

theorem div_eq {x y : Int} (hy : Field.Canonical y) : (StepModel.div x y : ComputeM (Int × Int)) =
    pure (if y = 0 then 0 else Field.reduce (x * Field.invert y), bit (y == 0)) := by
  change Workspace.div x y = _
  unfold Workspace.div
  by_cases hzero : y = 0
  · rw [if_pos hzero, if_pos hzero, hzero]
    rfl
  · rw [if_neg hzero, if_neg hzero, Field.reduce_eq_self hy, if_neg hzero, beq_eq_false_iff_ne.2 hzero]
    rfl

theorem divRem_bit {x y : Int} {b : Bool} (h : b = true → y ≠ 0) :
    (StepModel.divRem x y (some (bit b)) : ComputeM (Int × Int)) =
      pure (if b then (x.fdiv y, x.fmod y) else (0, 0)) := by
  change Workspace.divRem x y (some (bit b)) = _
  unfold Workspace.divRem
  rw [enabled_bit]
  cases b with
  | true => rw [if_pos rfl, if_neg (h rfl), if_pos rfl]
  | false => rfl

theorem mul_eq (x y : Int) : (StepModel.mul x y : ComputeM Int) = pure (Field.reduce (x * y)) := rfl

theorem less_eq (x y : Int) : (StepModel.less x y : ComputeM Int) =
    pure (bit (Field.toSigned x < Field.toSigned y)) := rfl

theorem equal_eq (x y : Int) : (StepModel.equal x y : ComputeM Int) =
    pure (bit (Field.reduce (x - y) == 0)) := rfl

theorem number_eq (x : Int) : (StepModel.number x : ComputeM Pointer) = pure ⟨.number, [x, 0, 0, 0]⟩ := rfl

theorem add_bit {b d : Bool} (h : (b && d) = false) : ElementModel.add (bit b) (bit d) = bit (b || d) :=
  oneOf_pair h

/-! ## Computations on a store -/

variable {α β : Type} {x : ComputeM α} {f : α → ComputeM β} {s t u : Store} {a : α} {b : β}
  {v : Pointer}

/-- The computation succeeds on a store with a result and leaves another one. It reports nothing. -/
def Gives (x : ComputeM α) (s : Store) (a : α) (t : Store) : Prop :=
  ∀ w, w.store = s → ∃ w', x w = .ok a w' ∧ w'.store = t ∧ w'.emitted = w.emitted

/-- The computation reports a value while the store is as it was. If the value has a written form the
computation succeeds, and otherwise it fails there. -/
def Reports (x : ComputeM α) (s : Store) (v : Pointer) (a : α) (t : Store) : Prop :=
  ∀ w, w.store = s →
    (∀ text, s.render v = .ok text →
      ∃ w', x w = .ok a w' ∧ w'.store = t ∧ w'.emitted = v :: w.emitted) ∧
    ∀ fault, s.render v = .error fault → ∃ w', x w = .error fault w' ∧ w'.store = s

theorem gives_pure (a : α) (s : Store) : Gives (pure a) s a s := fun w h => ⟨w, rfl, h, rfl⟩

theorem Gives.bind (hx : Gives x s a t) (hf : Gives (f a) t b u) : Gives (x >>= f) s b u := by
  intro w hw
  obtain ⟨w₁, hx, hw₁, hemitted₁⟩ := hx w hw
  obtain ⟨w₂, hf, hw₂, hemitted₂⟩ := hf w₁ hw₁
  exact ⟨w₂, (bind_of_ok hx f).trans hf, hw₂, hemitted₂.trans hemitted₁⟩

theorem Gives.bind_reports (hx : Gives x s a s) (hf : Reports (f a) s v b u) :
    Reports (x >>= f) s v b u := by
  intro w hw
  obtain ⟨w₁, hx, hw₁, hemitted₁⟩ := hx w hw
  obtain ⟨hwritten, hunwritten⟩ := hf w₁ hw₁
  refine ⟨fun text htext => ?_, fun fault hfault => ?_⟩
  · obtain ⟨w₂, hf, hw₂, hemitted₂⟩ := hwritten text htext
    exact ⟨w₂, (bind_of_ok hx f).trans hf, hw₂, hemitted₂.trans (by rw [hemitted₁])⟩
  · obtain ⟨w₂, hf, hw₂⟩ := hunwritten fault hfault
    exact ⟨w₂, (bind_of_ok hx f).trans hf, hw₂⟩

theorem Reports.bind (hx : Reports x s v a t) (hf : Gives (f a) t b u) : Reports (x >>= f) s v b u := by
  intro w hw
  obtain ⟨hwritten, hunwritten⟩ := hx w hw
  refine ⟨fun text htext => ?_, fun fault hfault => ?_⟩
  · obtain ⟨w₁, hx, hw₁, hemitted₁⟩ := hwritten text htext
    obtain ⟨w₂, hf, hw₂, hemitted₂⟩ := hf w₁ hw₁
    exact ⟨w₂, (bind_of_ok hx f).trans hf, hw₂, hemitted₂.trans hemitted₁⟩
  · obtain ⟨w₁, hx, hw₁⟩ := hunwritten fault hfault
    exact ⟨w₁, bind_of_error hx f, hw₁⟩

/-! ## Slots -/

theorem gives_claim (arity : Int) (condition : Option Int) (s : Store) :
    ∀ w, w.store = s → ∃ key w', claim arity condition w =
      .ok (if enabled condition then some key else none) w' ∧ w'.store = s ∧
        w'.emitted = w.emitted := fun _ h => ⟨_, _, rfl, h, rfl⟩

variable {tag : Tag} {cs : List Pointer} {condition : Option Int}

/-- A node goes in if its slot is on. -/
theorem gives_hash (hs : s.Sound) (htag : tag.arity? = some cs.length) (hcs : ∀ c ∈ cs, s.Holds c)
    (hon : enabled condition = true) :
    Gives (StepModel.hash (lit tag.value) cs condition) s (Store.nodePointer tag cs) (s.put tag cs) := by
  intro w hw
  obtain ⟨key, w₁, hclaim, hw₁, hemitted⟩ := gives_claim cs.length condition s w hw
  rw [hon, if_pos rfl] at hclaim
  have hlit : (lit tag.value : Int) = tag.value := Field.reduce_eq_self tag.value_canonical
  have htagOf (w : Workspace) : tagOf (lit tag.value) w = .ok tag w := by
    rw [hlit, tagOf, Tag.ofValue?_value]
    rfl
  have hintern : onStore (Store.internNode tag cs) w₁ =
      .ok (Store.nodePointer tag cs) { w₁ with store := s.put tag cs } := by
    rw [onStore, hw₁]
    dsimp only
    rw [(Store.internNode_put hs htag hcs).1]
  refine ⟨{ w₁ with
    store := s.put tag cs
    slots := w₁.slots.set key (nodePreimage tag cs) }, ?_, rfl, hemitted⟩
  change hash (lit tag.value) cs condition w = _
  unfold hash
  rw [bind_of_ok hclaim]
  dsimp only
  rw [bind_of_ok (htagOf w₁), bind_of_ok hintern]
  rfl

/-- Nothing goes in if the slot is off. -/
theorem gives_hash_off (tag : Int) (cs : List Pointer) (s : Store) (hoff : enabled condition = false) :
    Gives (StepModel.hash tag cs condition) s .nil s := by
  intro w hw
  obtain ⟨key, w₁, hclaim, hw₁, hemitted⟩ := gives_claim cs.length condition s w hw
  rw [hoff] at hclaim
  refine ⟨w₁, ?_, hw₁, hemitted⟩
  change hash tag cs condition w = _
  unfold hash
  rw [bind_of_ok hclaim]
  rfl

theorem gives_hashTag (hs : s.Sound) (htag : tag.arity? = some cs.length)
    (hcs : ∀ c ∈ cs, s.Holds c) (hon : enabled condition = true) :
    Gives (hashTag tag cs condition) s (Store.nodePointer tag cs) (s.put tag cs) :=
  gives_hash hs htag hcs hon

theorem gives_hashTag_off (tag : Tag) (cs : List Pointer) (s : Store)
    (hoff : enabled condition = false) : Gives (hashTag tag cs condition) s .nil s :=
  gives_hash_off _ cs s hoff

/-- A list goes in if its slots are on. -/
theorem gives_buildList (hs : s.Sound) {ps : List Pointer} (hps : ∀ p ∈ ps, s.Holds p)
    (hon : enabled condition = true) :
    Gives (buildList ps condition) s (Store.listPointer ps) (s.putList ps) := by
  unfold buildList
  rw [List.foldlM_reverse]
  induction ps with
  | nil => exact gives_pure _ s
  | cons p ps ih =>
    rw [List.forall_mem_cons] at hps
    rw [List.foldrM_cons]
    refine (ih hps.2).bind (gives_hashTag ?_ rfl ?_ hon)
    · exact (Store.takes_putList hs hps.2).1
    · obtain ⟨-, hext, hlist⟩ := Store.takes_putList hs hps.2
      simp only [List.forall_mem_cons, List.not_mem_nil, false_imp_iff, implies_true, and_true]
      exact ⟨hext.holds hps.1, hlist⟩

theorem gives_buildList_off (ps : List Pointer) (s : Store) (hoff : enabled condition = false) :
    ∃ p, Gives (buildList ps condition) s p s := by
  unfold buildList
  rw [List.foldlM_reverse]
  induction ps with
  | nil => exact ⟨_, gives_pure _ s⟩
  | cons p ps ih =>
    obtain ⟨q, hq⟩ := ih
    rw [List.foldrM_cons]
    exact ⟨.nil, hq.bind (gives_hashTag_off _ _ s hoff)⟩

/-- A node is taken apart if its slot is on. -/
theorem gives_unhash (hs : s.Sound) {p : Pointer} {n : ℕ} (hn : p.tag.arity? = some n)
    (hp : s.Holds p) (hon : enabled condition = true) :
    Gives (StepModel.unhash p n condition) s (s.children p) s := by
  intro w hw
  obtain ⟨key, w₁, hclaim, hw₁, hemitted⟩ := gives_claim n condition s w hw
  rw [hon, if_pos rfl] at hclaim
  have hfetch : ask (·.fetch p (some (n : Int))) w₁ = .ok (s.children p) w₁ := by
    rw [ask, hw₁, Store.fetch_eq hn (hs.children_eq hn hp).1]
  refine ⟨{ w₁ with slots := w₁.slots.set key (nodePreimage p.tag (s.children p)) }, ?_, hw₁,
    hemitted⟩
  change unhash p n condition w = _
  unfold unhash
  rw [bind_of_ok hclaim]
  dsimp only
  rw [bind_of_ok hfetch]
  rfl

/-- Nil comes out if the slot is off. -/
theorem gives_unhash_off (p : Pointer) (n : ℕ) (s : Store) (hoff : enabled condition = false) :
    Gives (StepModel.unhash p n condition) s (List.replicate n .nil) s := by
  intro w hw
  obtain ⟨key, w₁, hclaim, hw₁, hemitted⟩ := gives_claim n condition s w hw
  rw [hoff] at hclaim
  refine ⟨w₁, ?_, hw₁, hemitted⟩
  change unhash p n condition w = _
  unfold unhash
  rw [bind_of_ok hclaim]
  rfl

theorem gives_unhash2 (hs : s.Sound) {p : Pointer} (hn : p.tag.arity? = some 2) (hp : s.Holds p)
    (hon : enabled condition = true) :
    Gives (unhash2 p condition) s (s.part p 0, s.part p 1) s :=
  (gives_unhash hs hn hp hon).bind (gives_pure _ s)

theorem gives_unhash2_off (p : Pointer) (s : Store) (hoff : enabled condition = false) :
    Gives (unhash2 p condition) s (.nil, .nil) s :=
  (gives_unhash_off p 2 s hoff).bind (gives_pure _ s)

theorem gives_unhash3 (hs : s.Sound) {p : Pointer} (hn : p.tag.arity? = some 3) (hp : s.Holds p)
    (hon : enabled condition = true) :
    Gives (unhash3 p condition) s (s.part p 0, s.part p 1, s.part p 2) s :=
  (gives_unhash hs hn hp hon).bind (gives_pure _ s)

theorem gives_unhash3_off (p : Pointer) (s : Store) (hoff : enabled condition = false) :
    Gives (unhash3 p condition) s (.nil, .nil, .nil) s :=
  (gives_unhash_off p 3 s hoff).bind (gives_pure _ s)

/-- A pair is taken apart; anything else gives nil. -/
theorem gives_unhash2_pair (hs : s.Sound) {p : Pointer} (hp : p.tag = .cons → s.Holds p) :
    Gives (unhash2 p (some (bit (p.tag == .cons)))) s (s.car p, s.cdr p) s := by
  by_cases hpair : p.tag = .cons
  · rw [Store.car, Store.cdr, if_pos hpair, if_pos hpair]
    exact gives_unhash2 hs (by rw [hpair]; rfl) (hp hpair) (by rw [enabled_bit, beq_iff_eq]; exact hpair)
  · rw [Store.car, Store.cdr, if_neg hpair, if_neg hpair]
    exact gives_unhash2_off p s (by rw [enabled_bit, beq_eq_false_iff_ne]; exact hpair)

/-! ## Reports -/

theorem reports_emit (v : Pointer) (s : Store) (hon : enabled condition = true) :
    Reports (StepModel.emit v condition) s v () s := by
  intro w hw
  have hemit : (StepModel.emit v condition : ComputeM Unit) w =
      (ask (·.render v) >>= fun _ => pure ()) { w with emitted := v :: w.emitted } := by
    change emit v condition w = _
    unfold emit
    rw [hon]
    rfl
  rw [hemit]
  obtain ⟨w₁, hw₁⟩ : ∃ w₁, w₁ = { w with emitted := v :: w.emitted } := ⟨_, rfl⟩
  have hstore : w₁.store = s := by rw [hw₁, hw]
  have hemitted : w₁.emitted = v :: w.emitted := by rw [hw₁]
  rw [← hw₁]
  refine ⟨fun text htext => ⟨w₁, ?_, hstore, hemitted⟩, fun fault hfault => ⟨w₁, ?_, hstore⟩⟩
  · have hask : ask (·.render v) w₁ = .ok text w₁ := by rw [ask, hstore, htext]
    exact bind_of_ok hask _
  · have hask : ask (·.render v) w₁ = .error fault w₁ := by rw [ask, hstore, hfault]
    exact bind_of_error hask _

theorem gives_emit_off (v : Pointer) (s : Store) (hoff : enabled condition = false) :
    Gives (StepModel.emit v condition) s () s := by
  have hemit : (StepModel.emit v condition : ComputeM Unit) = pure () := by
    change emit v condition = _
    unfold emit
    rw [hoff]
    rfl
  rw [hemit]
  exact gives_pure () s

end Workspace

end FieldLisp
