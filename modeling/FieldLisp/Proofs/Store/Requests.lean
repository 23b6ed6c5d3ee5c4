import FieldLisp.Proofs.Store.Writing

/-!
# What is asked of a store

An operation asks a store one thing after another, and what it asks next depends on the answers only.
So it is a tree of requests, and what holds of every request holds of every operation:

* `Request`, `Request.perform`: what can be asked, and what a store answers;
* `Program`, `Program.run`: a tree of requests, and its run on a store;
* `Program.run_builds`: a program adds entries, and changes none;
* `Program.agree`: two stores give a program the same answers, if neither misses an entry.
-/

namespace FieldLisp

namespace Store

variable {α β : Type}

/-- A question that leaves the store as it is. -/
def ask (question : Store → Except Fault α) : StoreM α := fun s =>
  match question s with
  | .ok a => .ok a s
  | .error fault => .error fault s

/-- What an operation answers, beside the store that it leaves. -/
def answer (operation : StoreM α) (s : Store) : Except Fault α :=
  match operation s with
  | .ok a _ => .ok a
  | .error fault _ => .error fault

section
variable {s t : Store} {x : StoreM α} {a : α} {fault : Fault}

theorem eq_ok_iff : x s = .ok a t ↔ answer x s = .ok a ∧ after x s = t := by
  unfold answer after
  cases x s <;> simp

theorem eq_error_iff : x s = .error fault t ↔ answer x s = .error fault ∧ after x s = t := by
  unfold answer after
  cases x s <;> simp

@[simp] theorem answer_pure (a : α) (s : Store) : answer (pure a) s = .ok a := rfl

@[simp] theorem after_pure (a : α) (s : Store) : after (pure a) s = s := rfl

@[simp] theorem answer_throw (fault : Fault) (s : Store) :
    answer (throw fault : StoreM α) s = .error fault := rfl

@[simp] theorem after_throw (fault : Fault) (s : Store) : after (throw fault : StoreM α) s = s := rfl

@[simp] theorem answer_ask (question : Store → Except Fault α) (s : Store) :
    answer (ask question) s = question s := by
  unfold answer ask
  cases question s <;> rfl

@[simp] theorem after_ask (question : Store → Except Fault α) (s : Store) :
    after (ask question) s = s := by
  unfold after ask
  cases question s <;> rfl

theorem answer_internNode (hs : s.Sound) {tag : Tag} {cs : List Pointer} :
    answer (internNode tag cs) s = (s.checkNode tag cs).map fun _ => nodePointer tag cs := by
  unfold answer
  rw [internNode_eq hs]
  cases s.checkNode tag cs <;> rfl

theorem after_internNode (hs : s.Sound) {tag : Tag} {cs : List Pointer}
    (h : s.checkNode tag cs = .ok ()) : after (internNode tag cs) s = (s.record tag cs).2 := by
  unfold after
  rw [internNode_eq hs, h]

/-- A node that is refused changes nothing. -/
theorem after_internNode_of_error (hs : s.Sound) {tag : Tag} {cs : List Pointer}
    (h : s.checkNode tag cs = .error fault) : after (internNode tag cs) s = s := by
  unfold after
  rw [internNode_eq hs, h]

theorem answer_internSymbol (name : String) (s : Store) :
    answer (internSymbol name) s = .ok (if name = "nil" then .nil else symbolPointer name) := by
  unfold answer internSymbol
  split_ifs <;> rfl

theorem bind_of_answer (h : answer x s = .ok a) (f : α → StoreM β) :
    (x >>= f) s = f a (after x s) := EStateM.bind_of_ok (eq_ok_iff.2 ⟨h, rfl⟩) f

theorem bind_of_fault (h : answer x s = .error fault) (f : α → StoreM β) :
    (x >>= f) s = .error fault (after x s) := EStateM.bind_of_error (eq_error_iff.2 ⟨h, rfl⟩) f

end

end Store

open Store

/-! ## Requests -/

inductive Request where
  /-- The pointer has to be there. -/
  | require (p : Pointer)
  | node (tag : Tag) (children : List Pointer)
  | symbol (name : String)
  | children (p : Pointer) (arity : Option Int)
  | name (p : Pointer)
  /-- The pointer has to have a written form. -/
  | write (p : Pointer)

namespace Request

abbrev Answer : Request → Type
  | require _ | write _ => Unit
  | node _ _ | symbol _ => Pointer
  | children _ _ => List Pointer
  | name _ => String

/-- What a store answers, and what becomes of it. -/
def perform : (r : Request) → StoreM r.Answer
  | require p => ask fun s => if s.contains p then .ok () else .error (Fault.dangling p).reported
  | node tag cs => internNode tag cs
  | symbol text => internSymbol text
  | children p arity => ask (·.fetch p arity)
  | name p => ask (·.nameOf p)
  | write p => ask fun s => (s.render p).map fun _ => ()

/-- All pointers that are asked about are canonical. -/
def Canonical : Request → Prop
  | require p | children p _ | write p => p.Canonical
  | name p => p.Canonical ∧ p.tag = .symbol
  | node _ cs => ∀ c ∈ cs, c.Canonical
  | symbol _ => True

/-- No name is taken in. -/
def Nameless : Request → Prop
  | symbol _ => False
  | _ => True

/-- All pointers of an answer are canonical. -/
def Fits : (r : Request) → r.Answer → Prop
  | node _ _, p | symbol _, p => p.Canonical
  | children _ _, ps => ∀ p ∈ ps, p.Canonical
  | require _, _ | name _, _ | write _, _ => True

variable {r : Request} {s t : Store} {p : Pointer}

theorem answer_require (p : Pointer) (s : Store) : answer (require p).perform s =
    if s.contains p then .ok () else .error (Fault.dangling p).reported := answer_ask _ s

theorem answer_node (hs : s.Sound) (tag : Tag) (cs : List Pointer) :
    answer (node tag cs).perform s = (s.checkNode tag cs).map fun _ => nodePointer tag cs :=
  answer_internNode hs

theorem answer_symbol (text : String) (s : Store) : answer (symbol text).perform s =
    .ok (if text = "nil" then .nil else symbolPointer text) := answer_internSymbol text s

theorem answer_children (p : Pointer) (arity : Option Int) (s : Store) :
    answer (children p arity).perform s = s.fetch p arity := answer_ask _ s

theorem answer_name (p : Pointer) (s : Store) : answer (name p).perform s = s.nameOf p :=
  answer_ask _ s

theorem answer_write (p : Pointer) (s : Store) :
    answer (write p).perform s = (s.render p).map fun _ => () := answer_ask _ s

/-! ### What one request changes -/

theorem perform_builds (hr : r.Canonical) (hs : Reachable s) : s.Builds (after r.perform s) := by
  cases r with
  | require p => rw [perform, after_ask]
  | node tag cs => exact builds_internNode (reachable_sound hs) tag hr
  | symbol name => exact builds_internSymbol s name
  | children p arity => rw [perform, after_ask]
  | name p => rw [perform, after_ask]
  | write p => rw [perform, after_ask]

theorem perform_fits (hs : Reachable s) {a : r.Answer} (ha : answer r.perform s = .ok a) :
    r.Fits a := by
  have hsound := reachable_sound hs
  cases r with
  | require p => trivial
  | node tag cs =>
    rw [answer_node hsound] at ha
    cases hcheck : s.checkNode tag cs with
    | error fault =>
      rw [hcheck] at ha
      cases ha
    | ok _ =>
      rw [hcheck] at ha
      cases ha
      exact nodePointer_canonical tag cs
  | symbol text =>
    rw [answer_symbol] at ha
    cases ha
    change Pointer.Canonical (if text = "nil" then .nil else symbolPointer text)
    split_ifs
    · exact Pointer.immediate_canonical .nil 0
    · exact symbolPointer_canonical text
  | children p arity =>
    rw [answer_children] at ha
    unfold fetch at ha
    split at ha
    · cases ha
    · split_ifs at ha
      · split at ha
        · rename_i cs hcs
          cases ha
          exact fun c hc => ((hsound.node hcs).2.2 c hc).canonical
        · cases ha
  | name p => trivial
  | write p => trivial

/-! ### Two stores -/

theorem checkNode_cases {tag : Tag} {cs : List Pointer} (hcs : ∀ c ∈ cs, c.Canonical) (s : Store) :
    (tag.arity? = some cs.length ∧ s.checkNode tag cs = .ok ()) ∨
      (tag.arity? ≠ some cs.length ∧ s.checkNode tag cs = .error (.childCount tag cs.length)) ∨
      Misses (s.checkNode tag cs) := by
  unfold checkNode
  by_cases harity : tag.arity? = some cs.length
  · rw [if_pos harity]
    cases hfind : cs.find? (!s.contains ·) with
    | none => exact .inl ⟨harity, rfl⟩
    | some c =>
      have hcontains : s.contains c = false := by simpa using List.find?_some hfind
      have hc := hcs c (List.mem_of_find?_eq_some hfind)
      have hreported := reported_dangling hc (not_error_of_not_contains hcontains)
      exact .inr (.inr ⟨c, congrArg Except.error hreported⟩)
  · rw [if_neg harity]
    exact .inr (.inl ⟨harity, rfl⟩)

/-- A node is taken apart, or it is missed, or the same is wrong in every store. -/
theorem fetch_cases (hp : p.Canonical) (s : Store) (arity : Option Int) :
    (∃ cs, s.nodes[p]? = some cs ∧ s.fetch p arity = .ok cs) ∨
      (∃ fault, ∀ u : Store, u.fetch p arity = .error fault) ∨ Misses (s.fetch p arity) := by
  cases hn : p.tag.arity? with
  | none =>
    refine .inr (.inl ⟨(Fault.notANode p arity).reported, fun u => ?_⟩)
    unfold fetch
    rw [hn]
  | some n =>
    by_cases harity : arity.all (· == (n : Int)) = true
    · cases hnode : s.nodes[p]? with
      | some cs =>
        refine .inl ⟨cs, rfl, ?_⟩
        unfold fetch
        rw [hn]
        dsimp only
        rw [if_pos harity, hnode]
      | none =>
        have htag : p.tag ≠ .error := by
          intro htag
          rw [htag] at hn
          cases hn
        refine .inr (.inr ⟨p, ?_⟩)
        unfold fetch
        rw [hn]
        dsimp only
        rw [if_pos harity, hnode, reported_dangling hp htag]
    · refine .inr (.inl ⟨(Fault.notANode p arity).reported, fun u => ?_⟩)
      unfold fetch
      rw [hn]
      dsimp only
      rw [if_neg harity]

theorem nameOf_cases (hp : p.Canonical) (htag : p.tag = .symbol) (s : Store) :
    (∃ text, s.names[p]? = some text ∧ s.nameOf p = .ok text) ∨ Misses (s.nameOf p) := by
  unfold nameOf
  cases hname : s.names[p]? with
  | some text => exact .inl ⟨text, rfl, rfl⟩
  | none =>
    have hreported := reported_dangling hp (by rw [htag]; exact Tag.noConfusion)
    exact .inr ⟨p, congrArg Except.error hreported⟩

variable {known : Set (List Int)}

/-- What one store has taken in for a request without names, another one does not take in as new. -/
theorem after_subset (hr : r.Canonical) (hnameless : r.Nameless) (hs : Reachable s) (ht : Reachable t)
    (hmisses : ¬Misses (answer r.perform s)) :
    (after r.perform t).content ⊆ t.content ∪ (after r.perform s).content := by
  cases r with
  | symbol text => exact absurd hnameless id
  | node tag cs =>
    have hsound := reachable_sound hs
    rw [answer_node hsound] at hmisses
    rcases checkNode_cases hr t with ⟨harity, hcheck⟩ | ⟨-, hcheck⟩ | ⟨q, hcheck⟩
    · rcases checkNode_cases hr s with ⟨-, hcheck'⟩ | ⟨harity', -⟩ | ⟨q, hcheck'⟩
      · rw [perform, after_internNode (reachable_sound ht) hcheck, after_internNode hsound hcheck']
        refine (content_record_subset t tag cs).trans (Set.insert_subset ?_ Set.subset_union_left)
        exact .inr (mem_content_record hsound tag cs)
      · exact absurd harity harity'
      · rw [hcheck'] at hmisses
        exact absurd ⟨q, rfl⟩ hmisses
    all_goals
      rw [perform, after_internNode_of_error (reachable_sound ht) hcheck]
      exact Set.subset_union_left
  | _ =>
    rw [perform, after_ask]
    exact Set.subset_union_left

section
variable (hinjective : Set.InjOn Sponge.hash known)
include hinjective

/-- A name is taken in by both stores, unless other names stand in its place. -/
theorem after_symbol_subset (hs : Reachable s) (ht : Reachable t) (text : String)
    (hs' : (after (internSymbol text) s).content ⊆ known)
    (ht' : (after (internSymbol text) t).content ⊆ known) :
    (after (internSymbol text) t).content ⊆ t.content ∪ (after (internSymbol text) s).content := by
  have reachable {u : Store} (hu : Reachable u) : Reachable (after (internSymbol text) u) :=
    (builds_internSymbol u text).reachable hu
  by_cases hnil : text = "nil"
  · have hafter : after (internSymbol text) t = t := by rw [after, internSymbol, if_pos hnil]
    rw [hafter]
    exact Set.subset_union_left
  have hafter (u : Store) : after (internSymbol text) u = u.recordName (symbolPointer text) text := by
    rw [after, internSymbol, if_neg hnil]
  intro xs hxs
  rw [hafter] at hxs
  rcases content_recordName t text hxs with rfl | hxs
  · rw [← hafter] at hxs
    have hname := name_of_mem_content (reachable ht) hxs
    obtain ⟨other, hother⟩ : ∃ other,
        (after (internSymbol text) s).names[symbolPointer text]? = some other := by
      rw [hafter, ← Option.isSome_iff_exists, ← Std.HashMap.contains_eq_isSome_getElem?]
      exact Std.HashMap.contains_insertIfNew_self
    obtain rfl := name_unique hinjective (reachable ht) (reachable hs) ht' hs' hname hother
    exact .inr (mem_content_of_name hother)
  · exact .inl hxs

theorem after_agrees (hr : r.Canonical) (hs : Reachable s) (ht : Reachable t)
    (hs' : (after r.perform s).content ⊆ known)
    (ht' : (after r.perform t).content ⊆ known ∨ r.Nameless)
    (hmisses : ¬Misses (answer r.perform s)) :
    (after r.perform t).content ⊆ t.content ∪ (after r.perform s).content := by
  rcases ht' with ht' | hnameless
  · cases r with
    | symbol text => exact after_symbol_subset hinjective hs ht text hs' ht'
    | _ => exact after_subset hr trivial hs ht hmisses
  · exact after_subset hr hnameless hs ht hmisses

/-- Two stores answer a request alike, if neither misses an entry. -/
theorem answers_agree (hr : r.Canonical) (hs : Reachable s) (ht : Reachable t)
    (hs' : s.content ⊆ known) (ht' : t.content ⊆ known) (hmisses : ¬Misses (answer r.perform s))
    (hmisses' : ¬Misses (answer r.perform t)) : answer r.perform s = answer r.perform t := by
  cases r with
  | symbol text => rw [answer_symbol, answer_symbol]
  | node tag cs =>
    rw [answer_node (reachable_sound hs)] at hmisses ⊢
    rw [answer_node (reachable_sound ht)] at hmisses' ⊢
    have hsame : s.checkNode tag cs = t.checkNode tag cs := by
      rcases checkNode_cases hr s with ⟨harity, hcheck⟩ | ⟨harity, hcheck⟩ | ⟨q, hcheck⟩
      · rcases checkNode_cases hr t with ⟨-, hcheck'⟩ | ⟨harity', -⟩ | ⟨q, hcheck'⟩
        · rw [hcheck, hcheck']
        · exact absurd harity harity'
        · rw [hcheck'] at hmisses'
          exact absurd ⟨q, rfl⟩ hmisses'
      · rcases checkNode_cases hr t with ⟨harity', -⟩ | ⟨-, hcheck'⟩ | ⟨q, hcheck'⟩
        · exact absurd harity' harity
        · rw [hcheck, hcheck']
        · rw [hcheck'] at hmisses'
          exact absurd ⟨q, rfl⟩ hmisses'
      · rw [hcheck] at hmisses
        exact absurd ⟨q, rfl⟩ hmisses
    rw [hsame]
  | require p =>
    rw [answer_require] at hmisses hmisses' ⊢
    rw [answer_require]
    have found {u : Store} (h : ¬Misses
        (if u.contains p then (.ok () : Except Fault Unit) else .error (Fault.dangling p).reported)) :
        u.contains p = true := by
      by_contra hcontains
      rw [Bool.not_eq_true] at hcontains
      have hreported := reported_dangling hr (not_error_of_not_contains hcontains)
      apply h
      rw [if_neg (by rw [hcontains]; exact Bool.false_ne_true), hreported]
      exact ⟨p, rfl⟩
    rw [if_pos (found hmisses), if_pos (found hmisses')]
  | children p arity =>
    rw [answer_children] at hmisses hmisses' ⊢
    rw [answer_children]
    rcases fetch_cases hr s arity with ⟨cs, hcs, hfetch⟩ | ⟨fault, hfetch⟩ | ⟨q, hfetch⟩
    · rcases fetch_cases hr t arity with ⟨ds, hds, hfetch'⟩ | ⟨fault, hfetch'⟩ | ⟨q, hfetch'⟩
      · rw [hfetch, hfetch', node_unique hinjective hs ht hs' ht' hcs hds]
      · exact (hfetch' s).trans (hfetch' t).symm
      · exact absurd ⟨q, hfetch'⟩ hmisses'
    · exact (hfetch s).trans (hfetch t).symm
    · exact absurd ⟨q, hfetch⟩ hmisses
  | name p =>
    rw [answer_name] at hmisses hmisses' ⊢
    rw [answer_name]
    rcases nameOf_cases hr.1 hr.2 s with ⟨text, htext, hname⟩ | ⟨q, hname⟩
    · rcases nameOf_cases hr.1 hr.2 t with ⟨text', htext', hname'⟩ | ⟨q, hname'⟩
      · rw [hname, hname', name_unique hinjective hs ht hs' ht' htext htext']
      · exact absurd ⟨q, hname'⟩ hmisses'
    · exact absurd ⟨q, hname⟩ hmisses
  | write p =>
    rw [answer_write] at hmisses hmisses' ⊢
    rw [answer_write]
    have written {u : Store} (h : ¬Misses ((u.render p).map fun _ => ())) : ¬Misses (u.render p) := by
      rintro ⟨q, hq⟩
      apply h
      rw [hq]
      exact ⟨q, rfl⟩
    have hsame := renderWithin_agrees hinjective hs ht hs' ht' hr (le_refl _) (le_refl _)
      (written hmisses) (written hmisses')
    exact congrArg (Except.map fun _ => ()) hsame

end

end Request

/-! ## Programs -/

/-- What an operation asks of a store, until it has a result or a fault. -/
inductive Program (α : Type) where
  | done (a : α)
  | fail (fault : Fault)
  | ask (request : Request) (next : request.Answer → Program α)

namespace Program

variable {α β : Type}

def run : Program α → StoreM α
  | done a => pure a
  | fail fault => throw fault
  | ask request next => request.perform >>= fun answer => (next answer).run

def bind : Program α → (α → Program β) → Program β
  | done a, f => f a
  | fail fault, _ => fail fault
  | ask request next, f => ask request fun answer => (next answer).bind f

instance : Monad Program where
  pure := done
  bind := bind

theorem bind_done (P : Program α) : P.bind done = P := by
  induction P with
  | done a => rfl
  | fail fault => rfl
  | ask request next ih => exact congrArg (ask request) (funext ih)

theorem bind_bind {γ : Type} (P : Program α) (f : α → Program β) (g : β → Program γ) :
    (P.bind f).bind g = P.bind fun a => (f a).bind g := by
  induction P with
  | done a => rfl
  | fail fault => rfl
  | ask request next ih => exact congrArg (ask request) (funext ih)

instance : LawfulMonad Program :=
  LawfulMonad.mk' Program bind_done (fun _ _ => rfl) bind_bind

/-- A program that asks for one thing. -/
def request (r : Request) : Program r.Answer := ask r done

theorem run_request (r : Request) : (request r).run = r.perform := by
  funext s
  change (EStateM.bind r.perform pure) s = _
  unfold EStateM.bind
  cases r.perform s <;> rfl

theorem run_bind (P : Program α) (f : α → Program β) : (P >>= f).run = P.run >>= fun a => (f a).run := by
  induction P with
  | done a => rfl
  | fail fault => rfl
  | ask request next ih =>
    have hnext : (fun answer => ((next answer).bind f).run) =
        fun answer => (next answer).run >>= fun a => (f a).run := funext ih
    change (request.perform >>= fun answer => ((next answer).bind f).run) = _
    rw [hnext, run, LawfulMonad.bind_assoc]

/-- Whatever the answers are, as long as they fit, all requests are allowed and the result is good. -/
def Within (allowed : Request → Prop) (good : α → Prop) : Program α → Prop
  | done a => good a
  | fail _ => True
  | ask request next =>
    allowed request ∧ ∀ answer, request.Fits answer → (next answer).Within allowed good

variable {allowed : Request → Prop} {good : α → Prop} {P : Program α}

theorem Within.mono {allowed' : Request → Prop} {good' : α → Prop} (h : P.Within allowed good)
    (hallowed : ∀ r, allowed r → allowed' r) (hgood : ∀ a, good a → good' a) :
    P.Within allowed' good' := by
  induction P with
  | done a => exact hgood a h
  | fail fault => trivial
  | ask request next ih => exact ⟨hallowed request h.1, fun answer hfits => ih answer (h.2 answer hfits)⟩

theorem Within.bind {good' : β → Prop} {f : α → Program β} (h : P.Within allowed good)
    (hf : ∀ a, good a → (f a).Within allowed good') : (P >>= f).Within allowed good' := by
  induction P with
  | done a => exact hf a h
  | fail fault => trivial
  | ask request next ih => exact ⟨h.1, fun answer hfits => ih answer (h.2 answer hfits)⟩

section
variable {r : Request} {next : r.Answer → Program α} {s t : Store}

theorem run_of_fault (next : r.Answer → Program α) {fault : Fault} (h : answer r.perform s = .error fault) :
    answer (ask r next).run s = .error fault ∧ after (ask r next).run s = after r.perform s :=
  eq_error_iff.1 (bind_of_fault h _)

theorem run_of_answer {a : r.Answer} (h : answer r.perform s = .ok a) :
    (ask r next).run s = (next a).run (after r.perform s) := bind_of_answer h _

theorem answer_of_answer {a : r.Answer} (h : answer r.perform s = .ok a) :
    answer (ask r next).run s = answer (next a).run (after r.perform s) := by
  unfold answer
  rw [run_of_answer h]

theorem after_of_answer {a : r.Answer} (h : answer r.perform s = .ok a) :
    after (ask r next).run s = after (next a).run (after r.perform s) := by
  unfold after
  rw [run_of_answer h]
  rfl

end

variable {s t : Store}

/-- A program adds entries, and its result is good. -/
theorem run_builds (hP : P.Within Request.Canonical good) (hs : Reachable s) :
    s.Builds (after P.run s) ∧ ∀ a, answer P.run s = .ok a → good a := by
  induction P generalizing s with
  | done a =>
    refine ⟨.refl, fun b hb => ?_⟩
    cases hb
    exact hP
  | fail fault => exact ⟨.refl, fun b hb => by cases hb⟩
  | ask r next ih =>
    have hbuilds := Request.perform_builds hP.1 hs
    cases hanswer : answer r.perform s with
    | error fault =>
      obtain ⟨hfault, hafter⟩ := run_of_fault next hanswer
      rw [hfault, hafter]
      exact ⟨hbuilds, fun b hb => by cases hb⟩
    | ok a =>
      rw [after_of_answer hanswer, answer_of_answer hanswer]
      obtain ⟨hrest, hgood⟩ := ih a (hP.2 a (Request.perform_fits hs hanswer)) (hbuilds.reachable hs)
      exact ⟨hbuilds.trans hrest, hgood⟩

theorem after_perform_subset {r : Request} {next : r.Answer → Program α}
    (hP : (ask r next).Within Request.Canonical good) (hs : Reachable s) :
    (after r.perform s).content ⊆ (after (ask r next).run s).content := by
  cases hanswer : answer r.perform s with
  | error fault => rw [(run_of_fault next hanswer).2]
  | ok a =>
    have hreachable := (Request.perform_builds hP.1 hs).reachable hs
    rw [after_of_answer hanswer]
    exact (run_builds (hP.2 a (Request.perform_fits hs hanswer)) hreachable).1.retains.content_subset

/-- No name is taken in. -/
abbrev Nameless (P : Program α) : Prop := P.Within Request.Nameless fun _ => True

/-- Two stores answer a program alike, if neither misses an entry and preimages do not collide; and the
second one takes in nothing that the first one does not have in the end. -/
theorem agree {known : Set (List Int)} (hinjective : Set.InjOn Sponge.hash known)
    (hP : P.Within Request.Canonical good) (hs : Reachable s) (ht : Reachable t)
    (hs' : (after P.run s).content ⊆ known)
    (ht' : (after P.run t).content ⊆ known ∨ P.Nameless ∧ t.content ⊆ known)
    (hmisses : ¬Misses (answer P.run s)) (hmisses' : ¬Misses (answer P.run t)) :
    answer P.run s = answer P.run t ∧
      (after P.run t).content ⊆ t.content ∪ (after P.run s).content := by
  induction P generalizing s t with
  | done a => exact ⟨rfl, Set.subset_union_left⟩
  | fail fault => exact ⟨rfl, Set.subset_union_left⟩
  | ask r next ih =>
    have hbuilds := Request.perform_builds hP.1 hs
    have hbuilds' := Request.perform_builds hP.1 ht
    have hfirst := after_perform_subset hP hs
    have hfirst' := after_perform_subset hP ht
    have found {u : Store} (h : ¬Misses (answer (ask r next).run u)) :
        ¬Misses (answer r.perform u) := by
      rintro ⟨q, hq⟩
      exact h ⟨q, (run_of_fault next hq).1⟩
    have hgrows := Request.after_agrees hinjective hP.1 hs ht (hfirst.trans hs')
      (ht'.imp hfirst'.trans fun h => h.1.1) (found hmisses)
    have htknown : t.content ⊆ known := by
      rcases ht' with ht' | ⟨-, ht'⟩
      · exact hbuilds'.retains.content_subset.trans (hfirst'.trans ht')
      · exact ht'
    have hsame := Request.answers_agree hinjective hP.1 hs ht
      (hbuilds.retains.content_subset.trans (hfirst.trans hs')) htknown (found hmisses) (found hmisses')
    cases hanswer : answer r.perform s with
    | error fault =>
      rw [hanswer] at hsame
      obtain ⟨hfault, hafter⟩ := run_of_fault next hanswer
      obtain ⟨hfault', hafter'⟩ := run_of_fault next hsame.symm
      rw [hfault, hfault', hafter, hafter']
      exact ⟨rfl, hgrows⟩
    | ok a =>
      rw [hanswer] at hsame
      rw [after_of_answer hanswer] at hs' hfirst ⊢
      rw [answer_of_answer hanswer] at hmisses ⊢
      rw [after_of_answer hsame.symm] at ht' hfirst' ⊢
      rw [answer_of_answer hsame.symm] at hmisses' ⊢
      have hrest := hP.2 a (Request.perform_fits hs hanswer)
      have hbound : (after (next a).run (after r.perform t)).content ⊆ known ∨
          (next a).Nameless ∧ (after r.perform t).content ⊆ known := by
        refine ht'.imp_right fun h => ⟨h.1.2 a (Request.perform_fits hs hanswer), ?_⟩
        exact hgrows.trans (Set.union_subset htknown (hfirst.trans hs'))
      obtain ⟨hanswers, hcontent⟩ := ih a hrest (hbuilds.reachable hs) (hbuilds'.reachable ht) hs' hbound
        hmisses hmisses'
      refine ⟨hanswers, hcontent.trans (Set.union_subset ?_ Set.subset_union_right)⟩
      exact hgrows.trans (Set.union_subset_union_right _ hfirst)

end Program

end FieldLisp
