import FieldLisp.Proofs.Machine.Agreement
import FieldLisp.Proofs.Store.Distinct
import FieldLisp.Proofs.Store.Spelling

/-!
# Threads on one store

Several evaluations run on one store, a section at a time, in any order. To take in a node takes three
sections, and other threads may come between them:

* `Thread.advance`, `Pool.Section`: the next section of a thread, and of some thread;
* `Thread.Shadows.advance`: what a thread does on the shared store it does on a store of its own;
* `Pool.interleaved`: a thread ends as it ends when it is alone, and the store is the same in the end.
-/

namespace FieldLisp

open Store

/-- What a thread is about to do. -/
inductive Thread (α : Type) where
  | running (P : Program α)
  /-- The children of a node were found; next the node is looked up. -/
  | checked (tag : Tag) (children : List Pointer) (next : Pointer → Program α)
  /-- The node was not found; next it is kept, unless an entry is there by then. -/
  | absent (tag : Tag) (children : List Pointer) (next : Pointer → Program α)

namespace Thread

variable {α : Type}

/-- A request that takes one section. -/
def ask (r : Request) (next : r.Answer → Program α) (s : Store) : Thread α × Store :=
  match r.perform s with
  | .ok a t => (running (next a), t)
  | .error fault t => (running (.fail fault), t)

/-- The next section, on the store as it is then; there is none if the thread has ended. A pointer is
written in as many sections as pointers are looked up. -/
def advance : Thread α → Store → Option (Thread α × Store)
  | running (.done _), _ => none
  | running (.fail _), _ => none
  | running (.ask (.node tag cs) next), s =>
    match s.checkNode tag cs with
    | .error fault => some (running (.fail fault), s)
    | .ok () => some (checked tag cs next, s)
  | running (.ask (.write p) next), s =>
    some (running (Program.spell (3 * s.nodes.size + 3) p >>= fun _ => next ()), s)
  | running (.ask r next), s => some (ask r next s)
  | checked tag cs next, s =>
    match s.internedAs? tag cs with
    | some p => some (running (next p), s)
    | none => some (absent tag cs next, s)
  | absent tag cs next, s => some (running (next (s.record tag cs).1), (s.record tag cs).2)

/-- How a thread ended, if it has. -/
def outcome? : Thread α → Option (Except Fault α)
  | running (.done a) => some (.ok a)
  | running (.fail fault) => some (.error fault)
  | _ => none

/-- What is left to do, from the request on in which the thread is. -/
def rest : Thread α → Program α
  | running P => P
  | checked tag cs next | absent tag cs next => .ask (.node tag cs) next

/-- The children that the thread has found are there. -/
def Ready : Thread α → Store → Prop
  | running _, _ => True
  | checked tag cs _, s | absent tag cs _, s => s.checkNode tag cs = .ok ()

theorem advance_eq_none_iff {thread : Thread α} {s : Store} :
    thread.advance s = none ↔ thread.outcome?.isSome = true := by
  cases thread with
  | checked tag cs next =>
    dsimp only [advance, outcome?]
    cases s.internedAs? tag cs <;> simp
  | absent tag cs next => simp [advance, outcome?]
  | running P =>
    cases P with
    | done a => simp [advance, outcome?]
    | fail fault => simp [advance, outcome?]
    | ask r next =>
      cases r with
      | node tag cs =>
        dsimp only [advance, outcome?]
        cases s.checkNode tag cs <;> simp
      | _ => simp [advance, outcome?]

/-! ## One thread -/

/-- A thread on a shared store goes on as it would alone on a store that has less in it, and there it
comes to an answer and leaves a store. -/
structure Alone (thread : Thread α) (shared own : Store) (a : Except Fault α) (final : Store) :
    Prop where
  reachable : Reachable own
  content : own.content ⊆ shared.content
  calm : thread.rest.Within Request.Calm fun _ => True
  ready : thread.Ready own
  answer_eq : answer thread.rest.run own = a
  after_eq : after thread.rest.run own = final

variable {thread thread' : Thread α} {s t own final : Store} {a : Except Fault α}
  {known : Set (List Int)}

theorem Alone.mono (h : thread.Alone s own a final) (hst : s.content ⊆ t.content) :
    thread.Alone t own a final := { h with content := h.content.trans hst }

theorem Alone.retains (h : thread.Alone s own a final) (hs : Reachable s)
    (hinjective : Set.InjOn Sponge.hash s.content) : own.Retains s :=
  retains_of_content h.reachable hs hinjective h.content

theorem Alone.within (h : thread.Alone s own a final) :
    thread.rest.Within Request.Canonical fun _ => True :=
  h.calm.mono (fun _ => And.left) fun _ => id

/-- Alone, a thread takes in nothing that it does not have in the end. -/
theorem Alone.content_subset (h : thread.Alone s own a final) : own.content ⊆ final.content := by
  have hbuilds := (Program.run_builds h.within h.reachable).1
  rw [h.after_eq] at hbuilds
  exact hbuilds.retains.content_subset

section
variable {r : Request} {next : r.Answer → Program α}

/-- What a thread is refused alone is not missed. -/
theorem Alone.not_misses (h : thread.Alone s own a final) (hrest : thread.rest = .ask r next)
    (hmisses : ¬Misses a) : ¬Misses (answer r.perform own) := by
  rintro ⟨q, hq⟩
  apply hmisses
  rw [← h.answer_eq, hrest]
  exact ⟨q, (Program.run_of_fault next hq).1⟩

/-- Alone, a thread goes on with an answer. -/
theorem Alone.of_answer {b : r.Answer} (h : thread.Alone s own a final)
    (hrest : thread.rest = .ask r next) (hanswer : answer r.perform own = .ok b)
    (hcontent : (after r.perform own).content ⊆ t.content) :
    (running (next b)).Alone t (after r.perform own) a final := by
  obtain ⟨hreachable, -, hcalm, -, hanswers, hafter⟩ := h
  rw [hrest] at hcalm hanswers hafter
  rw [Program.answer_of_answer hanswer] at hanswers
  rw [Program.after_of_answer hanswer] at hafter
  constructor
  · exact (Request.perform_builds hcalm.1.1 hreachable).reachable hreachable
  · exact hcontent
  · exact hcalm.2 b (Request.perform_fits hreachable hanswer)
  · trivial
  · exact hanswers
  · exact hafter

/-- Alone, a thread ends with a fault. -/
theorem Alone.of_fault {fault : Fault} (h : thread.Alone s own a final)
    (hrest : thread.rest = .ask r next) (hanswer : answer r.perform own = .error fault)
    (hsame : after r.perform own = own) : (running (.fail fault) : Thread α).Alone s own a final := by
  obtain ⟨hreachable, hcontent, -, -, hanswers, hafter⟩ := h
  rw [hrest] at hanswers hafter
  obtain ⟨hfault, hleft⟩ := Program.run_of_fault next hanswer
  rw [hfault] at hanswers
  rw [hleft, hsame] at hafter
  exact ⟨hreachable, hcontent, trivial, trivial, hanswers, hafter⟩

end

/-! ### One section -/

variable {tag : Tag} {cs : List Pointer}

/-- What a store becomes in one section of a thread that would do it alone. -/
structure Goes (known : Set (List Int)) (a : Except Fault α) (final : Store) (s : Store)
    (thread : Thread α) (t : Store) : Prop where
  reachable : Reachable t
  subset : s.content ⊆ t.content
  known : t.content ⊆ known
  alone : ∃ own, thread.Alone t own a final

theorem Goes.of_same (hs : Reachable s) (hknown : s.content ⊆ known)
    (h : thread.Alone s own a final) : Goes known a final s thread s :=
  ⟨hs, subset_rfl, hknown, own, h⟩

/-- A thread that has found the children goes on with the pointer of the node, once the node is
there. -/
theorem goes_on {next : Pointer → Program α} (hrest : thread.rest = .ask (.node tag cs) next)
    (hcheck : own.checkNode tag cs = .ok ()) (h : thread.Alone s own a final)
    (hknown : s.content ⊆ known) (hfinal : final.content ⊆ known) (ht : Reachable t)
    (hsubset : s.content ⊆ t.content) (hnew : t.content ⊆ insert (nodePreimage tag cs) s.content)
    (hthere : nodePreimage tag cs ∈ t.content) :
    Goes known a final s (running (next (nodePointer tag cs))) t := by
  have hsound := reachable_sound h.reachable
  have hanswer : answer (Request.node tag cs).perform own = .ok (nodePointer tag cs) := by
    rw [Request.answer_node hsound, hcheck]
    rfl
  have hafter : after (Request.node tag cs).perform own = (own.record tag cs).2 :=
    after_internNode hsound hcheck
  have hcontent : (after (Request.node tag cs).perform own).content ⊆ t.content := by
    rw [hafter]
    exact (content_record_subset own tag cs).trans
      (Set.insert_subset hthere (h.content.trans hsubset))
  have halone := h.of_answer hrest hanswer hcontent
  have hmem : nodePreimage tag cs ∈ known := by
    apply hfinal
    apply halone.content_subset
    rw [hafter]
    exact mem_content_record hsound tag cs
  exact ⟨ht, hsubset, hnew.trans (Set.insert_subset hmem hknown), _, halone⟩

section
variable (hinjective : Set.InjOn Sponge.hash known) (hs : Reachable s) (hknown : s.content ⊆ known)
include hs hknown

/-- A node that is found is the one that the thread would take in alone. -/
theorem goes_look {next : Pointer → Program α} (h : (checked tag cs next).Alone s own a final)
    (hfinal : final.content ⊆ known) (hadvance : (checked tag cs next).advance s = some (thread', t)) :
    Goes known a final s thread' t := by
  dsimp only [advance] at hadvance
  cases hfound : s.internedAs? tag cs with
  | none =>
    rw [hfound] at hadvance
    cases hadvance
    exact .of_same hs hknown ⟨h.reachable, h.content, h.calm, h.ready, h.answer_eq, h.after_eq⟩
  | some p =>
    rw [hfound] at hadvance
    cases hadvance
    obtain ⟨rfl, -⟩ := (reachable_sound hs).interned hfound
    exact goes_on rfl h.ready h hknown hfinal hs subset_rfl (Set.subset_insert _ _)
      (mem_content_of_interned hfound)

include hinjective

/-- Whatever came between, a node is kept under the pointer that the thread would get alone. -/
theorem goes_keep {next : Pointer → Program α} (h : (absent tag cs next).Alone s own a final)
    (hfinal : final.content ⊆ known) (hadvance : (absent tag cs next).advance s = some (thread', t)) :
    Goes known a final s thread' t := by
  have hsound := reachable_sound hs
  have hcs : ∀ c ∈ cs, c.Canonical := h.calm.1.1
  have hretains := h.retains hs (hinjective.mono hknown)
  obtain ⟨harity, hcontains⟩ := of_checkNode h.ready
  have hheld : ∀ c ∈ cs, s.Holds c := by
    intro c hc
    exact hretains.extends_.holds ⟨hcs c hc, hcontains c hc⟩
  have hbuilds := builds_internNode hsound tag hcs
  rw [after_internNode hsound (checkNode_ok harity hheld)] at hbuilds
  cases hadvance
  rw [record_pointer hsound]
  exact goes_on rfl h.ready h hknown hfinal (hbuilds.reachable hs) hbuilds.retains.content_subset
    (content_record_subset s tag cs) (mem_content_record hsound tag cs)

/-- A pointer has the same written form alone. -/
theorem goes_write {p : Pointer} {next : Unit → Program α}
    (h : (running (.ask (.write p) next)).Alone s own a final)
    (hadvance : (running (.ask (.write p) next)).advance s = some (thread', t)) :
    Goes known a final s thread' t := by
  obtain ⟨hreachable, hcontent, hcalm, -, hanswers, hafter⟩ := h
  change answer (Program.ask (.write p) next).run own = a at hanswers
  change after (Program.ask (.write p) next).run own = final at hafter
  have hp : p.Canonical := hcalm.1.1
  have hsize := nodes_size_le (retains_of_content hreachable hs (hinjective.mono hknown) hcontent)
  cases hadvance
  have hrun : (Program.spell (3 * s.nodes.size + 3) p >>= fun _ => next ()).run own =
      (Program.ask (.write p) next).run own := by
    rw [Program.run_bind, Program.run_spell]
    change EStateM.bind _ _ own = EStateM.bind _ _ own
    unfold EStateM.bind Request.perform Store.ask
    dsimp only
    rw [renderWithin_fuel hreachable hp (by omega)]
    cases own.render p <;> rfl
  refine .of_same hs hknown ⟨hreachable, hcontent, ?_, trivial, ?_, ?_⟩
  · have hlooks := (Program.looks_spell (3 * s.nodes.size + 3)).1 p hp
    apply (hlooks.mono (fun r hr => ⟨hr.canonical, hr.nameless⟩) fun _ => id).bind
    intro text _
    exact hcalm.2 () trivial
  · rw [← hanswers]
    unfold answer rest
    rw [hrun]
  · rw [← hafter]
    unfold after rest
    rw [hrun]

variable (hmisses : ¬Misses a)
include hmisses

/-- The children are found if the thread would find them alone. -/
theorem goes_check {next : Pointer → Program α}
    (h : (running (.ask (.node tag cs) next)).Alone s own a final)
    (hadvance : (running (.ask (.node tag cs) next)).advance s = some (thread', t)) :
    Goes known a final s thread' t := by
  have hcs : ∀ c ∈ cs, c.Canonical := h.calm.1.1
  have hretains := h.retains hs (hinjective.mono hknown)
  have hmissed := h.not_misses rfl hmisses
  have hanswer := Request.answer_node (reachable_sound h.reachable) tag cs
  dsimp only [advance] at hadvance
  rcases Request.checkNode_cases hcs own with ⟨harity, hcheck⟩ | ⟨harity, hcheck⟩ | ⟨q, hcheck⟩
  · have hheld : ∀ c ∈ cs, s.Holds c := by
      intro c hc
      exact hretains.extends_.holds ⟨hcs c hc, (of_checkNode hcheck).2 c hc⟩
    rw [checkNode_ok harity hheld] at hadvance
    cases hadvance
    exact .of_same hs hknown ⟨h.reachable, h.content, h.calm, hcheck, h.answer_eq, h.after_eq⟩
  · have hcheck' : s.checkNode tag cs = .error (.childCount tag cs.length) := by
      unfold checkNode
      rw [if_neg harity]
    rw [hcheck'] at hadvance
    cases hadvance
    rw [hcheck] at hanswer
    have hsame : after (Request.node tag cs).perform own = own :=
      after_internNode_of_error (reachable_sound h.reachable) hcheck
    exact .of_same hs hknown (h.of_fault rfl hanswer hsame)
  · rw [hanswer, hcheck] at hmissed
    exact absurd ⟨q, rfl⟩ hmissed

/-- What is looked up on the shared store is what the thread would find alone. -/
theorem goes_ask {r : Request} {next : r.Answer → Program α} (hlooks : r.Looks)
    (h : (running (.ask r next)).Alone s own a final)
    (hadvance : some (ask r next s) = some (thread', t)) : Goes known a final s thread' t := by
  have hasked := Option.some.inj hadvance
  have hretains := h.retains hs (hinjective.mono hknown)
  have hsame := hlooks.answer_eq hretains (reachable_sound h.reachable) (h.not_misses rfl hmisses)
  have hleft := hlooks.after_eq s
  have hown := hlooks.after_eq own
  unfold ask at hasked
  cases hanswer : answer r.perform own with
  | ok b =>
    rw [eq_ok_iff.2 ⟨hsame.trans hanswer, hleft⟩] at hasked
    cases hasked
    have halone := h.of_answer rfl hanswer (hown.symm ▸ h.content)
    exact .of_same hs hknown halone
  | error fault =>
    rw [eq_error_iff.2 ⟨hsame.trans hanswer, hleft⟩] at hasked
    cases hasked
    exact .of_same hs hknown (h.of_fault rfl hanswer hown)

/-- Whatever a thread does next, it would do alone. -/
theorem Alone.goes (h : thread.Alone s own a final) (hfinal : final.content ⊆ known)
    (hadvance : thread.advance s = some (thread', t)) : Goes known a final s thread' t := by
  cases thread with
  | checked tag cs next => exact goes_look hs hknown h hfinal hadvance
  | absent tag cs next => exact goes_keep hinjective hs hknown h hfinal hadvance
  | running P =>
    cases P with
    | done a => cases hadvance
    | fail fault => cases hadvance
    | ask r next =>
      cases r with
      | node tag cs => exact goes_check hinjective hs hknown hmisses h hadvance
      | write p => exact goes_write hinjective hs hknown h hadvance
      | symbol text => exact h.calm.1.2.elim
      | require p =>
        have hlooks : (Request.require p).Looks := h.calm.1.1
        exact goes_ask hinjective hs hknown hmisses hlooks h hadvance
      | children p arity =>
        have hlooks : (Request.children p arity).Looks := h.calm.1.1
        exact goes_ask hinjective hs hknown hmisses hlooks h hadvance
      | name p =>
        have hlooks : (Request.name p).Looks := h.calm.1.1
        exact goes_ask hinjective hs hknown hmisses hlooks h hadvance

end

/-! ### To the end -/

/-- One section leads from a thread to another one, on some store. -/
def Succeeds (thread' thread : Thread α) : Prop :=
  (thread.rest.Within Request.Canonical fun _ => True) ∧
    ∃ s t, Reachable s ∧ thread.advance s = some (thread', t)

theorem acc_of_ended (h : thread.outcome?.isSome = true) : Acc Succeeds thread := by
  constructor
  rintro thread' ⟨-, s, t, -, hadvance⟩
  rw [advance_eq_none_iff.2 h] at hadvance
  cases hadvance

section
variable {r : Request} {next : r.Answer → Program α}

/-- After a request of one section there is what comes after its answer. -/
theorem acc_ask (hsection : ∀ s, (running (.ask r next)).advance s = some (ask r next s))
    (hnext : ∀ b, r.Fits b → Acc Succeeds (running (next b))) :
    Acc Succeeds (running (.ask r next)) := by
  constructor
  rintro thread' ⟨-, s, t, hs, hadvance⟩
  rw [hsection] at hadvance
  have hasked := Option.some.inj hadvance
  unfold ask at hasked
  cases hperform : r.perform s with
  | ok b u =>
    rw [hperform] at hasked
    cases hasked
    exact hnext b (Request.perform_fits hs (eq_ok_iff.1 hperform).1)
  | error fault u =>
    rw [hperform] at hasked
    cases hasked
    exact acc_of_ended rfl

end

theorem acc_looks {β : Type} {P : Program β} {f : β → Program α} (hP : P.Looks)
    (hf : ∀ b, Acc Succeeds (running (f b))) : Acc Succeeds (running (P >>= f)) := by
  induction P with
  | done b => exact hf b
  | fail fault => exact acc_of_ended rfl
  | ask r next ih =>
    have hnext (b : r.Answer) (hb : r.Fits b) : Acc Succeeds (running (next b >>= f)) :=
      ih b (hP.2 b hb)
    cases r with
    | node tag cs => exact hP.1.elim
    | symbol text => exact hP.1.elim
    | write p => exact hP.1.elim
    | require p => exact acc_ask (fun _ => rfl) hnext
    | children p arity => exact acc_ask (fun _ => rfl) hnext
    | name p => exact acc_ask (fun _ => rfl) hnext

theorem acc_absent {next : Pointer → Program α}
    (hnext : Acc Succeeds (running (next (nodePointer tag cs)))) :
    Acc Succeeds (absent tag cs next) := by
  constructor
  rintro thread' ⟨-, s, t, hs, hadvance⟩
  cases hadvance
  rwa [record_pointer (reachable_sound hs)]

theorem acc_checked {next : Pointer → Program α}
    (hnext : Acc Succeeds (running (next (nodePointer tag cs)))) :
    Acc Succeeds (checked tag cs next) := by
  constructor
  rintro thread' ⟨-, s, t, hs, hadvance⟩
  dsimp only [advance] at hadvance
  cases hfound : s.internedAs? tag cs with
  | none =>
    rw [hfound] at hadvance
    cases hadvance
    exact acc_absent hnext
  | some p =>
    rw [hfound] at hadvance
    cases hadvance
    rwa [((reachable_sound hs).interned hfound).1]

theorem acc_running {P : Program α} (hP : P.Within Request.Canonical fun _ => True) :
    Acc Succeeds (running P) := by
  induction P with
  | done a => exact acc_of_ended rfl
  | fail fault => exact acc_of_ended rfl
  | ask r next ih =>
    have hnext (b : r.Answer) (hb : r.Fits b) : Acc Succeeds (running (next b)) :=
      ih b (hP.2 b hb)
    cases r with
    | node tag cs =>
      constructor
      rintro thread' ⟨-, s, t, -, hadvance⟩
      dsimp only [advance] at hadvance
      cases hcheck : s.checkNode tag cs with
      | error fault =>
        rw [hcheck] at hadvance
        cases hadvance
        exact acc_of_ended rfl
      | ok _ =>
        rw [hcheck] at hadvance
        cases hadvance
        exact acc_checked (hnext _ (nodePointer_canonical tag cs))
    | write p =>
      constructor
      rintro thread' ⟨-, s, t, -, hadvance⟩
      cases hadvance
      exact acc_looks ((Program.looks_spell _).1 p hP.1) fun _ => hnext () trivial
    | require p => exact acc_ask (fun _ => rfl) hnext
    | symbol text => exact acc_ask (fun _ => rfl) hnext
    | children p arity => exact acc_ask (fun _ => rfl) hnext
    | name p => exact acc_ask (fun _ => rfl) hnext

/-- No thread goes on forever. -/
theorem wellFounded_succeeds : WellFounded (@Succeeds α) := by
  constructor
  intro thread
  by_cases hwithin : thread.rest.Within Request.Canonical fun _ => True
  · cases thread with
    | running P => exact acc_running hwithin
    | checked tag cs next =>
      exact acc_checked (acc_running (hwithin.2 _ (nodePointer_canonical tag cs)))
    | absent tag cs next =>
      exact acc_absent (acc_running (hwithin.2 _ (nodePointer_canonical tag cs)))
  · exact ⟨_, fun _ h => absurd h.1 hwithin⟩

end Thread

/-! ## All threads -/

/-- Threads and the store that they share. -/
structure Pool (ι α : Type) where
  threads : ι → Thread α
  store : Store

/-- An evaluation that is asked for. -/
structure Errand where
  config : Config
  maxSteps : Int
  cancelled : Bool
  expr : Pointer
  env : Option Pointer

namespace Errand

def evaluate (errand : Errand) : StoreM Evaluation :=
  Machine.evaluate errand.config errand.maxSteps errand.cancelled errand.expr errand.env

def program (errand : Errand) : Program Evaluation :=
  .evaluate errand.config errand.maxSteps errand.cancelled errand.expr errand.env

/-- The expression and the environment are in the store. -/
def Held (errand : Errand) (s : Store) : Prop :=
  s.Holds errand.expr ∧ ∀ p ∈ errand.env, s.Holds p

theorem run_program (errand : Errand) : errand.program.run = errand.evaluate :=
  Program.run_evaluate _ _ _ _ _

end Errand

namespace Pool

variable {ι α : Type}

section
variable [DecidableEq ι]

/-- Some thread takes its next section. -/
inductive Section (pool : Pool ι α) : Pool ι α → Prop
  | mk {i : ι} {thread : Thread α} {t : Store}
      (advances : (pool.threads i).advance pool.store = some (thread, t)) :
      Section pool ⟨Function.update pool.threads i thread, t⟩

/-- Sections of threads, in any order. -/
abbrev Interleaves : Pool ι α → Pool ι α → Prop := Relation.ReflTransGen Section

end

/-- All threads have ended. -/
def Ended (pool : Pool ι α) : Prop := ∀ i, (pool.threads i).outcome?.isSome = true

/-- Every thread is about to start. -/
def start (errands : ι → Errand) (s : Store) : Pool ι Evaluation :=
  ⟨fun i => .running (errands i).program, s⟩

variable {errands : ι → Errand} {s : Store}

/-- All that is in a store in the beginning, or after one of the evaluations alone. -/
def contents (errands : ι → Errand) (s : Store) : Set (List Int) :=
  s.content ∪ ⋃ i, (after (errands i).evaluate s).content

/-- Every thread is where it would come to alone, and the store has nothing else in it. -/
structure Orderly (errands : ι → Errand) (s : Store) (pool : Pool ι Evaluation) : Prop where
  reachable : Reachable pool.store
  subset : s.content ⊆ pool.store.content
  within : pool.store.content ⊆ contents errands s
  alone : ∀ i, ∃ own, (pool.threads i).Alone pool.store own (answer (errands i).evaluate s)
    (after (errands i).evaluate s)

section
variable (hs : Reachable s) (hheld : ∀ i, (errands i).Held s)
include hs hheld

theorem orderly_start : Orderly errands s (start errands s) := by
  refine ⟨hs, subset_rfl, Set.subset_union_left, fun i => ⟨s, hs, subset_rfl, ?_, trivial, ?_, ?_⟩⟩
  · obtain ⟨hexpr, henv⟩ := hheld i
    exact Program.within_evaluate _ _ _ hexpr.canonical fun p hp => (henv p hp).canonical
  · exact congrArg (answer · s) (errands i).run_program
  · exact congrArg (after · s) (errands i).run_program

theorem not_misses (i : ι) : ¬Misses (answer (errands i).evaluate s) :=
  Machine.evaluate_not_misses _ _ _ hs (hheld i).1 (hheld i).2

theorem Orderly.section_ [DecidableEq ι] (hinjective : Set.InjOn Sponge.hash (contents errands s))
    {pool pool' : Pool ι Evaluation} (h : Orderly errands s pool) (hsection : pool.Section pool') :
    Orderly errands s pool' := by
  obtain ⟨hadvance⟩ := hsection
  rename_i i thread t
  obtain ⟨own, halone⟩ := h.alone i
  have hfinal : (after (errands i).evaluate s).content ⊆ contents errands s :=
    (Set.subset_iUnion (fun i => (after (errands i).evaluate s).content) i).trans
      Set.subset_union_right
  obtain ⟨hreachable, hsubset, hknown, hgoes⟩ := halone.goes hinjective h.reachable h.within
    (not_misses hs hheld i) hfinal hadvance
  refine ⟨hreachable, h.subset.trans hsubset, hknown, fun j => ?_⟩
  dsimp only
  by_cases hj : j = i
  · subst hj
    rw [Function.update_self]
    exact hgoes
  · rw [Function.update_of_ne hj]
    obtain ⟨own', halone'⟩ := h.alone j
    exact ⟨own', halone'.mono hsubset⟩

theorem Orderly.interleaves [DecidableEq ι] (hinjective : Set.InjOn Sponge.hash (contents errands s))
    {pool : Pool ι Evaluation} (h : (start errands s).Interleaves pool) : Orderly errands s pool := by
  induction h with
  | refl => exact orderly_start hs hheld
  | tail _ hsection ih => exact ih.section_ hs hheld hinjective hsection

end

/-- Where a thread has ended, it has ended as it does alone. -/
theorem Orderly.outcome_eq {pool : Pool ι Evaluation} (h : Orderly errands s pool) {i : ι}
    {outcome : Except Fault Evaluation} (houtcome : (pool.threads i).outcome? = some outcome) :
    outcome = answer (errands i).evaluate s ∧
      (after (errands i).evaluate s).content ⊆ pool.store.content := by
  obtain ⟨own, halone⟩ := h.alone i
  have hcontent := halone.content
  have hanswer := halone.answer_eq
  have hafter := halone.after_eq
  unfold Thread.outcome? at houtcome
  split at houtcome
  · rename_i hthread
    cases houtcome
    rw [hthread] at hanswer hafter
    rw [← hanswer, ← hafter]
    exact ⟨rfl, hcontent⟩
  · rename_i hthread
    cases houtcome
    rw [hthread] at hanswer hafter
    rw [← hanswer, ← hafter]
    exact ⟨rfl, hcontent⟩
  · cases houtcome

/-- Where all threads have ended, all that they take in alone is in the store. -/
theorem Orderly.content_eq {pool : Pool ι Evaluation} (h : Orderly errands s pool)
    (hended : pool.Ended) : pool.store.content = contents errands s := by
  apply subset_antisymm h.within
  apply Set.union_subset h.subset
  apply Set.iUnion_subset
  intro i
  obtain ⟨outcome, houtcome⟩ := Option.isSome_iff_exists.1 (hended i)
  exact (h.outcome_eq houtcome).2

/-- Every interleaving comes to an end. -/
theorem Orderly.exists_ended [DecidableEq ι] [Finite ι] (hs : Reachable s)
    (hheld : ∀ i, (errands i).Held s) (hinjective : Set.InjOn Sponge.hash (contents errands s))
    {pool : Pool ι Evaluation} (h : Orderly errands s pool) :
    ∃ pool', pool.Interleaves pool' ∧ pool'.Ended := by
  have hdescent : WellFounded (Pi.Lex (@WellOrderingRel ι) fun {_} =>
      @Thread.Succeeds Evaluation) :=
    Pi.Lex.wellFounded _ fun _ => Thread.wellFounded_succeeds
  obtain ⟨threads, store⟩ := pool
  induction threads using hdescent.induction generalizing store with
  | _ threads ih =>
    by_cases hended : (⟨threads, store⟩ : Pool ι Evaluation).Ended
    · exact ⟨_, .refl, hended⟩
    · obtain ⟨i, hi⟩ := not_forall.1 hended
      obtain ⟨⟨thread, t⟩, hadvance⟩ :=
        Option.ne_none_iff_exists'.1 (mt Thread.advance_eq_none_iff.1 hi)
      have hsection : (⟨threads, store⟩ : Pool ι Evaluation).Section
          ⟨Function.update threads i thread, t⟩ := ⟨hadvance⟩
      obtain ⟨own, halone⟩ := h.alone i
      have hdescends : Pi.Lex (@WellOrderingRel ι) (fun {_} => @Thread.Succeeds Evaluation)
          (Function.update threads i thread) threads := by
        refine ⟨i, fun j hj => ?_, ?_⟩
        · rw [Function.update_of_ne]
          rintro rfl
          exact irrefl j hj
        · rw [Function.update_self]
          exact ⟨halone.within, store, t, h.reachable, hadvance⟩
      obtain ⟨pool', hpool', hended'⟩ := ih _ hdescends t (h.section_ hs hheld hinjective hsection)
      exact ⟨pool', .head hsection hpool', hended'⟩

/-- In whatever order threads take their sections: a thread that has ended has come to what it comes to
alone, on a store of its own, and has missed no entry; and when all threads have ended, the store has
the same entries. -/
theorem interleaved [DecidableEq ι] (hs : Reachable s) (hheld : ∀ i, (errands i).Held s)
    (hinjective : Set.InjOn Sponge.hash (contents errands s)) :
    (∀ pool, (start errands s).Interleaves pool → ∀ i outcome,
      (pool.threads i).outcome? = some outcome →
        outcome = answer (errands i).evaluate s ∧ ¬Misses outcome) ∧
    ∀ pool pool', (start errands s).Interleaves pool → (start errands s).Interleaves pool' →
      pool.Ended → pool'.Ended → pool.store.Alike pool'.store := by
  have horderly {pool : Pool ι Evaluation} (h : (start errands s).Interleaves pool) :
      Orderly errands s pool := Orderly.interleaves hs hheld hinjective h
  constructor
  · intro pool hpool i outcome houtcome
    obtain ⟨rfl, -⟩ := (horderly hpool).outcome_eq houtcome
    exact ⟨rfl, not_misses hs hheld i⟩
  · intro pool pool' hpool hpool' hended hended'
    have h := horderly hpool
    have h' := horderly hpool'
    have hcontent := h.content_eq hended
    have hcontent' := h'.content_eq hended'
    have hinjective' : Set.InjOn Sponge.hash pool.store.content := hcontent ▸ hinjective
    have hsame : pool.store.content = pool'.store.content := hcontent.trans hcontent'.symm
    have hforth := retains_of_content h.reachable h'.reachable (hsame ▸ hinjective') hsame.subset
    have hback := retains_of_content h'.reachable h.reachable hinjective' hsame.superset
    exact hforth.alike hback

/-- Two threads that both take in the node that follows an application. -/
def racing : Bool → Errand := fun _ => ⟨.standard, 1, false, Machine.calling, none⟩

/-- The two, and a store that has the application in it. -/
theorem interleaved_racing : ∃ s, Reachable s ∧ (∀ i, (racing i).Held s) ∧
    Set.InjOn Sponge.hash (contents racing s) ∧ ∃ pool, (start racing s).Interleaves pool ∧
      pool.Ended ∧ ∀ i, (pool.threads i).outcome? = some (answer (racing i).evaluate s) := by
  have hnumber : (empty true).Holds (.number 5) :=
    holds_immediate _ (Pointer.immediate_canonical .number 5) rfl
  have hchildren : ∀ c ∈ [Pointer.number 5, .nil], (empty true).Holds c := by
    simp [hnumber, holds_nil]
  have hcheck : (empty true).checkNode .cons [.number 5, .nil] = .ok () :=
    checkNode_ok rfl hchildren
  have hfresh : (empty true).internedAs? .cons [.number 5, .nil] = none := by
    simp [internedAs?, empty]
  obtain ⟨s, hrecorded⟩ : ∃ s, s = ((empty true).record .cons [.number 5, .nil]).2 := ⟨_, rfl⟩
  have henters : (empty true).Enters s := by
    rw [hrecorded]
    exact .node (fun c hc => (hchildren c hc).canonical) hcheck hfresh
  have hs := henters.reachable (.empty true)
  have hnode : s.nodes[Machine.calling]? = some [.number 5, .nil] := by
    rw [hrecorded, record_of_fresh hfresh]
    exact getElem?_insertIfNew_self _ (by simp [empty])
  have hcontent : s.content ⊆ {xs | xs ∈ samples} := by
    rw [hrecorded]
    apply (content_record_subset _ _ _).trans
    exact Set.insert_subset (by simp [samples]) (content_empty_subset true)
  have hnone : ∀ p ∈ (none : Option Pointer), s.Holds p := by
    intro p hp
    cases hp
  have hheld (i : Bool) : (racing i).Held s := ⟨(reachable_sound hs).contains_of_node hnode, hnone⟩
  have hinjective : Set.InjOn Sponge.hash (contents racing s) := by
    apply injOn_samples.mono
    apply Set.union_subset hcontent
    apply Set.iUnion_subset
    intro i
    obtain ⟨E, hE⟩ := Machine.evaluate_calling .standard (reachable_sound hs) hnode
    have hafter : after (racing i).evaluate s = s.put .call0 [.nil, .nil, .nil, .outermost] :=
      (eq_ok_iff.1 hE).2
    have houtermost : s.Holds .outermost :=
      s.holds_immediate (Pointer.immediate_canonical .outermost 0) rfl
    have hframe : s.checkNode .call0 [.nil, .nil, .nil, .outermost] = .ok () :=
      checkNode_ok rfl (by simp [holds_nil, houtermost])
    rw [hafter, put, after_internNode (reachable_sound hs) hframe]
    apply (content_record_subset _ _ _).trans
    exact Set.insert_subset (by simp [samples]) hcontent
  have horderly := orderly_start hs hheld
  obtain ⟨pool, hpool, hended⟩ := horderly.exists_ended hs hheld hinjective
  refine ⟨s, hs, hheld, hinjective, pool, hpool, hended, fun i => ?_⟩
  obtain ⟨outcome, houtcome⟩ := Option.isSome_iff_exists.1 (hended i)
  rw [houtcome, ((interleaved hs hheld hinjective).1 pool hpool i outcome houtcome).1]

end Pool

end FieldLisp
