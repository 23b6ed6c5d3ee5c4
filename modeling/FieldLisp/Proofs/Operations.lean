import FieldLisp.Proofs.Machine.StepRequests
import FieldLisp.Proofs.Machine.Reading

/-!
# Operations on a store

What a program can do to a store, one operation after the other:

* `Operation`, `Operation.perform`: all operations that take content in, with what they hand out;
* `Programmed`: an operation is a tree of requests, and so are all that are put together from such;
* `Operation.programmed`: every operation is one.
-/

namespace FieldLisp

open Store

mutual

/-- The pointers in a datum. -/
def Datum.pointers : Datum → List Pointer
  | .pointer p => [p]
  | .items data => Datum.allPointers data
  | _ => []

def Datum.allPointers : List Datum → List Pointer
  | [] => []
  | datum :: data => datum.pointers ++ Datum.allPointers data

end

/-- An operation that may take content into a store, with what it is given. -/
inductive Operation where
  | intern (datum : Datum)
  | node (tag : Tag) (children : List Pointer)
  | symbol (name : String)
  | cons (car cdr : Pointer)
  | list (items : List Pointer) (tail : Pointer)
  | thunk (value : Pointer)
  | function (parameter body env : Pointer)
  | bind (var val parent : Pointer) (recursive : Bool)
  | continuation (tag : Tag) (children : List Pointer)
  | hide (secret : Int) (payload : Pointer)
  | commit (payload : Pointer)
  | read (text : String)
  | step (config : Config) (state : State)
  | evaluate (config : Config) (maxSteps : Int) (cancelled : Bool) (expr : Pointer)
      (env : Option Pointer)

/-- What an operation hands out. -/
inductive Product where
  | pointer (p : Pointer)
  | frame (frame : Frame)
  | evaluation (evaluation : Evaluation)

namespace Operation

/-- The pointers that an operation is given. -/
def pointers : Operation → List Pointer
  | intern datum => datum.pointers
  | node _ children => children
  | symbol _ => []
  | cons car cdr => [car, cdr]
  | list items tail => tail :: items
  | thunk value => [value]
  | function parameter body env => [parameter, body, env]
  | bind var val parent _ => [var, val, parent]
  | continuation _ children => children
  | hide _ payload => [payload]
  | commit payload => [payload]
  | read _ => []
  | step _ state => state.pointers
  | evaluate _ _ _ expr env => expr :: env.toList

def Canonical (operation : Operation) : Prop := ∀ p ∈ operation.pointers, p.Canonical

def perform : Operation → StoreM Product
  | intern datum => Product.pointer <$> Store.intern datum
  | node tag children => Product.pointer <$> internNode tag children
  | symbol name => Product.pointer <$> internSymbol name
  | cons car cdr => Product.pointer <$> Store.cons car cdr
  | list items tail => Product.pointer <$> Store.list items tail
  | thunk value => Product.pointer <$> Store.thunk value
  | function parameter body env => Product.pointer <$> Store.function parameter body env
  | bind var val parent recursive => Product.pointer <$> Store.bind var val parent recursive
  | continuation tag children => Product.pointer <$> Store.continuation tag children
  | hide secret payload => Product.pointer <$> Store.hide secret payload
  | commit payload => Product.pointer <$> Store.commit payload
  | read text => Product.pointer <$> FieldLisp.read text
  | step config state => Product.frame <$> Machine.step config state
  | evaluate config maxSteps cancelled expr env =>
    Product.evaluation <$> Machine.evaluate config maxSteps cancelled expr env

end Operation

/-! ## Programs for operations -/

/-- What an operation does is a program; if a condition holds, the program asks about canonical pointers
only, and has good results. -/
def Programmed {α : Type} (given : Prop) (good : α → Prop) (x : StoreM α) : Prop :=
  ∃ P : Program α, P.run = x ∧ (given → P.Within Request.Canonical good)

namespace Programmed

variable {α β : Type} {given given' : Prop} {good : α → Prop} {good' : β → Prop}

theorem pure {a : α} (h : given → good a) : Programmed given good (Pure.pure a : StoreM α) :=
  ⟨.done a, rfl, h⟩

theorem throw (fault : Fault) : Programmed given good (MonadExcept.throw fault : StoreM α) :=
  ⟨.fail fault, rfl, fun _ => trivial⟩

theorem bind {x : StoreM α} {f : α → StoreM β} (hx : Programmed given good x)
    (hf : ∀ a, Programmed (given ∧ good a) good' (f a)) : Programmed given good' (x >>= f) := by
  obtain ⟨P, rfl, hP⟩ := hx
  choose next hrun hnext using hf
  refine ⟨P >>= next, ?_, fun h => (hP h).bind fun a ha => hnext a ⟨h, ha⟩⟩
  rw [Program.run_bind, funext hrun]

theorem of_imp {x : StoreM α} (hx : Programmed given good x) (h : given' → given) :
    Programmed given' good x := by
  obtain ⟨P, hrun, hP⟩ := hx
  exact ⟨P, hrun, hP ∘ h⟩

theorem map {x : StoreM α} (f : α → β) (hx : Programmed given good x) :
    Programmed given (fun _ => True) (f <$> x) := by
  rw [map_eq_pure_bind]
  exact hx.bind fun _ => .pure fun _ => trivial

theorem request (r : Request) : Programmed r.Canonical r.Fits r.perform :=
  ⟨Program.request r, Program.run_request r, fun hr => ⟨hr, fun _ hfits => hfits⟩⟩

theorem internPointer (p : Pointer) :
    Programmed p.Canonical Pointer.Canonical (Store.internPointer p) := by
  have hrun := Program.run_require p Pure.pure
  rw [bind_pure] at hrun
  rw [← hrun, Program.run_request]
  exact (request (.require p)).bind fun _ => .pure And.left

theorem internNode (tag : Tag) (children : List Pointer) :
    Programmed (∀ c ∈ children, c.Canonical) Pointer.Canonical (Store.internNode tag children) :=
  request (.node tag children)

theorem internSymbol (name : String) :
    Programmed given Pointer.Canonical (Store.internSymbol name) :=
  (request (.symbol name)).of_imp fun _ => trivial

theorem cons (car cdr : Pointer) : Programmed (car.Canonical ∧ cdr.Canonical) Pointer.Canonical
    (Store.cons car cdr) := by
  refine (internNode .cons [car, cdr]).of_imp fun ⟨hcar, hcdr⟩ => ?_
  simp [hcar, hcdr]

theorem list (items : List Pointer) (tail : Pointer) :
    Programmed ((∀ item ∈ items, item.Canonical) ∧ tail.Canonical) Pointer.Canonical
      (Store.list items tail) := by
  induction items with
  | nil => exact .pure And.right
  | cons item items ih =>
    have hrest := ih.of_imp fun (h : (∀ p ∈ item :: items, p.Canonical) ∧ tail.Canonical) =>
      ⟨(List.forall_mem_cons.1 h.1).2, h.2⟩
    refine hrest.bind fun rest => ?_
    exact (cons item rest).of_imp fun h => ⟨(List.forall_mem_cons.1 h.1.1).1, h.2⟩

theorem hide (secret : Int) (payload : Pointer) :
    Programmed payload.Canonical Pointer.Canonical (Store.hide secret payload) := by
  refine (internNode .commitment [.number secret, payload]).of_imp fun hpayload => ?_
  have hsecret : (Pointer.number secret).Canonical := Pointer.immediate_canonical .number secret
  simp [hsecret, hpayload]

theorem continuation (tag : Tag) (children : List Pointer) :
    Programmed (∀ c ∈ children, c.Canonical) Pointer.Canonical (Store.continuation tag children) := by
  unfold Store.continuation
  split
  · exact .throw _
  · rename_i arity harity
    refine (internNode tag _).of_imp fun hchildren => ?_
    intro c hc
    rcases List.mem_append.1 hc with hc | hc
    · exact hchildren c hc
    · rw [List.eq_of_mem_replicate hc]
      exact Pointer.immediate_canonical .nil 0

mutual

theorem intern : ∀ datum : Datum, Programmed (∀ p ∈ datum.pointers, p.Canonical) Pointer.Canonical
    (Store.intern datum)
  | .pointer p => (internPointer p).of_imp fun h => h p (by simp [Datum.pointers])
  | .null => .pure fun _ => Pointer.immediate_canonical .nil 0
  | .integer n => .pure fun _ => Pointer.immediate_canonical .number n
  | .boolean _ => .throw _
  | .decimal => .throw _
  | .text name => internSymbol name
  | .items data => by
    unfold Store.intern
    refine (internItems data).bind fun pointers => ?_
    exact (list pointers .nil).of_imp fun h => ⟨h.2, Pointer.immediate_canonical .nil 0⟩

theorem internItems : ∀ data : List Datum, Programmed (∀ p ∈ Datum.allPointers data, p.Canonical)
    (fun pointers => ∀ p ∈ pointers, p.Canonical) (Store.internItems data)
  | [] => .pure fun _ => List.forall_mem_nil _
  | datum :: data => by
    unfold Store.internItems
    have split (h : ∀ p ∈ Datum.allPointers (datum :: data), p.Canonical) :
        (∀ p ∈ datum.pointers, p.Canonical) ∧ ∀ p ∈ Datum.allPointers data, p.Canonical := by
      unfold Datum.allPointers at h
      exact List.forall_mem_append.1 h
    refine ((intern datum).of_imp fun h => (split h).1).bind fun pointer => ?_
    refine ((internItems data).of_imp fun h => (split h.1).2).bind fun pointers => ?_
    exact .pure fun h => List.forall_mem_cons.2 ⟨h.1.2, h.2⟩

end

/-! ### Reading -/

/-- All pointers that a reading holds are canonical. -/
structure Reads (reading : Reading) : Prop where
  finished : ∀ p ∈ reading.finished, p.Canonical
  pending : ∀ construct ∈ reading.pending, ∀ p ∈ construct.pointers, p.Canonical

theorem deliver (finished : List Pointer) (value : Pointer) (pending : List Pending) :
    Programmed (Reads ⟨finished, pending⟩ ∧ value.Canonical) Reads
      (Reading.deliver finished value pending) := by
  induction pending generalizing value with
  | nil => exact .pure fun h => ⟨List.forall_mem_cons.2 ⟨h.2, h.1.finished⟩, List.forall_mem_nil _⟩
  | cons innermost outer ih =>
    cases innermost with
    | items items | tail items =>
      refine .pure fun ⟨hreads, hvalue⟩ => ⟨hreads.finished, ?_⟩
      obtain ⟨hitems, houter⟩ := List.forall_mem_cons.1 hreads.pending
      exact List.forall_mem_cons.2 ⟨List.forall_mem_cons.2 ⟨hvalue, hitems⟩, houter⟩
    | close items tail => exact .throw _
    | quoted quote =>
      have hlist := (list [quote, value] .nil).of_imp
        fun (h : Reads ⟨finished, .quoted quote :: outer⟩ ∧ value.Canonical) => by
          have hquote := (List.forall_mem_cons.1 h.1.pending).1 quote (by simp [Pending.pointers])
          exact ⟨by simp [hquote, h.2], Pointer.immediate_canonical .nil 0⟩
      refine hlist.bind fun quoted => (ih quoted).of_imp fun h => ?_
      exact ⟨⟨h.1.1.finished, (List.forall_mem_cons.1 h.1.1.pending).2⟩, h.2⟩

theorem internWord (word : String) :
    Programmed given Pointer.Canonical (Reading.internWord word) := by
  unfold Reading.internWord
  cases numeral? word with
  | none => exact internSymbol word
  | some numeral =>
    dsimp only
    split_ifs
    · exact .throw _
    · exact .pure fun _ => Pointer.immediate_canonical .number _
    · exact .pure fun _ => Pointer.immediate_canonical .number _

theorem word (reading : Reading) (word : String) : Programmed (Reads reading) Reads (do
    let value ← Reading.internWord word
    Reading.deliver reading.finished value reading.pending) :=
  (internWord word).bind fun value => deliver reading.finished value reading.pending

/-- A list that is closed. -/
theorem close (finished items : List Pointer) (tail : Pointer) (outer : List Pending) :
    Programmed (Reads ⟨finished, outer⟩ ∧ (∀ item ∈ items, item.Canonical) ∧ tail.Canonical) Reads (do
      let value ← Store.list items.reverse tail
      Reading.deliver finished value outer) := by
  refine Programmed.bind ((list items.reverse tail).of_imp fun h => ?_) fun value =>
    (deliver finished value outer).of_imp fun h => ⟨h.1.1, h.2⟩
  exact ⟨fun p hp => h.2.1 p (List.mem_reverse.1 hp), h.2.2⟩

theorem step (reading : Reading) (token : Token) :
    Programmed (Reads reading) Reads (Reading.step reading token) := by
  obtain ⟨finished, pending⟩ := reading
  obtain ⟨effect, heffect, hstep⟩ := Reading.exists_effect pending token
  rw [hstep]
  cases heffect with
  | fails fault => exact .throw fault
  | opens =>
    exact .pure fun h => ⟨h.finished, List.forall_mem_cons.2 ⟨List.forall_mem_nil _, h.pending⟩⟩
  | quotes =>
    refine (internSymbol "quote").bind fun quote => .pure fun ⟨hreads, hquote⟩ => ?_
    refine ⟨hreads.finished, List.forall_mem_cons.2 ⟨?_, hreads.pending⟩⟩
    exact List.forall_mem_singleton.2 hquote
  | dots =>
    refine .pure fun h => ⟨h.finished, ?_⟩
    exact List.forall_mem_cons.2 (List.forall_mem_cons.1 h.pending)
  | takes text => exact word ⟨finished, pending⟩ text
  | @closes items outer =>
    refine (close finished items .nil outer).of_imp fun hreads => ?_
    obtain ⟨hitems, houter⟩ := List.forall_mem_cons.1 hreads.pending
    exact ⟨⟨hreads.finished, houter⟩, hitems, Pointer.immediate_canonical .nil 0⟩
  | @closesTail items tail outer =>
    refine (close finished items tail outer).of_imp fun hreads => ?_
    obtain ⟨hparts, houter⟩ := List.forall_mem_cons.1 hreads.pending
    obtain ⟨htail, hitems⟩ := List.forall_mem_cons.1 hparts
    exact ⟨⟨hreads.finished, houter⟩, hitems, htail⟩

theorem foldlM (reading : Reading) (tokens : List Token) :
    Programmed (Reads reading) Reads (tokens.foldlM Reading.step reading) := by
  induction tokens generalizing reading with
  | nil => exact .pure id
  | cons token tokens ih =>
    rw [List.foldlM_cons]
    exact (step reading token).bind fun next => (ih next).of_imp And.right

theorem finish (reading : Reading) :
    Programmed (Reads reading) (fun ps => ∀ p ∈ ps, p.Canonical) reading.finish := by
  obtain ⟨finished, pending⟩ := reading
  rcases pending with _ | ⟨_ | _ | _ | _, _⟩
  case nil => exact .pure fun h p hp => h.finished p (List.mem_reverse.1 hp)
  all_goals exact .throw _

theorem readAll (text : String) :
    Programmed given (fun ps => ∀ p ∈ ps, p.Canonical) (FieldLisp.readAll text) := by
  have hempty : Reads ⟨[], []⟩ := ⟨List.forall_mem_nil _, List.forall_mem_nil _⟩
  have htokens := (foldlM ⟨[], []⟩ (tokenize text)).of_imp fun (_ : given) => hempty
  exact htokens.bind fun reading => (finish reading).of_imp And.right

theorem read (text : String) : Programmed given Pointer.Canonical (FieldLisp.read text) := by
  refine (readAll text).bind fun exprs => ?_
  rcases exprs with _ | ⟨expr, _ | ⟨_, _⟩⟩
  · exact .throw _
  · exact .pure fun h => h.2 expr (by simp)
  · exact .throw _

/-! ### Steps -/

theorem machineStep (config : Config) (state : State) :
    Programmed state.Canonical (fun F => F.output.Canonical) (Machine.step config state) :=
  ⟨.step config state, Program.run_step config state, fun h =>
    (Program.within_step config h).mono (fun _ => And.left) fun _ => id⟩

theorem evaluate (config : Config) (maxSteps : Int) (cancelled : Bool) (expr : Pointer)
    (env : Option Pointer) : Programmed (expr.Canonical ∧ ∀ p ∈ env, p.Canonical) (fun _ => True)
      (Machine.evaluate config maxSteps cancelled expr env) :=
  ⟨.evaluate config maxSteps cancelled expr env, Program.run_evaluate .., fun h =>
    (Program.within_evaluate config maxSteps cancelled h.1 h.2).mono (fun _ => And.left) fun _ => id⟩

end Programmed

/-- Every operation is a program. -/
theorem Operation.programmed (operation : Operation) :
    Programmed operation.Canonical (fun _ => True) operation.perform := by
  cases operation with
  | intern datum => exact (Programmed.intern datum).map _
  | node tag children => exact (Programmed.internNode tag children).map _
  | symbol name => exact (Programmed.internSymbol name).map _
  | cons car cdr =>
    refine ((Programmed.cons car cdr).of_imp fun h => ?_).map _
    exact ⟨h car (by simp [pointers]), h cdr (by simp [pointers])⟩
  | list items tail =>
    refine ((Programmed.list items tail).of_imp fun h => ?_).map _
    exact (List.forall_mem_cons.1 h).symm
  | thunk value =>
    refine ((Programmed.internNode .thunk [value, .nil]).of_imp fun h => ?_).map _
    have hnil : Pointer.nil.Canonical := Pointer.immediate_canonical .nil 0
    exact List.forall_mem_cons.2 ⟨h value (by simp [pointers]), List.forall_mem_singleton.2 hnil⟩
  | function parameter body env => exact (Programmed.internNode .function [parameter, body, env]).map _
  | bind var val parent recursive => exact (Programmed.internNode _ [var, val, parent]).map _
  | continuation tag children => exact (Programmed.continuation tag children).map _
  | hide secret payload =>
    exact ((Programmed.hide secret payload).of_imp List.forall_mem_singleton.1).map _
  | commit payload => exact ((Programmed.hide 0 payload).of_imp List.forall_mem_singleton.1).map _
  | read text => exact (Programmed.read text).map _
  | step config state =>
    refine ((Programmed.machineStep config state).of_imp fun h => ?_).map _
    exact ⟨h state.expr (by simp [pointers, State.pointers]),
      h state.env (by simp [pointers, State.pointers]), h state.cont (by simp [pointers, State.pointers])⟩
  | evaluate config maxSteps cancelled expr env =>
    refine ((Programmed.evaluate config maxSteps cancelled expr env).of_imp fun h => ?_).map _
    obtain ⟨hexpr, henv⟩ := List.forall_mem_cons.1 h
    exact ⟨hexpr, fun p hp => henv p (Option.mem_toList.2 hp)⟩

end FieldLisp
