import FieldLisp.Proofs.Machine.Preservation
import FieldLisp.Proofs.Store.Content
import FieldLisp.Reader

/-!
# What reading keeps up

Reading takes symbols, pairs and numbers into a store, and nothing else. So it keeps up what these three
do, of the store and of what is read:

* `Store.Readable`: a property of stores and one of their pointers that reading keeps up;
* `Reading.Effect`, `Reading.exists_effect`: what a token can make of a reading;
* `Reading.step_reads`: a token keeps them up;
* `read_reads`, `read_typed`, `read_inherits`: what a text is read as, in which store.
-/

namespace FieldLisp

open EStateM (bind_eq_ok pure_eq_ok)

variable {s t : Store} {p : Pointer}

namespace Store

/-- Properties of a store and of pointers that numbers have, and that symbols and pairs keep up. -/
structure Readable (Good : Store → Prop) (P : Store → Pointer → Prop) : Prop where
  sound : ∀ {s}, Good s → s.Sound
  holds : ∀ {s p}, P s p → s.Holds p
  mono : ∀ {s t p}, s.Grows t → P s p → P t p
  nil : ∀ s, P s .nil
  number : ∀ s n, P s (.number n)
  symbol : ∀ {s name}, Good s → s.Grows (s.recordName (symbolPointer name) name) →
    Good (s.recordName (symbolPointer name) name) ∧
      P (s.recordName (symbolPointer name) name) (symbolPointer name)
  pair : ∀ {s a b}, Good s → P s a → P s b →
    Good (s.put .cons [a, b]) ∧ P (s.put .cons [a, b]) (nodePointer .cons [a, b])

/-- A larger store with a property. -/
def Keeps (Good : Store → Prop) (s t : Store) : Prop := s.Grows t ∧ Good t

theorem Keeps.trans {Good : Store → Prop} {u : Store} (h : s.Keeps Good t) (h' : t.Keeps Good u) :
    s.Keeps Good u := ⟨h.1.trans h'.1, h'.2⟩

theorem grows_recordName (hs : s.Sound) {name : String} (hname : name ≠ "nil") :
    s.Grows (s.recordName (symbolPointer name) name) where
  origin := hs
  sound := recordName_sound hs name
  extends_ := ⟨id, fun {p} h => by simp [recordName, Std.HashMap.contains_insertIfNew, h]⟩
  interned := id
  name := retains_insertIfNew _ _
  reachable h := by
    have hafter : after (internSymbol name) s = s.recordName (symbolPointer name) name := by
      rw [after, internSymbol, if_neg hname]
    rw [← hafter]
    exact .symbol name h

namespace Readable

variable {Good : Store → Prop} {P : Store → Pointer → Prop} (hR : Readable Good P)
include hR

theorem refl (hs : Good s) : s.Keeps Good s := ⟨.refl (hR.sound hs), hs⟩

theorem internSymbol (hs : Good s) {name : String} (h : internSymbol name s = .ok p t) :
    s.Keeps Good t ∧ P t p := by
  unfold Store.internSymbol at h
  split at h
  · cases h
    exact ⟨hR.refl hs, hR.nil s⟩
  · rename_i hname
    cases h
    have hgrows := grows_recordName (hR.sound hs) hname
    obtain ⟨hgood, hp⟩ := hR.symbol hs hgrows
    exact ⟨⟨hgrows, hgood⟩, hp⟩

theorem cons (hs : Good s) {car cdr : Pointer} (hcar : P s car) (hcdr : P s cdr)
    (h : cons car cdr s = .ok p t) : s.Keeps Good t ∧ P t p := by
  have hheld : ∀ c ∈ [car, cdr], s.Holds c := by simp [hR.holds hcar, hR.holds hcdr]
  have harity : Tag.cons.arity? = some [car, cdr].length := rfl
  obtain ⟨hput, -⟩ := internNode_put (hR.sound hs) harity hheld
  obtain ⟨hgrows, -⟩ := grows_put (hR.sound hs) harity hheld
  obtain ⟨hgood, hpair⟩ := hR.pair hs hcar hcdr
  unfold Store.cons at h
  rw [hput] at h
  cases h
  exact ⟨⟨hgrows, hgood⟩, hpair⟩

theorem list (hs : Good s) {items : List Pointer} {tail : Pointer} (hitems : ∀ item ∈ items, P s item)
    (htail : P s tail) (h : list items tail s = .ok p t) : s.Keeps Good t ∧ P t p := by
  induction items generalizing p t with
  | nil =>
    obtain ⟨rfl, rfl⟩ := pure_eq_ok.1 h
    exact ⟨hR.refl hs, htail⟩
  | cons item items ih =>
    rw [List.forall_mem_cons] at hitems
    obtain ⟨rest, u, hrest, hcons⟩ := bind_eq_ok.1 h
    obtain ⟨hkeeps, hvalue⟩ := ih hitems.2 hrest
    obtain ⟨hkeeps', hpair⟩ := hR.cons hkeeps.2 (hR.mono hkeeps.1 hitems.1) hvalue hcons
    exact ⟨hkeeps.trans hkeeps', hpair⟩

end Readable

end Store

/-! ## Readings -/

/-- What a construct that is open holds. -/
def Pending.pointers : Pending → List Pointer
  | .items ps => ps
  | .tail ps => ps
  | .close ps p => p :: ps
  | .quoted p => [p]

namespace Reading

/-- What a token can make of a reading with these open constructs, whatever is finished already. -/
inductive Effect : List Pending → (List Pointer → StoreM Reading) → Prop
  | fails {pending : List Pending} (fault : Fault) : Effect pending fun _ => throw fault
  | opens {pending : List Pending} :
      Effect pending fun finished => pure ⟨finished, .items [] :: pending⟩
  | quotes {pending : List Pending} : Effect pending fun finished => do
      let quote ← Store.internSymbol "quote"
      pure ⟨finished, .quoted quote :: pending⟩
  | dots {items : List Pointer} {outer : List Pending} :
      Effect (.items items :: outer) fun finished => pure ⟨finished, .tail items :: outer⟩
  | takes {pending : List Pending} (word : String) : Effect pending fun finished => do
      let value ← internWord word
      deliver finished value pending
  | closes {items : List Pointer} {outer : List Pending} :
      Effect (.items items :: outer) fun finished => do
        let value ← Store.list items.reverse .nil
        deliver finished value outer
  | closesTail {items : List Pointer} {tail : Pointer} {outer : List Pending} :
      Effect (.close items tail :: outer) fun finished => do
        let value ← Store.list items.reverse tail
        deliver finished value outer

/-- A step has one of these effects. Which one depends on the token and on what is open. -/
theorem exists_effect (pending : List Pending) (token : Token) :
    ∃ effect, Effect pending effect ∧ ∀ finished, step ⟨finished, pending⟩ token = effect finished := by
  cases token with
  | openParen =>
    rcases pending with _ | ⟨_ | _ | _ | _, _⟩
    case cons.close => exact ⟨_, .fails .closeExpected, fun _ => rfl⟩
    all_goals exact ⟨_, .opens, fun _ => rfl⟩
  | quoteMark =>
    rcases pending with _ | ⟨_ | _ | _ | _, _⟩
    case cons.close => exact ⟨_, .fails .closeExpected, fun _ => rfl⟩
    all_goals exact ⟨_, .quotes, fun _ => rfl⟩
  | closeParen =>
    rcases pending with _ | ⟨_ | _ | _ | _, _⟩
    case cons.items => exact ⟨_, .closes, fun _ => rfl⟩
    case cons.close => exact ⟨_, .closesTail, fun _ => rfl⟩
    all_goals exact ⟨_, .fails .unexpectedClose, fun _ => rfl⟩
  | word word =>
    rcases pending with _ | ⟨(_ | _) | _ | _ | _, _⟩
    case cons.items.cons =>
      by_cases hdot : word = "."
      · exact ⟨_, .dots, fun _ => if_pos hdot⟩
      · exact ⟨_, .takes word, fun _ => if_neg hdot⟩
    case cons.close => exact ⟨_, .fails .closeExpected, fun _ => rfl⟩
    all_goals exact ⟨_, .takes word, fun _ => rfl⟩

/-- A text may end only where nothing is open. -/
theorem eq_of_finish {reading : Reading} {exprs : List Pointer} (h : reading.finish s = .ok exprs t) :
    reading = ⟨exprs.reverse, []⟩ ∧ s = t := by
  obtain ⟨finished, pending⟩ := reading
  rcases pending with _ | ⟨_ | _ | _ | _, _⟩ <;> cases h
  rw [List.reverse_reverse]
  exact ⟨rfl, rfl⟩

/-- The pointers that a reading holds have a property. -/
structure Of (P : Store → Pointer → Prop) (s : Store) (reading : Reading) : Prop where
  finished : ∀ p ∈ reading.finished, P s p
  pending : ∀ open_ ∈ reading.pending, ∀ p ∈ open_.pointers, P s p

variable {Good : Store → Prop} {P : Store → Pointer → Prop} (hR : Store.Readable Good P)
include hR

theorem Of.mono {reading : Reading} (h : reading.Of P s) (hgrows : s.Grows t) : reading.Of P t :=
  ⟨fun p hp => hR.mono hgrows (h.finished p hp), fun o ho p hp => hR.mono hgrows (h.pending o ho p hp)⟩

theorem deliver_reads (hs : Good s) {finished : List Pointer} {value : Pointer} {pending : List Pending}
    {reading : Reading} (hreading : (⟨finished, pending⟩ : Reading).Of P s) (hvalue : P s value)
    (h : deliver finished value pending s = .ok reading t) : s.Keeps Good t ∧ reading.Of P t := by
  induction pending generalizing s value with
  | nil =>
    obtain ⟨rfl, rfl⟩ := pure_eq_ok.1 h
    exact ⟨hR.refl hs, by simpa using ⟨hvalue, hreading.finished⟩, List.forall_mem_nil _⟩
  | cons innermost outer ih =>
    obtain ⟨hfinished, hpending⟩ := hreading
    rw [List.forall_mem_cons] at hpending
    cases innermost with
    | items items =>
      obtain ⟨rfl, rfl⟩ := pure_eq_ok.1 h
      refine ⟨hR.refl hs, hfinished, List.forall_mem_cons.2 ⟨?_, hpending.2⟩⟩
      exact List.forall_mem_cons.2 ⟨hvalue, hpending.1⟩
    | tail items =>
      obtain ⟨rfl, rfl⟩ := pure_eq_ok.1 h
      refine ⟨hR.refl hs, hfinished, List.forall_mem_cons.2 ⟨?_, hpending.2⟩⟩
      exact List.forall_mem_cons.2 ⟨hvalue, hpending.1⟩
    | close items tail => cases h
    | quoted quote =>
      obtain ⟨value', u, hlist, hrest⟩ := bind_eq_ok.1 h
      have hitems : ∀ item ∈ [quote, value], P s item := by
        simpa [hvalue] using hpending.1 quote (by simp [Pending.pointers])
      obtain ⟨hkeeps, hquoted⟩ := hR.list hs hitems (hR.nil s) hlist
      have houter : (⟨finished, outer⟩ : Reading).Of P u :=
        Of.mono hR ⟨hfinished, hpending.2⟩ hkeeps.1
      obtain ⟨hkeeps', hresult⟩ := ih hkeeps.2 houter hquoted hrest
      exact ⟨hkeeps.trans hkeeps', hresult⟩

theorem internWord_reads (hs : Good s) {word : String} (h : internWord word s = .ok p t) :
    s.Keeps Good t ∧ P t p := by
  rw [internWord] at h
  cases hnumeral : numeral? word with
  | none =>
    rw [hnumeral] at h
    exact hR.internSymbol hs h
  | some numeral =>
    rw [hnumeral] at h
    dsimp only at h
    split at h
    · cases h
    · obtain ⟨rfl, rfl⟩ := pure_eq_ok.1 h
      exact ⟨hR.refl hs, hR.number s _⟩

theorem word_reads (hs : Good s) {word : String} {reading reading' : Reading} (hreading : reading.Of P s)
    (h : (do
      let value ← internWord word
      deliver reading.finished value reading.pending) s = .ok reading' t) :
    s.Keeps Good t ∧ reading'.Of P t := by
  obtain ⟨value, u, hword, hrest⟩ := bind_eq_ok.1 h
  obtain ⟨hkeeps, hvalue⟩ := internWord_reads hR hs hword
  obtain ⟨hkeeps', hresult⟩ := deliver_reads hR hkeeps.2 (hreading.mono hR hkeeps.1) hvalue hrest
  exact ⟨hkeeps.trans hkeeps', hresult⟩

/-- A list that is closed. -/
theorem close_reads (hs : Good s) {items : List Pointer} {tail : Pointer} {finished : List Pointer}
    {outer : List Pending} {reading : Reading} (hreading : (⟨finished, outer⟩ : Reading).Of P s)
    (hitems : ∀ item ∈ items, P s item) (htail : P s tail)
    (h : (do
      let value ← Store.list items.reverse tail
      deliver finished value outer) s = .ok reading t) :
    s.Keeps Good t ∧ reading.Of P t := by
  obtain ⟨value, u, hlist, hrest⟩ := bind_eq_ok.1 h
  obtain ⟨hkeeps, hvalue⟩ := hR.list hs (by simpa using hitems) htail hlist
  obtain ⟨hkeeps', hresult⟩ := deliver_reads hR hkeeps.2 (hreading.mono hR hkeeps.1) hvalue hrest
  exact ⟨hkeeps.trans hkeeps', hresult⟩

/-- A token is taken. -/
theorem step_reads (hs : Good s) {reading reading' : Reading} {token : Token}
    (hreading : reading.Of P s) (h : step reading token s = .ok reading' t) :
    s.Keeps Good t ∧ reading'.Of P t := by
  obtain ⟨finished, pending⟩ := reading
  obtain ⟨hfinished, hpending⟩ := hreading
  obtain ⟨effect, heffect, hstep⟩ := exists_effect pending token
  rw [hstep] at h
  cases heffect with
  | fails fault => cases h
  | opens =>
    obtain ⟨rfl, rfl⟩ := pure_eq_ok.1 h
    exact ⟨hR.refl hs, hfinished, List.forall_mem_cons.2 ⟨List.forall_mem_nil _, hpending⟩⟩
  | quotes =>
    obtain ⟨quote, u, hquote, hrest⟩ := bind_eq_ok.1 h
    obtain ⟨rfl, rfl⟩ := pure_eq_ok.1 hrest
    obtain ⟨hkeeps, hvalue⟩ := hR.internSymbol hs hquote
    have hreading := Of.mono hR ⟨hfinished, hpending⟩ hkeeps.1
    refine ⟨hkeeps, hreading.finished, List.forall_mem_cons.2 ⟨?_, hreading.pending⟩⟩
    simpa [Pending.pointers] using hvalue
  | dots =>
    obtain ⟨rfl, rfl⟩ := pure_eq_ok.1 h
    rw [List.forall_mem_cons] at hpending
    exact ⟨hR.refl hs, hfinished, List.forall_mem_cons.2 hpending⟩
  | takes word => exact word_reads hR hs ⟨hfinished, hpending⟩ h
  | @closes items outer =>
    rw [List.forall_mem_cons] at hpending
    have houter : (⟨finished, outer⟩ : Reading).Of P s := ⟨hfinished, hpending.2⟩
    exact close_reads hR hs houter hpending.1 (hR.nil s) h
  | @closesTail items tail outer =>
    rw [List.forall_mem_cons] at hpending
    have houter : (⟨finished, outer⟩ : Reading).Of P s := ⟨hfinished, hpending.2⟩
    have hparts := List.forall_mem_cons.1 hpending.1
    exact close_reads hR hs houter hparts.2 hparts.1 h

theorem foldlM_reads (hs : Good s) {tokens : List Token} {reading reading' : Reading}
    (hreading : reading.Of P s) (h : tokens.foldlM step reading s = .ok reading' t) :
    s.Keeps Good t ∧ reading'.Of P t := by
  induction tokens generalizing s reading with
  | nil =>
    obtain ⟨rfl, rfl⟩ := pure_eq_ok.1 h
    exact ⟨hR.refl hs, hreading⟩
  | cons token tokens ih =>
    rw [List.foldlM_cons] at h
    obtain ⟨next, u, hstep, hrest⟩ := bind_eq_ok.1 h
    obtain ⟨hkeeps, hnext⟩ := step_reads hR hs hreading hstep
    obtain ⟨hkeeps', hlast⟩ := ih hkeeps.2 hnext hrest
    exact ⟨hkeeps.trans hkeeps', hlast⟩

end Reading

/-! ## Texts -/

/-- What a text is read as has the property, and so has the store. -/
theorem read_reads {Good : Store → Prop} {P : Store → Pointer → Prop} (hR : Store.Readable Good P)
    (hs : Good s) {text : String} (h : read text s = .ok p t) : s.Keeps Good t ∧ P t p := by
  obtain ⟨exprs, u, hall, hone⟩ := bind_eq_ok.1 h
  obtain ⟨reading, u', htokens, hfinish⟩ := bind_eq_ok.1 hall
  have hempty : (⟨[], []⟩ : Reading).Of P s := ⟨List.forall_mem_nil _, List.forall_mem_nil _⟩
  obtain ⟨hkeeps, hreading⟩ := Reading.foldlM_reads hR hs hempty htokens
  obtain ⟨rfl, rfl⟩ := Reading.eq_of_finish hfinish
  rcases exprs with _ | ⟨expr, _ | ⟨_, _⟩⟩
  · cases hone
  · obtain ⟨rfl, rfl⟩ := pure_eq_ok.1 hone
    exact ⟨hkeeps, hreading.finished expr (List.mem_singleton_self expr)⟩
  · cases hone

theorem Store.empty_typed (shared : Bool) : (Store.empty shared).Typed :=
  ⟨.empty shared, fun {p cs} h => by simp [Store.empty] at h⟩

theorem Store.readable_typed : Store.Readable Typed Value where
  sound := Typed.sound
  holds := Value.holds
  mono hgrows hp := hgrows.extends_.value hp
  nil := value_nil
  number := value_number
  symbol {s name} hs hgrows := by
    refine ⟨⟨hgrows.reachable hs.reachable, fun hnode => hgrows.extends_.fitsNode (hs.node hnode)⟩, ?_, rfl⟩
    exact ⟨symbolPointer_canonical name, by simp [Store.contains, recordName]⟩
  pair {s a b} hs ha hb := by
    have hchildren : s.FitsNode .cons [a, b] := List.forall_mem_cons.2 ⟨ha, by simpa using hb⟩
    have harity : Tag.cons.arity? = some [a, b].length := rfl
    obtain ⟨hwidens, hnode⟩ := hs.put harity hchildren
    exact ⟨hwidens.typed, hnode, rfl⟩

/-- What a text is read as is a value, in a typed store. -/
theorem read_typed (hs : s.Typed) {text : String} (h : read text s = .ok p t) :
    s.Widens t ∧ t.Value p := by
  obtain ⟨⟨hgrows, htyped⟩, hvalue⟩ := read_reads Store.readable_typed hs h
  exact ⟨⟨htyped, hgrows.extends_⟩, hvalue⟩

theorem Store.Inherited.readable {P : Store → Pointer → Prop} (hP : Inherited P) :
    Readable Sound P where
  sound := id
  holds := hP.holds
  mono := hP.mono
  nil := hP.nil
  number := hP.number
  symbol {s name} _ hgrows := by
    have hheld : (s.recordName (symbolPointer name) name).Holds (symbolPointer name) :=
      ⟨symbolPointer_canonical name, by simp [Store.contains, recordName]⟩
    exact ⟨hgrows.sound, hP.leaf hheld rfl (fun h => by cases h)⟩
  pair {s a b} hs ha hb := by
    have hchildren : ∀ c ∈ [a, b], P s c := by simp [ha, hb]
    have harity : Tag.cons.arity? = some [a, b].length := rfl
    obtain ⟨hgrows, hpair⟩ := hP.grows_put hs harity hchildren
    exact ⟨hgrows.sound, hpair⟩

/-- What a text is read as has what is inherited. -/
theorem read_inherits {P : Store → Pointer → Prop} (hP : Store.Inherited P) (hs : s.Sound)
    {text : String} (h : read text s = .ok p t) : s.Grows t ∧ P t p := by
  obtain ⟨hkeeps, hp⟩ := read_reads hP.readable hs h
  exact ⟨hkeeps.1, hp⟩

end FieldLisp
