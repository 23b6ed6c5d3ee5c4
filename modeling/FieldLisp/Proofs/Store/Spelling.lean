import FieldLisp.Proofs.Store.Requests

/-!
# Writing as a program

A pointer is written by taking apart what stands below it, one request after the other:

* `Program.spell`: the requests that writing a pointer asks for;
* `Program.run_spell`: without a break they come to the written form;
* `Program.within_spell`: they are about canonical pointers and change nothing;
* `Store.renderWithin_fuel`: the bound of the recursion does not matter, if it is large enough.
-/

namespace FieldLisp

open Store

namespace Program

variable {α β : Type}

def ofExcept : Except Fault α → Program α
  | .ok a => done a
  | .error fault => fail fault

mutual

/-- The written form of a pointer, going down at most `fuel` levels. -/
def spell : ℕ → Pointer → Program String
  | 0, _ => fail .cyclicContent
  | fuel + 1, p =>
    match p.tag with
    | .nil => pure "nil"
    | .number => do
      let value ← ofExcept p.payload
      pure (toString (Field.toSigned value))
    | .symbol => request (.name p)
    | .error => do
      let value ← ofExcept p.payload
      match ErrorCode.ofValue? value with
      | some code => pure ("<ERR " ++ code.name ++ ">")
      | none => fail (.unknownErrorCode value)
    | .cons => do
      let parts ← spellItems fuel p
      pure ("(" ++ " ".intercalate parts ++ ")")
    | .function => do
      match ← request (.children p none) with
      | parameter :: body :: _ =>
        let parameters ←
          if parameter = Builtin.noParameterPointer then pure ""
          else spell fuel parameter
        let body ← spell fuel body
        pure ("<FUN (" ++ parameters ++ ") " ++ body ++ ">")
      | _ => fail (.notANode p (some 3))
    | .thunk => do
      match ← request (.children p none) with
      | value :: _ =>
        let value ← spell fuel value
        pure ("<THUNK " ++ value ++ ">")
      | _ => fail (.notANode p (some 2))
    | .commitment => do
      let value ← ofExcept p.payload
      pure ("<COMM " ++ hexadecimal value ++ ">")
    | .env | .recEnv => do
      let bindings ← spellBindings fuel p
      pure ("<ENV " ++ " ".intercalate bindings ++ ">")
    | tag => pure ("<CONT " ++ tag.name ++ ">")

/-- The written forms of the items of a list, and of an improper end after a dot. -/
def spellItems : ℕ → Pointer → Program (List String)
  | 0, _ => fail .cyclicContent
  | fuel + 1, p =>
    match p.tag with
    | .cons => do
      match ← request (.children p none) with
      | [car, cdr] =>
        let item ← spell fuel car
        let items ← spellItems fuel cdr
        pure (item :: items)
      | _ => fail (.notANode p (some 2))
    | .nil => pure []
    | _ => do
      let tail ← spell fuel p
      pure [".", tail]

/-- The written forms of the bindings of an environment, innermost first. -/
def spellBindings : ℕ → Pointer → Program (List String)
  | 0, _ => fail .cyclicContent
  | fuel + 1, p =>
    if p.tag.isEnv then do
      match ← request (.children p none) with
      | [var, val, parent] =>
        let var ← spell fuel var
        let val ← spell fuel val
        let bindings ← spellBindings fuel parent
        pure (("(" ++ var ++ " . " ++ val ++ ")") :: bindings)
      | _ => fail (.notANode p (some 3))
    else pure []

end

/-! ## Without a break -/

/-- A program that answers a question and leaves the store as it is. -/
def Answers (P : Program α) (question : Store → Except Fault α) : Prop := P.run = Store.ask question

namespace Answers

theorem pure (a : α) : Answers (Pure.pure a) fun _ => .ok a := rfl

theorem fail (fault : Fault) : Answers (.fail fault : Program α) fun _ => .error fault := rfl

theorem ofExcept (x : Except Fault α) : Answers (ofExcept x) fun _ => x := by
  cases x <;> rfl

theorem children (p : Pointer) (arity : Option Int) :
    Answers (request (.children p arity)) fun s => s.fetch p arity := run_request _

theorem name (p : Pointer) : Answers (request (.name p)) fun s => s.nameOf p := run_request _

theorem bind {P : Program α} {question : Store → Except Fault α} {f : α → Program β}
    {next : α → Store → Except Fault β} (h : Answers P question) (hf : ∀ a, Answers (f a) (next a)) :
    Answers (P >>= f) fun s => question s >>= fun a => next a s := by
  funext s
  rw [run_bind, h, funext hf]
  unfold Store.ask
  dsimp only
  change EStateM.bind _ _ s = _
  unfold EStateM.bind
  dsimp only
  cases question s <;> rfl

end Answers

theorem spell_answers (fuel : ℕ) :
    (∀ p, Answers (spell fuel p) fun s => s.renderWithin fuel p) ∧
    (∀ p, Answers (spellItems fuel p) fun s => s.renderItems fuel p) ∧
    ∀ p, Answers (spellBindings fuel p) fun s => s.renderBindings fuel p := by
  induction fuel with
  | zero =>
    refine ⟨fun p => ?_, fun p => ?_, fun p => ?_⟩
    · unfold spell renderWithin
      exact .fail _
    · unfold spellItems renderItems
      exact .fail _
    · unfold spellBindings renderBindings
      exact .fail _
  | succ fuel ih =>
    obtain ⟨within, items, bindings⟩ := ih
    refine ⟨fun p => ?_, fun p => ?_, fun p => ?_⟩
    · unfold spell renderWithin
      cases p.tag <;> dsimp only
      case symbol => exact .name p
      case number | commitment =>
        apply Answers.bind (.ofExcept p.payload)
        intro value
        exact .pure _
      case error =>
        apply Answers.bind (.ofExcept p.payload)
        intro value
        cases ErrorCode.ofValue? value with
        | some code => exact .pure _
        | none => exact .fail _
      case cons =>
        apply Answers.bind (items p)
        intro parts
        exact .pure _
      case function =>
        apply Answers.bind (.children p none)
        intro children
        rcases children with _ | ⟨parameter, _ | ⟨body, rest⟩⟩
        · exact .fail _
        · exact .fail _
        · dsimp only
          by_cases hparameter : parameter = Builtin.noParameterPointer
          · simp only [if_pos hparameter]
            apply Answers.bind (.pure "")
            intro parameters
            apply Answers.bind (within body)
            intro text
            exact .pure _
          · simp only [if_neg hparameter]
            apply Answers.bind (within parameter)
            intro parameters
            apply Answers.bind (within body)
            intro text
            exact .pure _
      case thunk =>
        apply Answers.bind (.children p none)
        intro children
        rcases children with _ | ⟨value, rest⟩
        · exact .fail _
        · apply Answers.bind (within value)
          intro text
          exact .pure _
      case env | recEnv =>
        apply Answers.bind (bindings p)
        intro texts
        exact .pure _
      all_goals exact .pure _
    · unfold spellItems renderItems
      cases p.tag <;> dsimp only
      case nil => exact .pure _
      case cons =>
        apply Answers.bind (.children p none)
        intro children
        rcases children with _ | ⟨car, _ | ⟨cdr, _ | ⟨_, _⟩⟩⟩
        · exact .fail _
        · exact .fail _
        · apply Answers.bind (within car)
          intro item
          apply Answers.bind (items cdr)
          intro rest
          exact .pure _
        · exact .fail _
      all_goals
        apply Answers.bind (within p)
        intro tail
        exact .pure _
    · unfold spellBindings renderBindings
      by_cases henv : p.tag.isEnv = true
      · simp only [if_pos henv]
        apply Answers.bind (.children p none)
        intro children
        rcases children with _ | ⟨var, _ | ⟨val, _ | ⟨parent, _ | ⟨_, _⟩⟩⟩⟩
        · exact .fail _
        · exact .fail _
        · exact .fail _
        · apply Answers.bind (within var)
          intro name
          apply Answers.bind (within val)
          intro value
          apply Answers.bind (bindings parent)
          intro rest
          exact .pure _
        · exact .fail _
      · simp only [if_neg henv]
        exact .pure _

/-- Without a break, a pointer is written as the store writes it. -/
theorem run_spell (fuel : ℕ) (p : Pointer) :
    (spell fuel p).run = Store.ask fun s => s.renderWithin fuel p := (spell_answers fuel).1 p

/-! ## What is asked for -/

end Program

namespace Request

variable {r : Request} {s t : Store}

/-- A canonical pointer is looked up, and nothing else. -/
def Looks : Request → Prop
  | require p | children p _ => p.Canonical
  | name p => p.Canonical ∧ p.tag = .symbol
  | node _ _ | symbol _ | write _ => False

theorem Looks.canonical (h : r.Looks) : r.Canonical := by
  cases r with
  | node tag cs => exact h.elim
  | symbol text => exact h.elim
  | write p => exact h.elim
  | _ => exact h

theorem Looks.nameless (h : r.Looks) : r.Nameless := by
  cases r with
  | symbol text => exact h.elim
  | _ => trivial

theorem Looks.after_eq (h : r.Looks) (s : Store) : after r.perform s = s := by
  cases r with
  | node tag cs => exact h.elim
  | symbol text => exact h.elim
  | write p => exact h.elim
  | _ => exact after_ask _ s

/-- What is looked up in a store is the same in all that it becomes. -/
theorem Looks.answer_eq (h : r.Looks) (hretains : s.Retains t) (hs : s.Sound)
    (hmisses : ¬Misses (answer r.perform s)) : answer r.perform t = answer r.perform s := by
  cases r with
  | node tag cs => exact h.elim
  | symbol text => exact h.elim
  | write p => exact h.elim
  | require p =>
    rw [answer_require] at hmisses ⊢
    rw [answer_require]
    by_cases hp : s.contains p = true
    · rw [if_pos hp, if_pos (hretains.extends_.contains hp)]
    · rw [if_neg hp] at hmisses
      rw [Bool.not_eq_true] at hp
      have hreported := reported_dangling h (not_error_of_not_contains hp)
      exact absurd ⟨p, congrArg Except.error hreported⟩ hmisses
  | children p arity =>
    rw [answer_children] at hmisses ⊢
    rw [answer_children]
    rcases fetch_cases h s arity with ⟨cs, hcs, -⟩ | ⟨fault, hfetch⟩ | hmissed
    · exact hretains.fetch_eq hs (contains_of_getElem? hcs) arity
    · exact (hfetch t).trans (hfetch s).symm
    · exact absurd hmissed hmisses
  | name p =>
    rw [answer_name] at hmisses ⊢
    rw [answer_name]
    rcases nameOf_cases h.1 h.2 s with ⟨text, htext, -⟩ | hmissed
    · unfold nameOf
      rw [htext, hretains.name htext]
    · exact absurd hmissed hmisses

end Request

namespace Program

/-- A program that only looks up. -/
abbrev Looks {α : Type} (P : Program α) : Prop := P.Within Request.Looks fun _ => True

theorem looks_ofExcept {α : Type} (x : Except Fault α) : (ofExcept x).Looks := by
  cases x <;> trivial

/-- A node whose children are looked up first, by number. -/
theorem looks_children {α : Type} {p : Pointer} {next : List Pointer → Program α} (hp : p.Canonical)
    (hnext : ∀ cs, (∀ c ∈ cs, c.Canonical) → (next cs).Looks) :
    (request (.children p none) >>= next).Looks := ⟨hp, fun cs hcs => hnext cs hcs⟩

theorem looks_spell (fuel : ℕ) :
    (∀ p, p.Canonical → (spell fuel p).Looks) ∧ (∀ p, p.Canonical → (spellItems fuel p).Looks) ∧
      ∀ p, p.Canonical → (spellBindings fuel p).Looks := by
  induction fuel with
  | zero =>
    refine ⟨fun p _ => ?_, fun p _ => ?_, fun p _ => ?_⟩
    · unfold spell
      trivial
    · unfold spellItems
      trivial
    · unfold spellBindings
      trivial
  | succ fuel ih =>
    obtain ⟨within, items, bindings⟩ := ih
    refine ⟨fun p hp => ?_, fun p hp => ?_, fun p hp => ?_⟩
    · unfold spell
      cases htag : p.tag <;> dsimp only
      case symbol => exact ⟨⟨hp, htag⟩, fun _ _ => trivial⟩
      case number | commitment =>
        apply (looks_ofExcept p.payload).bind
        intro value _
        trivial
      case error =>
        apply (looks_ofExcept p.payload).bind
        intro value _
        cases ErrorCode.ofValue? value <;> trivial
      case cons =>
        apply (items p hp).bind
        intro parts _
        trivial
      case function =>
        apply looks_children hp
        intro cs hcs
        rcases cs with _ | ⟨parameter, _ | ⟨body, rest⟩⟩
        · trivial
        · trivial
        · have hparameter : (spell fuel parameter).Looks := within parameter (hcs parameter (by simp))
          have hbody : (spell fuel body).Looks := within body (hcs body (by simp))
          dsimp only
          split_ifs
          · apply hbody.bind
            intro text _
            trivial
          · apply hparameter.bind
            intro parameters _
            apply hbody.bind
            intro text _
            trivial
      case thunk =>
        apply looks_children hp
        intro cs hcs
        rcases cs with _ | ⟨value, rest⟩
        · trivial
        · apply (within value (hcs value (by simp))).bind
          intro text _
          trivial
      case env | recEnv =>
        apply (bindings p hp).bind
        intro texts _
        trivial
      all_goals trivial
    · unfold spellItems
      cases p.tag <;> dsimp only
      case nil => trivial
      case cons =>
        apply looks_children hp
        intro cs hcs
        rcases cs with _ | ⟨car, _ | ⟨cdr, _ | ⟨_, _⟩⟩⟩
        · trivial
        · trivial
        · apply (within car (hcs car (by simp))).bind
          intro item _
          apply (items cdr (hcs cdr (by simp))).bind
          intro rest _
          trivial
        · trivial
      all_goals
        apply (within p hp).bind
        intro tail _
        trivial
    · unfold spellBindings
      split_ifs
      · apply looks_children hp
        intro cs hcs
        rcases cs with _ | ⟨var, _ | ⟨val, _ | ⟨parent, _ | ⟨_, _⟩⟩⟩⟩
        · trivial
        · trivial
        · trivial
        · apply (within var (hcs var (by simp))).bind
          intro name _
          apply (within val (hcs val (by simp))).bind
          intro value _
          apply (bindings parent (hcs parent (by simp))).bind
          intro rest _
          trivial
        · trivial
      · trivial

end Program

/-! ## The bound of the recursion -/

namespace Store

variable {s t : Store} {p : Pointer} {fuel : ℕ}

/-- A store writes the same with all bounds that are large enough. -/
theorem renderWithin_fuel (hs : Reachable s) (hp : p.Canonical)
    (hfuel : 3 * s.nodes.size + 3 ≤ fuel) : s.renderWithin fuel p = s.render p := by
  unfold render
  cases hcontains : s.contains p with
  | true =>
    obtain ⟨level, hlevel⟩ := reachable_leveled hs
    have hsound := reachable_sound hs
    have htwins : s.Twins s level level := {
      sound := hsound
      sound' := hsound
      leveled := hlevel
      leveled' := hlevel
      node := fun h h' => Option.some.inj (h.symm.trans h')
      name := fun h h' => Option.some.inj (h.symm.trans h') }
    have hbounded := hlevel.bounded p
    have hheld : s.Holds p := ⟨hp, hcontains⟩
    exact (htwins.renderWithin_eq fuel).1 _ p hheld hheld (by omega) (by omega)
  | false =>
    obtain ⟨fuel, rfl⟩ := Nat.exists_eq_add_of_le' (by omega : 2 ≤ fuel)
    have hbound : 3 * s.nodes.size + 3 = 3 * s.nodes.size + 1 + 2 := by omega
    rw [hbound]
    rcases renderWithin_of_not_contains hp hcontains fuel with h | h
    · rcases renderWithin_of_not_contains hp hcontains (3 * s.nodes.size + 1) with h' | h'
      · rw [h, h']
      · exact h' s fuel
    · exact (h s _).symm

theorem nodes_size_le (h : s.Retains t) : s.nodes.size ≤ t.nodes.size := by
  rw [← Std.HashMap.length_keys, ← Std.HashMap.length_keys]
  have hnodup : s.nodes.keys.Nodup := Std.HashMap.nodup_keys
  apply (hnodup.subperm _).length_le
  intro p hp
  rw [Std.HashMap.mem_keys, Std.HashMap.mem_iff_isSome_getElem?, Option.isSome_iff_exists] at hp ⊢
  obtain ⟨cs, hcs⟩ := hp
  exact ⟨cs, h.node hcs⟩

end Store

end FieldLisp
