import FieldLisp.Proofs.Store.Distinct
import FieldLisp.Proofs.Store.Words

/-!
# What is written can be read back

Lists, numbers, nil and symbols with plain names have a written form that is read as the same pointer,
in every store. Nothing is asked of the hash: a store keeps the children that it takes in first, so the
written form shows children that the pointer is the hash of.

* `Store.Legible`: trees of pairs over numbers, nil and symbols with plain names;
* `ReadAs`, `ItemsReadAs`: tokens that are read as a pointer wherever an expression is awaited, and as
  the rest of a list that is being read;
* `Store.Legible.written`: a legible pointer is written in a form that is cut into such tokens, by
  induction on the tree;
* `Store.read_render`: the text is read as the pointer.
-/

namespace FieldLisp

open EStateM (bind_of_ok)

namespace Store

variable {s t u v : Store} {p : Pointer}

/-! ## Legible content -/

/-- A name that is one word, is no numeral, and is not taken for a dot. -/
structure PlainName (name : String) : Prop where
  word : Word name
  notNumeral : numeral? name = none
  notDot : name ≠ "."

/-- A tree of pairs over nil, numbers, and symbols with plain names. -/
inductive Legible (s : Store) : Pointer → Prop
  | nil : Legible s .nil
  | number (n : ℤ) : Legible s (.number n)
  | symbol {p : Pointer} {name : String} (known : s.names[p]? = some name) (plain : PlainName name) :
      Legible s p
  | cons {p car cdr : Pointer} (tag : p.tag = .cons) (known : s.nodes[p]? = some [car, cdr])
      (first : Legible s car) (rest : Legible s cdr) : Legible s p

/-- The name of nil is not kept. -/
theorem name_ne_nil (h : Reachable s) {name : String} (hname : s.names[p]? = some name) :
    name ≠ "nil" := by
  obtain ⟨shared, hbuilt⟩ := reachable_iff_builds.1 h
  clear h
  induction hbuilt with
  | refl =>
    rw [empty, Std.HashMap.ofList_eq_insertMany_empty] at hname
    rcases mem_of_getElem?_insertMany hname with hname | hmem
    · simp at hname
    · rw [Builtin.table, List.mem_map] at hmem
      obtain ⟨builtin, hbuiltin, hentry⟩ := hmem
      obtain ⟨-, rfl⟩ := Prod.mk.inj hentry
      rintro rfl
      revert hbuiltin
      decide
  | tail _ hstep ih =>
    cases hstep with
    | node canonical check fresh =>
      rw [record_of_fresh fresh] at hname
      exact ih hname
    | name notNil =>
      rcases getElem?_insertIfNew_cases hname with hname | ⟨-, rfl⟩
      · exact ih hname
      · exact notNil

/-! ## Taking in what was read -/

/-- A store that was built from another one, and holds a pointer. -/
structure Has (s : Store) (p : Pointer) (t : Store) : Prop where
  reachable : Reachable t
  retains : s.Retains t
  holds : t.Holds p

theorem Has.trans {q : Pointer} (h : s.Has p t) (h' : t.Has q u) : s.Has q u :=
  ⟨h'.reachable, h.retains.trans h'.retains, h'.holds⟩

theorem has_internNode (hs : Reachable s) {tag : Tag} {cs : List Pointer}
    (htag : tag.arity? = some cs.length) (hcs : ∀ c ∈ cs, s.Holds c) :
    ∃ t, internNode tag cs s = .ok (nodePointer tag cs) t ∧ s.Takes tag cs t ∧
      s.Has (nodePointer tag cs) t := by
  obtain ⟨t, ht, htakes⟩ := internNode_takes (reachable_sound hs) htag hcs
  have hbuilds := builds_internNode (reachable_sound hs) tag fun c hc => (hcs c hc).canonical
  have hafter : after (internNode tag cs) s = t := by rw [after, ht]
  rw [hafter] at hbuilds
  exact ⟨t, ht, htakes, hbuilds.reachable hs, hbuilds.retains, htakes.holds⟩

theorem has_internSymbol (hs : Reachable s) {name : String} (hname : name ≠ "nil") :
    ∃ t, internSymbol name s = .ok (symbolPointer name) t ∧ s.Has (symbolPointer name) t := by
  have hbuilds := builds_internSymbol s name
  have hrun : internSymbol name s = .ok (symbolPointer name) (s.recordName (symbolPointer name) name) := by
    rw [internSymbol, if_neg hname]
  have hafter : after (internSymbol name) s = s.recordName (symbolPointer name) name := by
    rw [after, hrun]
  rw [hafter] at hbuilds
  refine ⟨_, hrun, hbuilds.reachable hs, hbuilds.retains, symbolPointer_canonical name, ?_⟩
  simp [contains, recordName, Std.HashMap.contains_insertIfNew]

/-- A list is built from its end. -/
theorem list_append (xs ys : List Pointer) (tail : Pointer) :
    Store.list (xs ++ ys) tail = Store.list ys tail >>= Store.list xs := by
  induction xs with
  | nil =>
    change Store.list ys tail = Store.list ys tail >>= fun rest => pure rest
    rw [bind_pure]
  | cons x xs ih =>
    change (Store.list (xs ++ ys) tail >>= Store.cons x) = _
    rw [ih, bind_assoc]
    rfl

end Store

/-! ## Reading tokens -/

namespace Reading

open Store (Reachable)

variable {u : Store} {p q : Pointer} {tokens rest : List Token}

/-- An expression may come next. -/
def Awaits (pending : List Pending) : Prop :=
  ∀ items tail outer, pending ≠ .close items tail :: outer

/-- Wherever an expression may come, the tokens are read as the pointer. -/
def ReadAs (p : Pointer) (tokens : List Token) : Prop :=
  ∀ u, Reachable u → ∃ v, u.Has p v ∧ ∀ finished pending, Awaits pending →
    tokens.foldlM step ⟨finished, pending⟩ u = deliver finished p pending v

/-- In a list that is being read, the tokens up to the closing parenthesis are read as the rest of the
list. What is not a list comes after a dot, so it needs an item before it. -/
def ItemsReadAs (p : Pointer) (tokens : List Token) : Prop :=
  ∀ u, Reachable u → ∃ v, u.Has p v ∧ ∀ finished items outer,
    (p.tag = .cons ∨ p.tag = .nil ∨ items ≠ []) →
    (tokens ++ [Token.closeParen]).foldlM step ⟨finished, .items items :: outer⟩ u =
      (Store.list items.reverse p >>= fun value => deliver finished value outer) v

theorem step_word {word : String} (hword : word ≠ ".") {finished : List Pointer}
    {pending : List Pending} (h : Awaits pending) :
    step ⟨finished, pending⟩ (.word word) =
      internWord word >>= fun value => deliver finished value pending := by
  rcases pending with _ | ⟨_ | _ | _ | _, outer⟩
  · rfl
  · rename_i items
    cases items with
    | nil => rfl
    | cons item items => exact if_neg hword
  · rfl
  · exact absurd rfl (h _ _ _)
  · rfl

theorem step_openParen {finished : List Pointer} {pending : List Pending} (h : Awaits pending) :
    step ⟨finished, pending⟩ .openParen = pure ⟨finished, .items [] :: pending⟩ := by
  rcases pending with _ | ⟨_ | _ | _ | _, outer⟩
  · rfl
  · rfl
  · rfl
  · exact absurd rfl (h _ _ _)
  · rfl

/-- A word that is taken in as a pointer is read as the pointer. -/
theorem readAs_word {word : String} (hword : word ≠ ".")
    (h : ∀ u, Reachable u → ∃ v, internWord word u = .ok p v ∧ u.Has p v) :
    ReadAs p [.word word] := by
  intro u hu
  obtain ⟨v, hv, hhas⟩ := h u hu
  refine ⟨v, hhas, fun finished pending hawaits => ?_⟩
  rw [List.foldlM_cons, step_word hword hawaits, bind_assoc]
  simp only [List.foldlM_nil, bind_pure]
  exact bind_of_ok hv _

theorem itemsReadAs_nil : ItemsReadAs .nil [] := by
  intro u hu
  refine ⟨u, ⟨hu, .refl u, u.holds_nil⟩, fun finished items outer _ => ?_⟩
  change (step _ _ >>= fun reading => pure reading) u = _
  rw [bind_pure]
  rfl

/-- What stands after a dot. -/
theorem ReadAs.tail (h : ReadAs p tokens) (hcons : p.tag ≠ .cons) (hnil : p.tag ≠ .nil) :
    ItemsReadAs p (.word "." :: tokens) := by
  intro u hu
  obtain ⟨v, hhas, hread⟩ := h u hu
  refine ⟨v, hhas, fun finished items outer hitems => ?_⟩
  obtain ⟨item, items, rfl⟩ := List.exists_cons_of_ne_nil ((hitems.resolve_left hcons).resolve_left hnil)
  rw [List.cons_append, List.foldlM_cons]
  change ((tokens ++ [Token.closeParen]).foldlM step ⟨finished, .tail (item :: items) :: outer⟩) u = _
  rw [List.foldlM_append]
  rw [bind_of_ok (hread finished (.tail (item :: items) :: outer) fun _ _ _ h => by cases h) _]
  change (step _ _ >>= fun reading => pure reading) v = _
  rw [bind_pure]
  rfl

/-- The first item, and the rest of the list. -/
theorem ReadAs.cons {car cdr : Pointer} (hcar : ReadAs car tokens) (hcdr : ItemsReadAs cdr rest) :
    ItemsReadAs (Store.nodePointer .cons [car, cdr]) (tokens ++ rest) := by
  intro u hu
  obtain ⟨v, hfirst, hread⟩ := hcar u hu
  obtain ⟨w, hrest, hread'⟩ := hcdr v hfirst.reachable
  have hheld (c : Pointer) (hc : c ∈ [car, cdr]) : w.Holds c := by
    simp only [List.mem_cons, List.not_mem_nil, or_false] at hc
    rcases hc with rfl | rfl
    · exact hrest.retains.extends_.holds hfirst.holds
    · exact hrest.holds
  have harity : Tag.cons.arity? = some [car, cdr].length := rfl
  obtain ⟨x, hx, -, hnode⟩ := Store.has_internNode hrest.reachable harity hheld
  refine ⟨x, (hfirst.trans hrest).trans hnode, fun finished items outer _ => ?_⟩
  have hitem : tokens.foldlM step ⟨finished, .items items :: outer⟩ u =
      .ok ⟨finished, .items (car :: items) :: outer⟩ v := hread _ _ fun _ _ _ h => by cases h
  -- The item is linked to the rest before the items in front of it are.
  have hlink : Store.list [car] cdr w = .ok (Store.nodePointer .cons [car, cdr]) x := hx
  rw [List.append_assoc, List.foldlM_append, bind_of_ok hitem,
    hread' finished (car :: items) outer (.inr (.inr (List.cons_ne_nil _ _))), List.reverse_cons,
    Store.list_append, bind_assoc]
  exact bind_of_ok hlink _

/-- A list in parentheses. -/
theorem ItemsReadAs.list (h : ItemsReadAs p tokens) (hp : p.tag = .cons) :
    ReadAs p (.openParen :: (tokens ++ [.closeParen])) := by
  intro u hu
  obtain ⟨v, hhas, hread⟩ := h u hu
  refine ⟨v, hhas, fun finished pending hawaits => ?_⟩
  rw [List.foldlM_cons, step_openParen hawaits, pure_bind, hread finished [] pending (.inl hp)]
  exact bind_of_ok rfl _

/-! ## Words for nil, numbers and symbols -/

theorem readAs_nil : ReadAs .nil [.word "nil"] :=
  readAs_word (by decide) fun u hu => ⟨u, rfl, hu, .refl u, u.holds_nil⟩

theorem readAs_symbol {name : String} (hplain : Store.PlainName name) (hnil : name ≠ "nil") :
    ReadAs (symbolPointer name) [.word name] := by
  apply readAs_word hplain.notDot
  intro u hu
  rw [internWord, hplain.notNumeral]
  exact Store.has_internSymbol hu hnil

/-- A number is written as a numeral that is short enough to be read. -/
theorem readAs_number {n : ℤ} (hn : n.natAbs < 10 ^ numeralLimit) :
    ReadAs (.number n) [.word (toString n)] := by
  obtain ⟨negative, digits, hnumeral, hvalue, hlength⟩ := numeral?_toString n
  have hdot : toString n ≠ "." := by
    intro h
    have hnone : numeral? "." = none := by decide
    rw [h, hnone] at hnumeral
    cases hnumeral
  have hshort : ¬numeralLimit < digits.length := by
    rw [hlength, not_lt, Nat.length_toDigits_le_iff (by decide) (by decide)]
    exact hn
  apply readAs_word hdot
  intro u hu
  rw [internWord, hnumeral]
  dsimp only
  rw [if_neg hshort, hvalue]
  exact ⟨u, rfl, hu, .refl u, u.holds_immediate (Pointer.immediate_canonical _ _) rfl⟩

end Reading

/-! ## Written forms -/

namespace Store

open Reading (ReadAs ItemsReadAs)

variable {s : Store} {p : Pointer}

/-- A form that is cut into tokens which are read as the pointer. -/
def Written (p : Pointer) (form : Except Fault String) : Prop :=
  ∃ text tokens, form = .ok text ∧ Spells text.toList tokens ∧ ReadAs p tokens

/-- Forms that are cut into tokens which are read as the rest of a list. -/
def ItemsWritten (p : Pointer) (forms : Except Fault (List String)) : Prop :=
  ∃ parts : List (String × List Token), forms = .ok (parts.map Prod.fst) ∧
    (∀ part ∈ parts, Spells part.1.toList part.2) ∧ (p.tag = .cons → parts ≠ []) ∧
    ItemsReadAs p (parts.flatMap Prod.snd)

theorem Written.of_word {word : String} (hword : Word word) (h : ReadAs p [.word word]) :
    Written p (.ok word) := ⟨word, _, rfl, Token.scanWord_word hword, h⟩

/-- What ends a list improperly is written after a dot. -/
theorem Written.tail {form : Except Fault String} (h : Written p form) (hcons : p.tag ≠ .cons)
    (hnil : p.tag ≠ .nil) : ItemsWritten p (form >>= fun tail => .ok [".", tail]) := by
  obtain ⟨text, tokens, rfl, hspells, hread⟩ := h
  have hdot : Spells ".".toList [.word "."] := Token.scanWord_word (by decide)
  refine ⟨[(".", [.word "."]), (text, tokens)], rfl, ?_, fun h => absurd h hcons, ?_⟩
  · intro part hpart
    simp only [List.mem_cons, List.not_mem_nil, or_false] at hpart
    rcases hpart with rfl | rfl
    · exact hdot
    · exact hspells
  · simpa using hread.tail hcons hnil

/-- A list is written in parentheses. -/
theorem ItemsWritten.list {forms : Except Fault (List String)} (h : ItemsWritten p forms)
    (hp : p.tag = .cons) :
    Written p (forms >>= fun parts => .ok ("(" ++ " ".intercalate parts ++ ")")) := by
  obtain ⟨parts, rfl, hspells, hne, hread⟩ := h
  refine ⟨_, _, rfl, spells_parentheses (spells_parts (hne hp) hspells), hread.list hp⟩

theorem written_nil {fuel : ℕ} (hfuel : 0 < fuel) : Written .nil (s.renderWithin fuel .nil) := by
  obtain ⟨fuel, rfl⟩ := Nat.exists_eq_add_one_of_ne_zero hfuel.ne'
  exact .of_word (by decide) Reading.readAs_nil

theorem written_number {fuel : ℕ} (hfuel : 0 < fuel) (n : ℤ) :
    Written (.number n) (s.renderWithin fuel (.number n)) := by
  obtain ⟨fuel, rfl⟩ := Nat.exists_eq_add_one_of_ne_zero hfuel.ne'
  have hcanonical := Field.reduce_canonical n
  set value := Field.toSigned (Field.reduce n) with hvalue
  have hclass : Field.reduce value = Field.reduce n := by
    rw [hvalue, Field.toSigned]
    split
    · unfold Field.reduce
      rw [Int.sub_emod_right, Int.emod_emod]
    · exact Field.reduce_eq_self hcanonical
  have hsame : Pointer.number n = .number value := by
    rw [Pointer.number, Pointer.immediate, ← hclass]
    rfl
  have hbound : value.natAbs < 10 ^ 20 := by
    simp only [Field.Canonical, Field.order] at hcanonical
    rw [hvalue, Field.toSigned, Field.order]
    split <;> omega
  have hshort : value.natAbs < 10 ^ numeralLimit :=
    hbound.trans_le (Nat.pow_le_pow_right (by decide) (by decide))
  have hform : s.renderWithin (fuel + 1) (.number n) = .ok (toString value) := rfl
  rw [hform, hsame]
  exact .of_word (word_toString value) (Reading.readAs_number hshort)

theorem written_symbol (hs : Reachable s) {name : String} (hname : s.names[p]? = some name)
    (hplain : PlainName name) {fuel : ℕ} (hfuel : 0 < fuel) : Written p (s.renderWithin fuel p) := by
  obtain ⟨fuel, rfl⟩ := Nat.exists_eq_add_one_of_ne_zero hfuel.ne'
  obtain rfl := (reachable_indexed hs).name hname
  have hform : s.renderWithin (fuel + 1) (symbolPointer name) = .ok name := by
    unfold renderWithin
    change s.nameOf (symbolPointer name) = _
    rw [nameOf, hname]
  rw [hform]
  exact .of_word hplain.word (Reading.readAs_symbol hplain (name_ne_nil hs hname))

/-- A legible pointer is written in a form that is read as it, if the bound is large enough. -/
theorem Legible.written {level : Pointer → ℕ} (hs : Reachable s) (hlevel : s.Leveled level)
    (h : s.Legible p) :
    (∀ fuel, 3 * level p + 1 ≤ fuel → Written p (s.renderWithin fuel p)) ∧
    ∀ fuel, 3 * level p + (if p.tag = .cons then 0 else 2) ≤ fuel → 0 < fuel →
      ItemsWritten p (s.renderItems fuel p) := by
  induction h with
  | nil =>
    refine ⟨fun fuel hfuel => written_nil (by omega), fun fuel _ hpositive => ?_⟩
    obtain ⟨fuel, rfl⟩ := Nat.exists_eq_add_one_of_ne_zero hpositive.ne'
    have hcons : Pointer.nil.tag ≠ .cons := by decide
    exact ⟨[], rfl, by simp, fun h => absurd h hcons, Reading.itemsReadAs_nil⟩
  | number n =>
    refine ⟨fun fuel hfuel => written_number (by omega) n, fun fuel hfuel hpositive => ?_⟩
    obtain ⟨fuel, rfl⟩ := Nat.exists_eq_add_one_of_ne_zero hpositive.ne'
    have hpositive : 0 < fuel := by
      rw [if_neg Tag.noConfusion] at hfuel
      omega
    exact (written_number hpositive n).tail Tag.noConfusion Tag.noConfusion
  | @symbol p name known plain =>
    have htag : p.tag = .symbol := by rw [(reachable_indexed hs).name known]; rfl
    refine ⟨fun fuel hfuel => written_symbol hs known plain (by omega), fun fuel hfuel hpositive => ?_⟩
    obtain ⟨fuel, rfl⟩ := Nat.exists_eq_add_one_of_ne_zero hpositive.ne'
    have hpositive : 0 < fuel := by
      rw [if_neg (by rw [htag]; decide)] at hfuel
      omega
    unfold renderItems
    rw [htag]
    exact (written_symbol hs known plain hpositive).tail (by rw [htag]; decide) (by rw [htag]; decide)
  | @cons p car cdr tag known _ _ first rest =>
    have hfirst : level car < level p := hlevel.below known car (by simp)
    have hrest : level cdr < level p := hlevel.below known cdr (by simp)
    have hpointer : p = nodePointer .cons [car, cdr] := tag ▸ ((reachable_sound hs).node known).2.1
    have hfetch : s.fetch p none = .ok [car, cdr] := by
      have harity : p.tag.arity? = some 2 := by rw [tag]; rfl
      simp [fetch, harity, known]
    have hitems (fuel : ℕ) (hfuel : 3 * level p ≤ fuel) : ItemsWritten p (s.renderItems fuel p) := by
      obtain ⟨fuel, rfl⟩ := Nat.exists_eq_add_one_of_ne_zero (by omega : fuel ≠ 0)
      obtain ⟨text, tokens, hform, hspells, hread⟩ := first.1 fuel (by omega)
      obtain ⟨parts, hforms, hparts, -, hread'⟩ := rest.2 fuel (by split <;> omega) (by omega)
      refine ⟨(text, tokens) :: parts, ?_, ?_, fun _ => List.cons_ne_nil _ _, ?_⟩
      · unfold renderItems
        rw [tag]
        dsimp only
        rw [Except.bind_of_ok hfetch]
        dsimp only
        rw [Except.bind_of_ok hform, Except.bind_of_ok hforms]
        rfl
      · exact List.forall_mem_cons.2 ⟨hspells, hparts⟩
      · rw [hpointer, List.flatMap_cons]
        exact hread.cons hread'
    refine ⟨fun fuel hfuel => ?_, fun fuel hfuel _ => hitems fuel (by rw [if_pos tag] at hfuel; omega)⟩
    obtain ⟨fuel, rfl⟩ := Nat.exists_eq_add_one_of_ne_zero (by omega : fuel ≠ 0)
    unfold renderWithin
    rw [tag]
    exact (hitems fuel (by omega)).list tag

/-- What is in a store and legible is written in a text that every store reads as the same pointer. -/
theorem read_render (hs : Reachable s) (h : s.Legible p) :
    ∃ text, s.render p = .ok text ∧ ∀ u, Reachable u → ∃ v, read text u = .ok p v := by
  obtain ⟨level, hlevel⟩ := reachable_leveled hs
  have hbounded := hlevel.bounded p
  obtain ⟨text, tokens, hform, hspells, hread⟩ :=
    (h.written hs hlevel).1 (3 * s.nodes.size + 3) (by omega)
  refine ⟨text, hform, fun u hu => ?_⟩
  obtain ⟨v, -, hread⟩ := hread u hu
  have hall : (tokenize text).foldlM Reading.step ⟨[], []⟩ u = .ok ⟨[p], []⟩ v := by
    rw [hspells.tokenize_eq]
    exact hread [] [] fun _ _ _ h => by cases h
  refine ⟨v, ?_⟩
  have hreadAll : readAll text u = .ok [p] v := by
    rw [readAll]
    exact bind_of_ok hall _
  rw [read]
  exact bind_of_ok hreadAll _

/-- A number, a dot and a symbol, taken in by an empty store. -/
theorem read_render_pair : ∃ s p text, Reachable s ∧ s.Legible p ∧ p.tag = .cons ∧
    s.render p = .ok text ∧ ∀ u, Reachable u → ∃ v, read text u = .ok p v := by
  obtain ⟨s, hs, hsymbol⟩ := has_internSymbol (.empty false) (show "x" ≠ "nil" by decide)
  have hstore : s = (empty false).recordName (symbolPointer "x") "x" := by
    rw [internSymbol, if_neg (by decide)] at hs
    cases hs
    rfl
  -- No builtin symbol has the pointer of the new one.
  have hname : s.names[symbolPointer "x"]? = some "x" := by
    obtain ⟨name, hname⟩ :=
      exists_name_of_contains (reachable_sound hsymbol.reachable) rfl hsymbol.holds.contains
    have hpointer := (reachable_indexed hsymbol.reachable).name hname
    rw [hname]
    rw [hstore] at hname
    rcases getElem?_insertIfNew_cases hname with hbuiltin | ⟨-, rfl⟩
    · have hsample : symbolPreimage "x" ∈ {xs | xs ∈ samples} :=
        List.mem_append_right _ List.mem_cons_self
      have hpreimage := injOn_samples hsample
        (content_empty_subset false (mem_content_of_name hbuiltin)) (hash_eq_of_symbolPointer_eq hpointer)
      rw [symbolPreimage_injective hpreimage]
    · rfl
  have hheld (c : Pointer) (hc : c ∈ [.number (-3), symbolPointer "x"]) : s.Holds c := by
    simp only [List.mem_cons, List.not_mem_nil, or_false] at hc
    rcases hc with rfl | rfl
    · exact s.holds_immediate (Pointer.immediate_canonical _ _) rfl
    · exact hsymbol.holds
  have harity : Tag.cons.arity? = some [Pointer.number (-3), symbolPointer "x"].length := rfl
  obtain ⟨t, -, htakes, hpair⟩ := has_internNode hsymbol.reachable harity hheld
  have hnode : t.nodes[nodePointer .cons [.number (-3), symbolPointer "x"]]? =
      some [.number (-3), symbolPointer "x"] := by
    obtain ⟨cs, hcs, -⟩ :=
      (reachable_sound hpair.reachable).children_of_contains harity hpair.holds.contains
    rcases htakes.fresh hcs with hold | ⟨-, rfl⟩
    · rw [hstore] at hold
      simp [recordName, empty] at hold
    · exact hcs
  have hknown : t.names[symbolPointer "x"]? = some "x" := hpair.retains.name hname
  have hlegible : t.Legible (nodePointer .cons [.number (-3), symbolPointer "x"]) :=
    .cons rfl hnode (.number (-3)) (.symbol hknown ⟨by decide, by decide, by decide⟩)
  obtain ⟨text, hrender, hread⟩ := read_render hpair.reachable hlegible
  exact ⟨t, _, text, hpair.reachable, hlegible, rfl, hrender, hread⟩

end Store

end FieldLisp
