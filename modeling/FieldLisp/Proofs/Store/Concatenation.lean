import FieldLisp.Proofs.Machine.Reading
import FieldLisp.Proofs.Store.Outcomes

/-!
# Texts one after the other

Two texts that can be read can be read as one, with a line break between them, and this gives what they
give one after the other:

* `tokenize_append_newline`: no token and no comment goes on over the line break;
* `Reading.step_onto`: a token is taken without a look at what is finished;
* `readAll_after`: so where a text can be read, what follows it is read as if it stood alone;
* `Reading.determined_step`: and it is read alike in every store, since all that a token is put together
  with was read before.
-/

namespace FieldLisp

open EStateM (bind_eq_ok bind_of_ok)
open Store (Reachable Determined)

/-! ## Tokens -/

namespace Token

theorem endWord_append (word : List Char) (tokens : List Token) :
    endWord word tokens = endWord word [] ++ tokens := by
  unfold endWord
  split_ifs <;> rfl

mutual

/-- A line break ends a word. -/
theorem scanWord_newline (word : List Char) (rest : List Char) : ∀ cs : List Char,
    scanWord word (cs ++ '\n' :: rest) = scanWord word cs ++ scanWord [] rest
  | [] => endWord_append word _
  | c :: cs => by
    rw [List.cons_append, scanWord, scanWord]
    split_ifs
    · rw [scanComment_newline rest cs, endWord_append, endWord_append word (scanComment cs),
        List.append_assoc]
    · rw [scanWord_newline [] rest cs, endWord_append, endWord_append word (scanWord [] cs),
        List.append_assoc]
    · cases ofDelimiter? c with
      | none => exact scanWord_newline (c :: word) rest cs
      | some token =>
        dsimp only
        rw [scanWord_newline [] rest cs, endWord_append, endWord_append word (token :: scanWord [] cs),
          List.append_assoc, List.cons_append]

/-- A line break ends a comment. -/
theorem scanComment_newline (rest : List Char) : ∀ cs : List Char,
    scanComment (cs ++ '\n' :: rest) = scanComment cs ++ scanWord [] rest
  | [] => rfl
  | c :: cs => by
    rw [List.cons_append, scanComment, scanComment]
    split_ifs
    · exact scanWord_newline [] rest cs
    · exact scanComment_newline rest cs

end

end Token

/-- No token goes on over a line break. -/
theorem tokenize_append_newline (a b : String) :
    tokenize (a ++ "\n" ++ b) = tokenize a ++ tokenize b := by
  unfold tokenize
  rw [String.toList_append, String.toList_append, List.append_assoc]
  exact Token.scanWord_newline [] b.toList a.toList

namespace Reading

/-! ## What is finished -/

/-- A reading that goes on after other expressions were finished. -/
def onto (base : List Pointer) (reading : Reading) : Reading :=
  ⟨reading.finished ++ base, reading.pending⟩

theorem deliver_onto (base finished : List Pointer) (value : Pointer) (pending : List Pending) :
    deliver (finished ++ base) value pending = onto base <$> deliver finished value pending := by
  induction pending generalizing value with
  | nil => rfl
  | cons innermost outer ih =>
    cases innermost with
    | items items => rfl
    | tail items => rfl
    | close items tail => rfl
    | quoted quote =>
      have hrest : (fun value => deliver (finished ++ base) value outer) =
          fun value => onto base <$> deliver finished value outer := funext ih
      change (Store.list [quote, value] .nil >>= fun value => deliver (finished ++ base) value outer) = _
      rw [hrest, ← map_bind]
      rfl

theorem Effect.onto {pending : List Pending} {effect : List Pointer → StoreM Reading}
    (h : Effect pending effect) (base finished : List Pointer) :
    effect (finished ++ base) = Reading.onto base <$> effect finished := by
  cases h with
  | fails fault => rfl
  | opens => rfl
  | quotes => rw [map_bind]; rfl
  | dots => rfl
  | takes word => simp only [deliver_onto, map_bind]
  | closes => simp only [deliver_onto, map_bind]
  | closesTail => simp only [deliver_onto, map_bind]

/-- A token is taken without a look at what is finished. -/
theorem step_onto (base : List Pointer) (reading : Reading) (token : Token) :
    step (reading.onto base) token = onto base <$> step reading token := by
  obtain ⟨finished, pending⟩ := reading
  obtain ⟨effect, heffect, hstep⟩ := exists_effect pending token
  rw [onto, hstep, hstep]
  exact heffect.onto base finished

theorem foldlM_onto (base : List Pointer) (reading : Reading) (tokens : List Token) :
    tokens.foldlM step (reading.onto base) = onto base <$> tokens.foldlM step reading := by
  induction tokens generalizing reading with
  | nil => rfl
  | cons token tokens ih =>
    rw [List.foldlM_cons, List.foldlM_cons, step_onto, bind_map_left, map_bind]
    exact bind_congr ih

theorem finish_onto (base : List Pointer) (reading : Reading) :
    (reading.onto base).finish = (base.reverse ++ ·) <$> reading.finish := by
  obtain ⟨finished, pending⟩ := reading
  rcases pending with _ | ⟨_ | _ | _ | _, _⟩
  case nil =>
    change (pure (finished ++ base).reverse : StoreM (List Pointer)) = _
    rw [List.reverse_append]
    rfl
  all_goals rfl

end Reading

/-- After a text that can be read, another one is read as if it stood alone. -/
theorem readAll_after {a : String} {s t : Store} {exprs : List Pointer} (b : String)
    (h : readAll a s = .ok exprs t) :
    readAll (a ++ "\n" ++ b) s = ((exprs ++ ·) <$> readAll b) t := by
  obtain ⟨reading, u, htokens, hfinish⟩ := bind_eq_ok.1 h
  obtain ⟨rfl, rfl⟩ := Reading.eq_of_finish hfinish
  have hstart : (⟨exprs.reverse, []⟩ : Reading) = Reading.onto exprs.reverse ⟨[], []⟩ := rfl
  rw [readAll, tokenize_append_newline, List.foldlM_append, bind_assoc, bind_of_ok htokens, hstart,
    Reading.foldlM_onto, bind_map_left, readAll, map_bind]
  simp only [Reading.finish_onto, List.reverse_reverse]

/-! ## Stores -/

namespace Reading

/-- All pointers that a reading holds. -/
def pointers (reading : Reading) : List Pointer :=
  reading.finished ++ reading.pending.flatMap Pending.pointers

theorem mem_pointers_cons {p : Pointer} {finished : List Pointer} {innermost : Pending}
    {outer : List Pending} : p ∈ pointers ⟨finished, innermost :: outer⟩ ↔
      p ∈ innermost.pointers ∨ p ∈ pointers ⟨finished, outer⟩ := by
  simp only [pointers, List.flatMap_cons, List.mem_append]
  exact or_left_comm

theorem determined_deliver (finished : List Pointer) (value : Pointer) (pending : List Pending) :
    Determined (value :: pointers ⟨finished, pending⟩) (deliver finished value pending) pointers := by
  induction pending generalizing value with
  | nil => exact .pure (List.Subset.refl _)
  | cons innermost outer ih =>
    cases innermost with
    | items items | tail items =>
      exact .pure fun p hp => by grind [mem_pointers_cons, Pending.pointers]
    | close items tail => exact .throw _
    | quoted quote =>
      have hlist : Determined [quote, value] (Store.list [quote, value] .nil) ([·]) :=
        .of_immediate .nil 0 rfl (.list [quote, value] .nil)
      refine (hlist.of_subset fun p hp => ?_).bind fun quoted => (ih quoted).of_subset fun p hp => ?_
      · grind [mem_pointers_cons, Pending.pointers]
      · grind [mem_pointers_cons, Pending.pointers]

theorem determined_internWord (word : String) (given : List Pointer) :
    Determined given (internWord word) ([·]) := by
  unfold internWord
  cases numeral? word with
  | none => exact .internSymbol word
  | some numeral =>
    dsimp only
    split_ifs
    · exact .throw _
    all_goals exact .of_immediate .number _ rfl (.pure (List.cons_subset_cons _ (List.nil_subset _)))

/-- A list that is closed. -/
theorem determined_close {items : List Pointer} {tail : Pointer} (finished : List Pointer)
    (outer : List Pending) : Determined (tail :: items ++ pointers ⟨finished, outer⟩) (do
      let value ← Store.list items.reverse tail
      deliver finished value outer) pointers := by
  have hlist := Determined.list items.reverse tail
  refine (hlist.of_subset fun p hp => ?_).bind fun value =>
    (determined_deliver finished value outer).of_subset fun p hp => ?_
  · grind
  · grind

theorem Effect.determined {pending : List Pending} {effect : List Pointer → StoreM Reading}
    (h : Effect pending effect) (finished : List Pointer) :
    Determined (pointers ⟨finished, pending⟩) (effect finished) pointers := by
  cases h with
  | fails fault => exact .throw fault
  | opens => exact .pure (List.Subset.refl _)
  | quotes =>
    refine (Determined.internSymbol "quote").bind fun quote => .pure fun p hp => ?_
    grind [mem_pointers_cons, Pending.pointers]
  | dots => exact .pure (List.Subset.refl _)
  | takes word =>
    refine (determined_internWord word _).bind fun value =>
      (determined_deliver finished value pending).of_subset fun p hp => ?_
    grind
  | @closes items outer =>
    -- The list ends in nil, which nothing has read.
    refine .of_immediate .nil 0 rfl ((determined_close finished outer).of_subset fun p hp => ?_)
    grind [mem_pointers_cons, Pending.pointers, Pointer.nil]
  | @closesTail items tail outer =>
    refine (determined_close finished outer).of_subset fun p hp => ?_
    grind [mem_pointers_cons, Pending.pointers]

theorem determined_step (reading : Reading) (token : Token) :
    Determined reading.pointers (step reading token) pointers := by
  obtain ⟨finished, pending⟩ := reading
  obtain ⟨effect, heffect, hstep⟩ := exists_effect pending token
  rw [hstep]
  exact heffect.determined finished

theorem determined_foldlM (reading : Reading) (tokens : List Token) :
    Determined reading.pointers (tokens.foldlM step reading) pointers := by
  induction tokens generalizing reading with
  | nil => exact .pure (List.Subset.refl _)
  | cons token tokens ih =>
    rw [List.foldlM_cons]
    exact (determined_step reading token).bind fun next =>
      (ih next).of_subset (List.subset_append_right _ _)

theorem determined_finish (reading : Reading) : Determined reading.pointers reading.finish id := by
  obtain ⟨finished, pending⟩ := reading
  rcases pending with _ | ⟨_ | _ | _ | _, _⟩
  case nil => exact .pure fun p hp => List.mem_append_left _ (List.mem_reverse.1 hp)
  all_goals exact .throw _

end Reading

/-- A text is read alike in every store. -/
theorem determined_readAll (text : String) : Determined [] (readAll text) id :=
  (Reading.determined_foldlM ⟨[], []⟩ (tokenize text)).bind fun reading => reading.determined_finish

/-- Texts that can be read in some stores can be read in every store, one after the other or as one text
with a line break between them, and this comes to the same. -/
theorem readAll_append_newline {a b : String} {s s' t t' : Store} {exprs exprs' : List Pointer}
    (hs : Reachable s) (ha : readAll a s = .ok exprs t)
    (hs' : Reachable s') (hb : readAll b s' = .ok exprs' t') {u : Store} (hu : Reachable u) :
    ∃ v w, readAll a u = .ok exprs v ∧ readAll b v = .ok exprs' w ∧
      readAll (a ++ "\n" ++ b) u = .ok (exprs ++ exprs') w := by
  obtain ⟨v, hv, hreachable⟩ := (determined_readAll a).run_eq_ok hs ha hu
  obtain ⟨w, hw, -⟩ := (determined_readAll b).run_eq_ok hs' hb hreachable
  refine ⟨v, w, hv, hw, ?_⟩
  rw [readAll_after b hv]
  exact EStateM.map_eq_ok.2 ⟨exprs', hw, rfl⟩

/-- A comment with an opening parenthesis in it, and a closing one on the next line. -/
theorem readAll_comments_newline :
    Reachable (.empty false) ∧ Reachable (.empty true) ∧
      readAll "x ; (" (.empty false) = .ok [symbolPointer "x"]
        ((Store.empty false).recordName (symbolPointer "x") "x") ∧
      readAll "-7;)" (.empty true) = .ok [.number (-7)] (.empty true) ∧
      ∃ v w, readAll "x ; (" (.empty true) = .ok [symbolPointer "x"] v ∧
        readAll "-7;)" v = .ok [.number (-7)] w ∧
        readAll ("x ; (" ++ "\n" ++ "-7;)") (.empty true) = .ok [symbolPointer "x", .number (-7)] w :=
  ⟨.empty false, .empty true, rfl, rfl,
    readAll_append_newline (.empty false) rfl (.empty true) rfl (.empty true)⟩

end FieldLisp
