import FieldLisp.Proofs.Store.Words

/-!
# What texts are cut into

A text is put together from blanks, comments, delimiters and words. There is one way to take it apart if no
word follows another one directly and a comment goes on to the end of its line:

* `Cut`: how a text is put together from tokens and what stands between them;
* `Cut.tokenize_eq`, `cut_tokenize`: every text is, and its tokens are the ones that it is cut into;
* `Cut.bare_eq`: they have all characters but blanks and comments;
* `Cut.separated`: something stands between two words;
* `Cut.cutPieces_eq_ok`: who looks for one piece after the other always finds one, up to the blanks at the end;
* `tokenize_lossless`: all of this, of the tokens of a text.
-/

namespace FieldLisp

open Token (ofDelimiter? scanWord scanComment endWord)

/-! ## Texts without comments and blanks -/

/-- What is left without comments. A comment goes from a semicolon up to the next line break or the end. -/
def uncommented : List Char → List Char
  | [] => []
  | c :: rest =>
    if c = ';' then uncommented (rest.dropWhile (· ≠ '\n'))
    else c :: uncommented rest
termination_by text => text.length
decreasing_by
  · exact Nat.lt_succ_of_le (List.length_dropWhile_le _ _)
  · exact Nat.lt_succ_self _

/-- What is left without comments and blanks. -/
def bare (text : List Char) : List Char := (uncommented text).filter (!Text.isBlank ·)

theorem bare_nil : bare [] = [] := by
  rw [bare, uncommented]
  rfl

theorem bare_of_ne {c : Char} (hc : c ≠ ';') (rest : List Char) :
    bare (c :: rest) = [c].filter (!Text.isBlank ·) ++ bare rest := by
  rw [bare, uncommented, if_neg hc, ← List.singleton_append, List.filter_append, bare]

theorem bare_comment {body rest : List Char} (hbody : '\n' ∉ body) (hrest : ∀ c ∈ rest.head?, c = '\n') :
    bare (';' :: (body ++ rest)) = bare rest := by
  rw [bare, uncommented, if_pos rfl, dropWhile_append_stop, bare]
  · exact fun c hc => decide_eq_true fun heq => hbody (heq ▸ hc)
  · exact fun c hc => by simpa using hrest c hc

theorem bare_plain {word : List Char} (hword : ∀ c ∈ word, Plain c) (rest : List Char) :
    bare (word ++ rest) = word ++ bare rest := by
  induction word with
  | nil => rfl
  | cons c word ih =>
    have hc := hword c List.mem_cons_self
    rw [List.cons_append, bare_of_ne hc.comment, ih fun d hd => hword d (List.mem_cons_of_mem _ hd)]
    simp [hc.blank]

/-! ## Characters that end a word -/

theorem ne_comment_of_isBlank {c : Char} (hc : Text.isBlank c = true) : c ≠ ';' := by
  rintro rfl
  exact absurd hc (by decide)

/-- A delimiter is no blank and starts no comment, and its token is written with it. -/
theorem of_ofDelimiter? {c : Char} {token : Token} (hc : ofDelimiter? c = some token) :
    c ≠ ';' ∧ Text.isBlank c = false ∧ token.text.toList = [c] ∧
      token ∈ [Token.openParen, .closeParen, .quoteMark] := by
  unfold ofDelimiter? at hc
  split at hc <;> cases hc <;> decide

/-- A character that no word goes on with. -/
theorem cases_of_not_plain {c : Char} (hc : ¬Plain c) :
    c = ';' ∨ Text.isBlank c = true ∨ ∃ token, ofDelimiter? c = some token := by
  by_contra! h
  obtain ⟨hcomment, hblank, hdelimiter⟩ := h
  refine hc ⟨by simpa using hblank, hcomment, fun hmem => ?_⟩
  simp only [List.mem_cons, List.not_mem_nil, or_false] at hmem
  rcases hmem with rfl | rfl | rfl
  · exact hdelimiter _ rfl
  · exact hdelimiter _ rfl
  · exact hdelimiter _ rfl

namespace Token

theorem scanWord_blank {c : Char} (hc : Text.isBlank c = true) (word rest : List Char) :
    scanWord word (c :: rest) = endWord word (scanWord [] rest) := by
  rw [scanWord, if_neg (ne_comment_of_isBlank hc), if_pos hc]

theorem scanWord_delimiter {c : Char} {token : Token} (hc : ofDelimiter? c = some token) (word rest : List Char) :
    scanWord word (c :: rest) = endWord word (token :: scanWord [] rest) := by
  obtain ⟨hcomment, hblank, -⟩ := of_ofDelimiter? hc
  rw [scanWord, if_neg hcomment, hblank, hc]
  rfl

/-- A word ends where no word goes on. -/
theorem scanWord_stop {rest : List Char} (hrest : ∀ c ∈ rest.head?, ¬Plain c) (word : List Char) :
    scanWord word rest = endWord word (scanWord [] rest) := by
  cases rest with
  | nil => rfl
  | cons c rest =>
    rcases cases_of_not_plain (hrest c rfl) with rfl | hblank | ⟨token, hdelimiter⟩
    · rfl
    · rw [scanWord_blank hblank, scanWord_blank hblank]
      rfl
    · rw [scanWord_delimiter hdelimiter, scanWord_delimiter hdelimiter]
      rfl

/-- A comment ends with its line. -/
theorem scanComment_append {body rest : List Char} (hbody : '\n' ∉ body) (hrest : ∀ c ∈ rest.head?, c = '\n') :
    scanComment (body ++ rest) = scanWord [] rest := by
  induction body with
  | nil =>
    cases rest with
    | nil => rfl
    | cons c rest =>
      obtain rfl := hrest c rfl
      rfl
  | cons c body ih =>
    rw [List.mem_cons, not_or] at hbody
    rw [List.cons_append, scanComment, if_neg (Ne.symm hbody.1), ih hbody.2]

end Token

/-! ## Cuts -/

/-- A text that is put together from tokens, with blanks and comments between them. A word goes on as far as it
can, and a comment up to the end of its line. -/
inductive Cut : List Char → List Token → Prop
  | done : Cut [] []
  | blank {c : Char} {rest : List Char} {tokens : List Token} (hc : Text.isBlank c = true)
      (hcut : Cut rest tokens) : Cut (c :: rest) tokens
  | comment {body rest : List Char} {tokens : List Token} (hbody : '\n' ∉ body)
      (hrest : ∀ c ∈ rest.head?, c = '\n') (hcut : Cut rest tokens) : Cut (';' :: (body ++ rest)) tokens
  | delimiter {c : Char} {token : Token} {rest : List Char} {tokens : List Token}
      (hc : ofDelimiter? c = some token) (hcut : Cut rest tokens) : Cut (c :: rest) (token :: tokens)
  | word {word : String} {rest : List Char} {tokens : List Token} (hword : Word word)
      (hrest : ∀ c ∈ rest.head?, ¬Plain c) (hcut : Cut rest tokens) :
      Cut (word.toList ++ rest) (.word word :: tokens)

theorem Word.exists_cons {word : String} (h : Word word) : ∃ c rest, word.toList = c :: rest ∧ Plain c := by
  cases hlist : word.toList with
  | nil => exact absurd (String.toList_eq_nil_iff.1 hlist) h.nonempty
  | cons c rest => exact ⟨c, rest, rfl, h.plain c (hlist ▸ List.mem_cons_self)⟩

namespace Cut

variable {cs : List Char} {tokens : List Token}

/-- Cutting finds the tokens that a text is put together from. -/
theorem scanWord_eq (h : Cut cs tokens) : scanWord [] cs = tokens := by
  induction h with
  | done => rfl
  | blank hc _ ih => exact (Token.scanWord_blank hc [] _).trans ih
  | comment hbody hrest _ ih => exact (Token.scanComment_append hbody hrest).trans ih
  | delimiter hc _ ih =>
    rw [Token.scanWord_delimiter hc, ih]
    rfl
  | @word word rest tokens hword hrest _ ih =>
    have hnonempty : word.toList ≠ [] := fun hnil => hword.nonempty (String.toList_eq_nil_iff.1 hnil)
    rw [Token.scanWord_append hword.plain, Token.scanWord_stop hrest, ih, List.append_nil, endWord,
      if_neg (by simpa using hnonempty), List.reverse_reverse, String.ofList_toList]

theorem tokenize_eq {text : String} (h : Cut text.toList tokens) : tokenize text = tokens := h.scanWord_eq

end Cut

/-- A text begins with characters of a kind, up to one of another kind. -/
theorem exists_run (p : Char → Bool) (cs : List Char) : ∃ run rest, cs = run ++ rest ∧
    (∀ c ∈ run, p c = true) ∧ ∀ c ∈ rest.head?, p c = false := by
  refine ⟨cs.takeWhile p, cs.dropWhile p, List.takeWhile_append_dropWhile.symm,
    fun c hc => List.mem_takeWhile_imp hc, fun c hc => ?_⟩
  have hstop := List.head?_dropWhile_not p cs
  rwa [Option.mem_def.1 hc] at hstop

theorem exists_word {c : Char} (hc : Plain c) (rest : List Char) : ∃ word after, c :: rest = word.toList ++ after ∧
    Word word ∧ ∀ d ∈ after.head?, ¬Plain d := by
  obtain ⟨run, after, hrest, hrun, hafter⟩ := exists_run (decide <| Plain ·) rest
  refine ⟨String.ofList (c :: run), after, ?_, ⟨?_, fun d hd => ?_⟩, fun d hd => ?_⟩
  · rw [String.toList_ofList, hrest, List.cons_append]
  · exact fun h => List.cons_ne_nil c run (by rw [← String.toList_ofList (l := c :: run), h]; rfl)
  · rw [String.toList_ofList, List.mem_cons] at hd
    rcases hd with rfl | hd
    · exact hc
    · exact of_decide_eq_true (hrun d hd)
  · exact of_decide_eq_false (hafter d hd)

theorem exists_comment (text : List Char) : ∃ body rest, text = body ++ rest ∧ '\n' ∉ body ∧
    ∀ c ∈ rest.head?, c = '\n' := by
  obtain ⟨body, rest, htext, hbody, hrest⟩ := exists_run (· ≠ '\n') text
  exact ⟨body, rest, htext, fun hmem => of_decide_eq_true (hbody _ hmem) rfl, fun c hc => by simpa using hrest c hc⟩

/-- Every text is put together from tokens, by induction on its length. -/
theorem exists_cut (cs : List Char) : ∃ tokens, Cut cs tokens := by
  induction hlength : cs.length using Nat.strong_induction_on generalizing cs with
  | _ n ih =>
    subst hlength
    match cs with
    | [] => exact ⟨[], .done⟩
    | c :: rest =>
      by_cases hplain : Plain c
      · obtain ⟨word, after, htext, hword, hafter⟩ := exists_word hplain rest
        obtain ⟨d, run, hrun, -⟩ := hword.exists_cons
        obtain ⟨tokens, hcut⟩ := ih after.length (by rw [htext, hrun]; simp) after rfl
        exact ⟨_, htext ▸ Cut.word hword hafter hcut⟩
      · rcases cases_of_not_plain hplain with rfl | hblank | ⟨token, hdelimiter⟩
        · obtain ⟨body, after, rfl, hbody, hafter⟩ := exists_comment rest
          obtain ⟨tokens, hcut⟩ := ih after.length (by simp) after rfl
          exact ⟨_, .comment hbody hafter hcut⟩
        · obtain ⟨tokens, hcut⟩ := ih rest.length (Nat.lt_succ_self _) rest rfl
          exact ⟨_, .blank hblank hcut⟩
        · obtain ⟨tokens, hcut⟩ := ih rest.length (Nat.lt_succ_self _) rest rfl
          exact ⟨_, .delimiter hdelimiter hcut⟩

/-- A text is put together from its tokens. -/
theorem cut_tokenize (text : String) : Cut text.toList (tokenize text) := by
  obtain ⟨tokens, hcut⟩ := exists_cut text.toList
  rwa [hcut.tokenize_eq]

namespace Cut

variable {cs : List Char} {tokens : List Token}

/-! ## What tokens have of a text -/

/-- The token is a delimiter or a word. -/
theorem token_cases (h : Cut cs tokens) :
    ∀ token ∈ tokens, token ∈ [Token.openParen, .closeParen, .quoteMark] ∨ Word token.text := by
  induction h with
  | done => nofun
  | blank _ _ ih | comment _ _ _ ih => exact ih
  | delimiter hc _ ih => exact List.forall_mem_cons.2 ⟨.inl (of_ofDelimiter? hc).2.2.2, ih⟩
  | word hword _ _ ih => exact List.forall_mem_cons.2 ⟨.inr hword, ih⟩

/-- The tokens have all characters but blanks and comments, in the order of the text. -/
theorem bare_eq (h : Cut cs tokens) : bare cs = tokens.flatMap (·.text.toList) := by
  induction h with
  | done => exact bare_nil
  | blank hc _ ih => rw [bare_of_ne (ne_comment_of_isBlank hc), ih, List.filter_cons_of_neg (by simpa using hc)]; rfl
  | comment hbody hrest _ ih => rw [bare_comment hbody hrest, ih]
  | delimiter hc _ ih =>
    obtain ⟨hcomment, hblank, htext, -⟩ := of_ofDelimiter? hc
    rw [bare_of_ne hcomment, ih, List.flatMap_cons, htext, List.filter_cons_of_pos (by simpa using hblank)]
    rfl
  | word hword _ _ ih =>
    rw [bare_plain hword.plain, ih]
    rfl

/-! ## What stands between words -/

theorem mem_head?_append {c : Char} {front : List Char} (hc : c ∈ front.head?) (rest : List Char) :
    c ∈ (front ++ rest).head? := by
  rw [List.head?_append, Option.mem_def.1 hc]
  rfl

/-- What stands in front of a word that is the first token has no tokens. -/
theorem exists_gap {v : String} {after : List Token} (h : Cut cs (.word v :: after)) :
    ∃ gap back, cs = gap ++ v.toList ++ back ∧ Cut gap [] ∧ Word v ∧ Cut back after := by
  generalize htokens : Token.word v :: after = tokens at h
  induction h with
  | done => cases htokens
  | @blank c rest tokens hc _ ih =>
    obtain ⟨gap, back, rfl, hgap, hv, hback⟩ := ih htokens
    exact ⟨c :: gap, back, rfl, .blank hc hgap, hv, hback⟩
  | @comment body rest tokens hbody hrest _ ih =>
    obtain ⟨gap, back, rfl, hgap, hv, hback⟩ := ih htokens
    rw [List.append_assoc] at hrest
    exact ⟨';' :: (body ++ gap), back, by simp,
      .comment hbody (fun c hc => hrest c (mem_head?_append hc _)) hgap, hv, hback⟩
  | @delimiter c token rest tokens hc _ _ =>
    obtain ⟨-, -, -, hmem⟩ := of_ofDelimiter? hc
    rw [← (List.cons.inj htokens).1] at hmem
    simp at hmem
  | @word word rest tokens hword _ hcut _ =>
    cases htokens
    exact ⟨[], rest, rfl, .done, hword, hcut⟩

/-- Something stands between two words, and it has no tokens. -/
theorem separated {before after : List Token} {u v : String}
    (h : Cut cs (before ++ .word u :: .word v :: after)) : ∃ front gap back,
      cs = front ++ u.toList ++ gap ++ v.toList ++ back ∧ gap ≠ [] ∧ Cut front before ∧ Cut gap [] ∧
        Cut back after := by
  generalize htokens : before ++ Token.word u :: .word v :: after = tokens at h
  induction h generalizing before with
  | done => simp at htokens
  | @blank c rest tokens hc _ ih =>
    obtain ⟨front, gap, back, rfl, hne, hfront, hgap, hback⟩ := ih htokens
    exact ⟨c :: front, gap, back, rfl, hne, .blank hc hfront, hgap, hback⟩
  | @comment body rest tokens hbody hrest _ ih =>
    obtain ⟨front, gap, back, rfl, hne, hfront, hgap, hback⟩ := ih htokens
    simp only [List.append_assoc] at hrest
    exact ⟨';' :: (body ++ front), gap, back, by simp, hne,
      .comment hbody (fun c hc => hrest c (mem_head?_append hc _)) hfront, hgap, hback⟩
  | @delimiter c token rest tokens hc _ ih =>
    cases before with
    | nil =>
      obtain ⟨-, -, -, hmem⟩ := of_ofDelimiter? hc
      rw [← (List.cons.inj htokens).1] at hmem
      simp at hmem
    | cons first before =>
      obtain ⟨rfl, hothers⟩ := List.cons.inj htokens
      obtain ⟨front, gap, back, rfl, hne, hfront, hgap, hback⟩ := ih hothers
      exact ⟨c :: front, gap, back, rfl, hne, .delimiter hc hfront, hgap, hback⟩
  | @word word rest tokens hword hrest hcut ih =>
    cases before with
    | nil =>
      cases htokens
      obtain ⟨gap, back, rfl, hgap, hv, hback⟩ := hcut.exists_gap
      refine ⟨[], gap, back, by simp, ?_, .done, hgap, hback⟩
      -- A word that followed directly would go on with the one before.
      rintro rfl
      obtain ⟨c, run, hrun, hc⟩ := hv.exists_cons
      exact hrest c (by simp [hrun]) hc
    | cons first before =>
      obtain ⟨rfl, hothers⟩ := List.cons.inj htokens
      obtain ⟨front, gap, back, rfl, hne, hfront, hgap, hback⟩ := ih hothers
      simp only [List.append_assoc] at hrest
      exact ⟨word.toList ++ front, gap, back, by simp, hne,
        .word hword (fun c hc => hrest c (mem_head?_append hc _)) hfront, hgap, hback⟩

end Cut

/-! ## One piece after the other -/

/-- A comment or a token that a text begins with, and what follows. A comment is no token. -/
def piece? : List Char → Option (Option Token × List Char)
  | [] => none
  | c :: rest =>
    if c = ';' then some (none, rest.dropWhile (· ≠ '\n'))
    else
      match ofDelimiter? c with
      | some token => some (some token, rest)
      | none =>
        let word := (c :: rest).takeWhile (decide <| Plain ·)
        if word.isEmpty then none
        else some (some (.word (String.ofList word)), (c :: rest).dropWhile (decide <| Plain ·))

/-- A piece that a text begins with after some blanks. All blanks are skipped first; if no piece follows them, it
is looked for behind one blank less, and so on. -/
def next? : List Char → Option (Option Token × List Char)
  | [] => piece? []
  | c :: rest => if Text.isBlank c then (next? rest).or (piece? (c :: rest)) else piece? (c :: rest)

/-- A character at which no piece begins, and its place in the text. -/
structure Unexpected where
  offset : ℕ
  char : Char
  deriving DecidableEq

/-- Where no piece is found, the rest must have nothing but blanks. At the end it has nothing at all. -/
def stuck (offset : ℕ) : List Char → Except Unexpected (List Token)
  | [] => .ok []
  | c :: cs => if (c :: cs).all Text.isBlank then .ok [] else .error ⟨offset, c⟩

/-- Cuts off one piece after the other. A piece that takes no character counts as none. -/
def cutPieces (offset : ℕ) (cs : List Char) : Except Unexpected (List Token) :=
  match next? cs with
  | some (token, rest) =>
    if rest.length < cs.length then
      (token.toList ++ ·) <$> cutPieces (offset + (cs.length - rest.length)) rest
    else stuck offset cs
  | none => stuck offset cs
termination_by cs.length
decreasing_by assumption

theorem stuck_of_all {cs : List Char} (h : cs.all Text.isBlank = true) (offset : ℕ) :
    stuck offset cs = .ok [] := by
  cases cs with
  | nil => rfl
  | cons c cs => rw [stuck, if_pos h]

namespace Cut

variable {cs : List Char} {tokens : List Token}

/-- What is found at the beginning of a text: nothing, if all of it are blanks; else a piece, and what follows is
put together from the other tokens. -/
def Finds (cs : List Char) (tokens : List Token) : Prop :=
  (next? cs = none ∧ cs.all Text.isBlank = true ∧ tokens = []) ∨
    ∃ token rest others, next? cs = some (token, rest) ∧ rest.length < cs.length ∧
      tokens = token.toList ++ others ∧ Cut rest others

theorem next?_of_not_blank {c : Char} (hc : Text.isBlank c = false) (rest : List Char) :
    next? (c :: rest) = piece? (c :: rest) := by
  rw [next?, if_neg (by simp [hc])]

theorem next?_blank {c : Char} (hc : Text.isBlank c = true) (rest : List Char) :
    next? (c :: rest) = next? rest := by
  have hplain : ¬Plain c := fun h => by simp [h.blank] at hc
  have hdelimiter : ofDelimiter? c = none := by
    cases h : ofDelimiter? c with
    | none => rfl
    | some token => simp [(of_ofDelimiter? h).2.1] at hc
  have hpiece : piece? (c :: rest) = none := by
    simp [piece?, ne_comment_of_isBlank hc, hdelimiter, hplain]
  rw [next?, if_pos hc, hpiece, Option.or_none]

theorem finds (h : Cut cs tokens) : Finds cs tokens := by
  induction h with
  | done => exact .inl ⟨rfl, rfl, rfl⟩
  | @blank c rest tokens hc _ ih =>
    rw [Finds, next?_blank hc]
    refine ih.imp (fun ⟨hnone, hall, htokens⟩ => ⟨hnone, by simp [hc, hall], htokens⟩) ?_
    rintro ⟨token, after, others, hsome, hlt, htokens, hcut⟩
    exact ⟨token, after, others, hsome, hlt.trans (Nat.lt_succ_self _), htokens, hcut⟩
  | @comment body rest tokens hbody hrest hcut _ =>
    refine .inr ⟨none, rest, tokens, ?_, by simp, rfl, hcut⟩
    rw [next?_of_not_blank (by decide), piece?, if_pos rfl, dropWhile_append_stop]
    · exact fun c hc => decide_eq_true fun heq => hbody (heq ▸ hc)
    · exact fun c hc => by simpa using hrest c hc
  | @delimiter c token rest tokens hc hcut _ =>
    obtain ⟨hcomment, hblank, -⟩ := of_ofDelimiter? hc
    refine .inr ⟨some token, rest, tokens, ?_, by simp, rfl, hcut⟩
    rw [next?_of_not_blank hblank, piece?, if_neg hcomment, hc]
  | @word word rest tokens hword hrest hcut _ =>
    obtain ⟨c, run, hrun, hc⟩ := hword.exists_cons
    have hplain : ∀ d ∈ word.toList, decide (Plain d) = true := fun d hd => decide_eq_true (hword.plain d hd)
    have hstop : ∀ d ∈ rest.head?, decide (Plain d) = false := fun d hd => decide_eq_false (hrest d hd)
    refine .inr ⟨some (.word word), rest, tokens, ?_, by simp [hrun], rfl, hcut⟩
    have htake := takeWhile_append_stop hplain hstop
    have hdrop := dropWhile_append_stop hplain hstop
    rw [hrun, List.cons_append] at htake hdrop ⊢
    rw [next?_of_not_blank hc.blank, piece?, if_neg hc.comment, Token.ofDelimiter?_of_plain hc]
    simp only [htake, hdrop]
    rw [← hrun, String.ofList_toList, if_neg (by simp [hrun])]

/-- A piece is found everywhere, up to the blanks at the end. -/
theorem cutPieces_eq_ok (h : Cut cs tokens) (offset : ℕ) : cutPieces offset cs = .ok tokens := by
  induction hlength : cs.length using Nat.strong_induction_on generalizing cs tokens offset with
  | _ n ih =>
    subst hlength
    rw [cutPieces]
    rcases h.finds with ⟨hnone, hall, rfl⟩ | ⟨token, rest, others, hsome, hlt, rfl, hcut⟩
    · simp only [hnone, stuck_of_all hall]
    · simp only [hsome, hlt, if_true, ih _ hlt hcut _ rfl]
      rfl

end Cut

/-- A text is cut without fail: a piece is found everywhere, up to the blanks at the end. Its tokens are delimiters
and words; they have all characters of the text but blanks and comments, in their order; and where one word follows
another one, blanks or comments stand between them in the text, behind that from which the tokens before come and in
front of that from which the others come. -/
theorem tokenize_lossless (text : String) :
    cutPieces 0 text.toList = .ok (tokenize text) ∧
    (∀ token ∈ tokenize text, token ∈ [Token.openParen, .closeParen, .quoteMark] ∨ Word token.text) ∧
    String.join ((tokenize text).map Token.text) = String.ofList (bare text.toList) ∧
    ∀ before u v after, tokenize text = before ++ .word u :: .word v :: after →
      ∃ front gap back, text = front ++ u ++ gap ++ v ++ back ∧ gap ≠ "" ∧ bare gap.toList = [] ∧
        tokenize front = before ∧ tokenize back = after := by
  have hcut := cut_tokenize text
  refine ⟨hcut.cutPieces_eq_ok 0, hcut.token_cases, ?_, fun before u v after htokens => ?_⟩
  · rw [hcut.bare_eq, ← String.toList_inj, String.toList_join, String.toList_ofList, List.flatMap_map]
  · rw [htokens] at hcut
    obtain ⟨front, gap, back, htext, hne, hfront, hgap, hback⟩ := hcut.separated
    refine ⟨String.ofList front, String.ofList gap, String.ofList back, ?_, ?_, ?_, ?_, ?_⟩
    · rw [← String.toList_inj, htext]
      simp
    · rwa [ne_eq, ← String.toList_eq_nil_iff, String.toList_ofList]
    · rw [String.toList_ofList, hgap.bare_eq]
      rfl
    · exact Cut.tokenize_eq (by rwa [String.toList_ofList])
    · exact Cut.tokenize_eq (by rwa [String.toList_ofList])

/-- A parenthesis in a comment is no token. -/
theorem tokenize_lossless_comment :
    tokenize "'ab;(\n d" = [.quoteMark, .word "ab", .word "d"] ∧
    cutPieces 0 "'ab;(\n d".toList = .ok [.quoteMark, .word "ab", .word "d"] ∧
    ∃ front gap back, "'ab;(\n d" = front ++ "ab" ++ gap ++ "d" ++ back ∧ gap ≠ "" ∧ bare gap.toList = [] ∧
      tokenize front = [.quoteMark] ∧ tokenize back = [] := by
  have htokens : tokenize "'ab;(\n d" = [.quoteMark, .word "ab", .word "d"] := by decide
  obtain ⟨hpieces, -, -, hseparated⟩ := tokenize_lossless "'ab;(\n d"
  exact ⟨htokens, htokens ▸ hpieces, hseparated [.quoteMark] "ab" "d" [] htokens⟩

end FieldLisp
