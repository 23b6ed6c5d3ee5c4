import FieldLisp.Reader
import Mathlib

/-!
# Words

What is written is cut into tokens again. A word without blanks and delimiters is one token, as long as
a blank, a closing parenthesis or the end of the text follows it:

* `Word`, `Token.scanWord_word`: such a word is cut off whole;
* `Spells`: a text that is cut into certain tokens wherever it stands;
* `spells_parts`: texts with blanks between them are cut into the tokens of each;
* `numeral?_toString`: the written form of a number is a numeral for it.
-/

namespace FieldLisp

/-! ## Cutting -/

/-- A run of characters of a kind ends where one of another kind follows, or nothing. -/
theorem takeWhile_append_stop {p : Char → Bool} {run rest : List Char} (hrun : ∀ c ∈ run, p c = true)
    (hrest : ∀ c ∈ rest.head?, p c = false) : (run ++ rest).takeWhile p = run := by
  rw [List.takeWhile_append_of_pos hrun]
  cases rest with
  | nil => simp
  | cons c rest => rw [List.takeWhile_cons_of_neg (by simp [hrest c rfl]), List.append_nil]

theorem dropWhile_append_stop {p : Char → Bool} {run rest : List Char} (hrun : ∀ c ∈ run, p c = true)
    (hrest : ∀ c ∈ rest.head?, p c = false) : (run ++ rest).dropWhile p = rest := by
  rw [List.dropWhile_append_of_pos hrun]
  cases rest with
  | nil => rfl
  | cons c rest => rw [List.dropWhile_cons_of_neg (by simp [hrest c rfl])]

/-- A character that goes on with a word. -/
structure Plain (c : Char) : Prop where
  blank : Text.isBlank c = false
  comment : c ≠ ';'
  delimiter : c ∉ ['(', ')', '\x27']

instance (c : Char) : Decidable (Plain c) :=
  decidable_of_iff (Text.isBlank c = false ∧ c ≠ ';' ∧ c ∉ ['(', ')', '\x27'])
    ⟨fun h => ⟨h.1, h.2.1, h.2.2⟩, fun h => ⟨h.blank, h.comment, h.delimiter⟩⟩

/-- A text that is one word. -/
structure Word (text : String) : Prop where
  nonempty : text ≠ ""
  plain : ∀ c ∈ text.toList, Plain c

instance (text : String) : Decidable (Word text) :=
  decidable_of_iff (text ≠ "" ∧ text.toList.all (decide <| Plain ·) = true)
    ⟨fun h => ⟨h.1, by simpa using h.2⟩, fun h => ⟨h.nonempty, by simpa using h.plain⟩⟩

/-- The characters that follow end a word. -/
def Separates (rest : List Char) : Prop :=
  rest = [] ∨ ∃ c rest', rest = c :: rest' ∧ (c = ' ' ∨ c = ')')

/-- A text that is cut into certain tokens, wherever it stands, if what follows ends a word. -/
def Spells (text : List Char) (tokens : List Token) : Prop :=
  ∀ rest, Separates rest → Token.scanWord [] (text ++ rest) = tokens ++ Token.scanWord [] rest

namespace Token

theorem ofDelimiter?_of_plain {c : Char} (hc : Plain c) : ofDelimiter? c = none := by
  have h := hc.delimiter
  simp only [List.mem_cons, List.not_mem_nil, or_false, not_or] at h
  unfold ofDelimiter?
  split
  · exact absurd rfl h.1
  · exact absurd rfl h.2.1
  · exact absurd rfl h.2.2
  · rfl

theorem scanWord_plain {c : Char} (hc : Plain c) (word rest : List Char) :
    scanWord word (c :: rest) = scanWord (c :: word) rest := by
  rw [scanWord, if_neg hc.comment, hc.blank, ofDelimiter?_of_plain hc]
  rfl

theorem scanWord_append {cs : List Char} (hcs : ∀ c ∈ cs, Plain c) (word rest : List Char) :
    scanWord word (cs ++ rest) = scanWord (cs.reverse ++ word) rest := by
  induction cs generalizing word with
  | nil => rfl
  | cons c cs ih =>
    rw [List.cons_append, scanWord_plain (hcs c List.mem_cons_self),
      ih fun d hd => hcs d (List.mem_cons_of_mem _ hd), List.reverse_cons, List.append_assoc]
    rfl

theorem scanWord_separator {rest : List Char} (h : Separates rest) (word : List Char) :
    scanWord word rest = endWord word (scanWord [] rest) := by
  rcases h with rfl | ⟨c, rest, rfl, rfl | rfl⟩
  · rfl
  · rfl
  · rfl

/-- A word is cut off whole. -/
theorem scanWord_word {text : String} (h : Word text) : Spells text.toList [.word text] := by
  intro rest hrest
  have hnonempty : text.toList ≠ [] := fun hnil => h.nonempty (String.toList_eq_nil_iff.1 hnil)
  rw [scanWord_append h.plain, scanWord_separator hrest, List.append_nil, endWord,
    if_neg (by simpa using hnonempty), List.reverse_reverse, String.ofList_toList]
  rfl

end Token

/-- Texts with blanks between them are cut into the tokens of each. -/
theorem spells_parts {parts : List (String × List Token)} (hne : parts ≠ [])
    (h : ∀ part ∈ parts, Spells part.1.toList part.2) :
    Spells (" ".intercalate (parts.map Prod.fst)).toList (parts.flatMap Prod.snd) := by
  induction parts with
  | nil => exact absurd rfl hne
  | cons part parts ih =>
    have hpart := h part List.mem_cons_self
    cases parts with
    | nil => simpa using hpart
    | cons next parts =>
      have hrest := ih (List.cons_ne_nil _ _) fun part hmem => h part (List.mem_cons_of_mem _ hmem)
      intro rest hseparates
      rw [List.map_cons, List.map_cons, String.intercalate_cons_cons, String.toList_append,
        String.toList_append, List.append_assoc, List.append_assoc]
      set following := (" ".intercalate (next.1 :: parts.map Prod.fst)).toList ++ rest
      have hnext : Separates (" ".toList ++ following) := .inr ⟨' ', following, rfl, .inl rfl⟩
      rw [hpart _ hnext, List.flatMap_cons, List.append_assoc]
      congr 1
      exact hrest rest hseparates

/-- What stands in parentheses is cut into its tokens, between two parentheses. -/
theorem spells_parentheses {text : String} {tokens : List Token} (h : Spells text.toList tokens) :
    Spells ("(" ++ text ++ ")").toList (.openParen :: (tokens ++ [.closeParen])) := by
  intro rest _
  rw [String.toList_append, String.toList_append, List.append_assoc, List.append_assoc]
  change Token.openParen :: Token.scanWord [] (text.toList ++ ')' :: rest) = _
  rw [h (')' :: rest) (.inr ⟨')', rest, rfl, .inr rfl⟩)]
  change _ = Token.openParen :: (tokens ++ [Token.closeParen] ++ Token.scanWord [] rest)
  rw [List.append_assoc]
  rfl

/-- What is cut into tokens wherever it stands is cut into them where nothing else stands. -/
theorem Spells.tokenize_eq {text : String} {tokens : List Token} (h : Spells text.toList tokens) :
    tokenize text = tokens := by
  have hall := h [] (.inl rfl)
  rw [List.append_nil] at hall
  rw [tokenize, hall]
  exact List.append_nil tokens

/-! ## Numerals -/

/-- The digits of the reading script have their own values. -/
theorem digitValue?_of_isDigit {c : Char} (h : c.isDigit = true) :
    Text.digitValue? c = some (c.toNat - '0'.toNat) := by
  rw [Char.isDigit, Bool.and_eq_true, decide_eq_true_eq, decide_eq_true_eq] at h
  have hrange : 0x30 ≤ c.toNat ∧ c.toNat < 0x30 + 10 := by
    have hlow : '0'.val.toNat ≤ c.val.toNat := UInt32.le_iff_toNat_le.1 h.1
    have hhigh : c.val.toNat ≤ '9'.val.toNat := UInt32.le_iff_toNat_le.1 h.2
    exact ⟨hlow, Nat.lt_succ_of_le hhigh⟩
  rw [Text.digitValue?, Text.zeros, List.find?_cons_of_pos]
  · rfl
  · simpa using hrange

theorem plain_of_isDigit {c : Char} (h : c.isDigit = true) : Plain c := by
  rw [Char.isDigit, Bool.and_eq_true, decide_eq_true_eq, decide_eq_true_eq] at h
  have hlow : 48 ≤ c.toNat := UInt32.le_iff_toNat_le.1 h.1
  have hhigh : c.toNat ≤ 57 := UInt32.le_iff_toNat_le.1 h.2
  constructor
  · unfold Text.isBlank
    simp only [Bool.or_eq_false_iff, Bool.and_eq_false_iff, decide_eq_false_iff_not, beq_eq_false_iff_ne]
    omega
  · rintro rfl
    revert hlow hhigh
    decide
  · intro hmem
    simp only [List.mem_cons, List.not_mem_nil, or_false] at hmem
    rcases hmem with rfl | rfl | rfl <;> revert hlow hhigh <;> decide

theorem unsignedDigits?_toDigits (n : ℕ) : ∃ digits, unsignedDigits? (Nat.toDigits 10 n) = some digits ∧
    Text.decimalValue digits = n ∧ digits.length = (Nat.toDigits 10 n).length := by
  have hdigits (cs : List Char) (hcs : ∀ c ∈ cs, c.isDigit = true) :
      cs.mapM Text.digitValue? = some (cs.map fun c => c.toNat - '0'.toNat) := by
    induction cs with
    | nil => rfl
    | cons c cs ih =>
      rw [List.mapM_cons, digitValue?_of_isDigit (hcs c List.mem_cons_self),
        ih fun d hd => hcs d (List.mem_cons_of_mem _ hd)]
      rfl
  refine ⟨(Nat.toDigits 10 n).map fun c => c.toNat - '0'.toNat, ?_, ?_, List.length_map _⟩
  · rw [unsignedDigits?, if_neg (by simp)]
    exact hdigits _ fun c hc => Nat.isDigit_of_mem_toDigits (by decide) (by decide) hc
  · rw [Text.decimalValue, List.foldl_map]
    exact Nat.ofDigitChars_ten_toDigits

/-- The written form of an integer: a minus sign, if it is negative, and decimal digits. -/
theorem toList_toString (n : ℤ) : (toString n).toList =
    if 0 ≤ n then Nat.toDigits 10 n.natAbs else '-' :: Nat.toDigits 10 n.natAbs := by
  rw [Int.toString_eq_repr, Int.repr_eq_if]
  split
  · rw [Nat.toList_repr]
    congr 1
    omega
  · rw [String.toList_append, Nat.toList_repr]
    have habs : (-n).toNat = n.natAbs := by omega
    rw [habs]
    rfl

/-- The written form of a number is a numeral for it. -/
theorem numeral?_toString (n : ℤ) : ∃ negative digits,
    numeral? (toString n) = some (negative, digits) ∧
    (if negative then -(Text.decimalValue digits : ℤ) else Text.decimalValue digits) = n ∧
    digits.length = (Nat.toDigits 10 n.natAbs).length := by
  obtain ⟨digits, hdigits, hvalue, hlength⟩ := unsignedDigits?_toDigits n.natAbs
  have htext := toList_toString n
  by_cases hn : 0 ≤ n
  · rw [if_pos hn] at htext
    refine ⟨false, digits, ?_, ?_, hlength⟩
    · have hsign (c : Char) (rest : List Char) (h : Nat.toDigits 10 n.natAbs = c :: rest) :
          c ≠ '-' ∧ c ≠ '+' := by
        have hmem : c ∈ Nat.toDigits 10 n.natAbs := by
          rw [h]
          exact List.mem_cons_self
        have hc := Nat.isDigit_of_mem_toDigits (by decide) (by decide) hmem
        constructor <;> rintro rfl <;> revert hc <;> decide
      unfold numeral?
      rw [htext]
      split
      · rename_i rest h
        exact absurd rfl (hsign _ rest h).1
      · rename_i rest h
        exact absurd rfl (hsign _ rest h).2
      · rw [hdigits]
        rfl
    · rw [hvalue]
      simpa using hn
  · rw [if_neg hn] at htext
    refine ⟨true, digits, ?_, ?_, hlength⟩
    · unfold numeral?
      rw [htext]
      change (unsignedDigits? (Nat.toDigits 10 n.natAbs)).map (true, ·) = _
      rw [hdigits]
      rfl
    · rw [hvalue, if_pos rfl]
      omega

theorem word_toString (n : ℤ) : Word (toString n) := by
  have hdigit (c : Char) (hc : c ∈ Nat.toDigits 10 n.natAbs) : Plain c :=
    plain_of_isDigit (Nat.isDigit_of_mem_toDigits (by decide) (by decide) hc)
  have htext := toList_toString n
  constructor
  · intro hempty
    rw [hempty] at htext
    split at htext
    · exact Nat.toDigits_ne_nil htext.symm
    · cases htext
  · intro c hc
    rw [htext] at hc
    split at hc
    · exact hdigit c hc
    · rcases List.mem_cons.1 hc with rfl | hc
      · decide
      · exact hdigit c hc

end FieldLisp
