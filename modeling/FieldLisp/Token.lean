import FieldLisp.Text.Blank
import FieldLisp.Text.Digit

/-! # Tokens

The text of an expression is cut into parentheses, quote marks and words. Blanks and comments, which
run from a semicolon to the end of the line, separate words and are left out. Every text can be
cut. -/

namespace FieldLisp

inductive Token where
  | openParen
  | closeParen
  | quoteMark
  | word (text : String)
  deriving DecidableEq, Repr, Inhabited

namespace Token

/-- The characters a token was cut from. -/
def text : Token → String
  | openParen => "("
  | closeParen => ")"
  | quoteMark => "'"
  | word text => text

/-- The token that a delimiter is by itself. -/
def ofDelimiter? : Char → Option Token
  | '(' => some openParen
  | ')' => some closeParen
  | '\x27' => some quoteMark
  | _ => none

/-- The word read so far, which is held last character first, in front of further tokens. -/
def endWord (word : List Char) (tokens : List Token) : List Token :=
  if word.isEmpty then tokens else .word (String.ofList word.reverse) :: tokens

mutual

/-- Cuts characters while `word` is being read. -/
def scanWord (word : List Char) : List Char → List Token
  | [] => endWord word []
  | c :: rest =>
    if c = ';' then endWord word (scanComment rest)
    else if Text.isBlank c then endWord word (scanWord [] rest)
    else
      match ofDelimiter? c with
      | some token => endWord word (token :: scanWord [] rest)
      | none => scanWord (c :: word) rest

/-- Skips the rest of a line. -/
def scanComment : List Char → List Token
  | [] => []
  | c :: rest => if c = '\n' then scanWord [] rest else scanComment rest

end

end Token

/-- The tokens of a text. -/
def tokenize (text : String) : List Token := Token.scanWord [] text.toList

/-- Digits that a numeral may have. -/
def numeralLimit : Nat := 4300

/-- Values of the characters of a word after an optional sign, if there are any and all are
digits. -/
def unsignedDigits? (chars : List Char) : Option (List Nat) :=
  if chars.isEmpty then none else chars.mapM Text.digitValue?

/-- A word read as a signed numeral: whether it is negative, and its digits. -/
def numeral? (word : String) : Option (Bool × List Nat) :=
  match word.toList with
  | '-' :: rest => (unsignedDigits? rest).map (true, ·)
  | '+' :: rest => (unsignedDigits? rest).map (false, ·)
  | chars => (unsignedDigits? chars).map (false, ·)

end FieldLisp
