import FieldLisp.Store
import FieldLisp.Token

/-! # Reading expressions

Tokens are taken one at a time, with a stack of what is still open: lists, quotes, and lists whose
dotted tail is awaited or has been read. A finished expression is handed to the innermost open
construct, which may finish in turn. Content goes into the store as soon as it is complete, so a
text that turns out to be malformed leaves behind what was read before. -/

namespace FieldLisp

/-- A construct that is not closed yet. Items are held last one first. -/
inductive Pending where
  /-- A list; the next expression is its next item. -/
  | items (items : List Pointer)
  /-- A list whose dot has been read; the next expression is its tail. -/
  | tail (items : List Pointer)
  /-- A list whose tail has been read; it must be closed now. -/
  | close (items : List Pointer) (tail : Pointer)
  /-- A quote mark; the next expression is what it quotes. -/
  | quoted (quote : Pointer)
  deriving DecidableEq, Repr, Inhabited

/-- How far a text has been read: the finished expressions, last one first, and what is open,
innermost first. -/
structure Reading where
  finished : List Pointer
  pending : List Pending
  deriving DecidableEq, Repr, Inhabited

namespace Reading

/-- Hands an expression to what awaits it. -/
def deliver (finished : List Pointer) (value : Pointer) : List Pending → StoreM Reading
  | [] => pure ⟨value :: finished, []⟩
  | .items items :: outer => pure ⟨finished, .items (value :: items) :: outer⟩
  | .tail items :: outer => pure ⟨finished, .close items value :: outer⟩
  | .close _ _ :: _ => throw .closeExpected
  | .quoted quote :: outer => do
    let value ← Store.list [quote, value] .nil
    deliver finished value outer

/-- The expression that a word stands for: a numeral is a number, anything else a symbol. -/
def internWord (word : String) : StoreM Pointer :=
  match numeral? word with
  | some (negative, digits) =>
    if digits.length > numeralLimit then throw .numeralTooLong
    else
      let n : Int := Text.decimalValue digits
      pure (.number (if negative then -n else n))
  | none => Store.internSymbol word

/-- Takes one token. -/
def step (reading : Reading) (token : Token) : StoreM Reading :=
  match reading.pending, token with
  | .close items tail :: outer, .closeParen => do
    let value ← Store.list items.reverse tail
    deliver reading.finished value outer
  | .close _ _ :: _, _ => throw .closeExpected
  | .items items :: outer, .closeParen => do
    let value ← Store.list items.reverse .nil
    deliver reading.finished value outer
  | _, .closeParen => throw .unexpectedClose
  | pending, .openParen => pure ⟨reading.finished, .items [] :: pending⟩
  | pending, .quoteMark => do
    let quote ← Store.internSymbol "quote"
    pure ⟨reading.finished, .quoted quote :: pending⟩
  | pending, .word word =>
    match pending with
    | .items (item :: items) :: outer =>
      if word = "." then pure ⟨reading.finished, .tail (item :: items) :: outer⟩
      else do
        let value ← internWord word
        deliver reading.finished value pending
    | _ => do
      let value ← internWord word
      deliver reading.finished value pending

/-- The expressions of a text that ends here. -/
def finish (reading : Reading) : StoreM (List Pointer) :=
  match reading.pending with
  | [] => pure reading.finished.reverse
  | .items _ :: _ => throw .unterminatedList
  | _ => throw .unexpectedEnd

end Reading

/-- Reads every expression of a text. -/
def readAll (text : String) : StoreM (List Pointer) := do
  let reading ← (tokenize text).foldlM Reading.step ⟨[], []⟩
  reading.finish

/-- Reads a text of exactly one expression. -/
def read (text : String) : StoreM Pointer := do
  match ← readAll text with
  | [expr] => pure expr
  | exprs => throw (.expressionCount exprs.length)

end FieldLisp
