/-! # Bytes in hexadecimal

Two digits to a byte, of either case. Blanks of ASCII may stand between bytes. -/

namespace FieldLisp.Text

/-- Value of a hexadecimal digit. -/
def hexDigit? (c : Char) : Option Nat :=
  if '0' ≤ c ∧ c ≤ '9' then some (c.toNat - '0'.toNat)
  else if 'a' ≤ c ∧ c ≤ 'f' then some (c.toNat - 'a'.toNat + 10)
  else if 'A' ≤ c ∧ c ≤ 'F' then some (c.toNat - 'A'.toNat + 10)
  else none

/-- Blanks that may stand between bytes. -/
def isGap (c : Char) : Bool := c == ' ' || (0x9 ≤ c.toNat && c.toNat ≤ 0xd)

/-- Reads bytes; `high` is the first digit of a byte whose second one is due. -/
def readHex (high : Option Nat) : List Char → Option (List UInt8)
  | [] => if high.isNone then some [] else none
  | c :: rest =>
    match high, hexDigit? c with
    | some high, some low => (readHex none rest).map (UInt8.ofNat (16 * high + low) :: ·)
    | none, some digit => readHex (some digit) rest
    | none, none => if isGap c then readHex none rest else none
    | some _, none => none

/-- The bytes that a text writes, if it writes whole bytes and nothing else. -/
def hexBytes? (text : String) : Option (List UInt8) := readHex none text.toList

end FieldLisp.Text
