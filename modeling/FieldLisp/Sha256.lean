/-! # SHA-256

The digest of a byte string: it is filled up to whole blocks of sixty-four bytes, and each block is
mixed into eight words in sixty-four rounds. -/

namespace FieldLisp.Sha256

/-- The first bits of the fractional parts of the cube roots of the first sixty-four primes. -/
def roundWords : Array UInt32 := #[
  0x428a2f98, 0x71374491, 0xb5c0fbcf, 0xe9b5dba5, 0x3956c25b, 0x59f111f1, 0x923f82a4, 0xab1c5ed5,
  0xd807aa98, 0x12835b01, 0x243185be, 0x550c7dc3, 0x72be5d74, 0x80deb1fe, 0x9bdc06a7, 0xc19bf174,
  0xe49b69c1, 0xefbe4786, 0x0fc19dc6, 0x240ca1cc, 0x2de92c6f, 0x4a7484aa, 0x5cb0a9dc, 0x76f988da,
  0x983e5152, 0xa831c66d, 0xb00327c8, 0xbf597fc7, 0xc6e00bf3, 0xd5a79147, 0x06ca6351, 0x14292967,
  0x27b70a85, 0x2e1b2138, 0x4d2c6dfc, 0x53380d13, 0x650a7354, 0x766a0abb, 0x81c2c92e, 0x92722c85,
  0xa2bfe8a1, 0xa81a664b, 0xc24b8b70, 0xc76c51a3, 0xd192e819, 0xd6990624, 0xf40e3585, 0x106aa070,
  0x19a4c116, 0x1e376c08, 0x2748774c, 0x34b0bcb5, 0x391c0cb3, 0x4ed8aa4a, 0x5b9cca4f, 0x682e6ff3,
  0x748f82ee, 0x78a5636f, 0x84c87814, 0x8cc70208, 0x90befffa, 0xa4506ceb, 0xbef9a3f7, 0xc67178f2]

/-- The eight words that blocks are mixed into. -/
structure Words where
  a : UInt32
  b : UInt32
  c : UInt32
  d : UInt32
  e : UInt32
  f : UInt32
  g : UInt32
  h : UInt32
  deriving DecidableEq, Repr, Inhabited

/-- The first bits of the fractional parts of the square roots of the first eight primes. -/
def initial : Words := ⟨
  0x6a09e667, 0xbb67ae85, 0x3c6ef372, 0xa54ff53a,
  0x510e527f, 0x9b05688c, 0x1f83d9ab, 0x5be0cd19⟩

def rotate (x : UInt32) (n : UInt32) : UInt32 := (x >>> n) ||| (x <<< (32 - n))

/-- Byte at a position; zero past the end. -/
def byteAt (bytes : ByteArray) (i : Nat) : UInt32 :=
  if h : i < bytes.size then bytes[i].toUInt32 else 0

/-- Four bytes as a word, the most significant first. -/
def wordAt (bytes : ByteArray) (i : Nat) : UInt32 :=
  (byteAt bytes i <<< 24) ||| (byteAt bytes (i + 1) <<< 16) ||| (byteAt bytes (i + 2) <<< 8) |||
    byteAt bytes (i + 3)

/-- Extends the message schedule of a block by `count` words. -/
def extend : Nat → Array UInt32 → Array UInt32
  | 0, w => w
  | count + 1, w =>
    let n := w.size
    let x := w.getD (n - 15) 0
    let y := w.getD (n - 2) 0
    let s0 := rotate x 7 ^^^ rotate x 18 ^^^ (x >>> 3)
    let s1 := rotate y 17 ^^^ rotate y 19 ^^^ (y >>> 10)
    extend count (w.push (w.getD (n - 16) 0 + s0 + w.getD (n - 7) 0 + s1))

/-- The message schedule of the block that starts at a position. -/
def schedule (bytes : ByteArray) (start : Nat) : Array UInt32 :=
  extend 48 ((Array.range 16).map fun i => wordAt bytes (start + 4 * i))

/-- The last `count` of the sixty-four rounds. -/
def rounds (w : Array UInt32) : Nat → Words → Words
  | 0, s => s
  | count + 1, s =>
    let i := 63 - count
    let s1 := rotate s.e 6 ^^^ rotate s.e 11 ^^^ rotate s.e 25
    let choice := (s.e &&& s.f) ^^^ (~~~s.e &&& s.g)
    let t1 := s.h + s1 + choice + roundWords.getD i 0 + w.getD i 0
    let s0 := rotate s.a 2 ^^^ rotate s.a 13 ^^^ rotate s.a 22
    let majority := (s.a &&& s.b) ^^^ (s.a &&& s.c) ^^^ (s.b &&& s.c)
    rounds w count ⟨t1 + s0 + majority, s.a, s.b, s.c, s.d + t1, s.e, s.f, s.g⟩

/-- Mixes one block in. -/
def compress (s : Words) (bytes : ByteArray) (start : Nat) : Words :=
  let t := rounds (schedule bytes start) 64 s
  ⟨s.a + t.a, s.b + t.b, s.c + t.c, s.d + t.d, s.e + t.e, s.f + t.f, s.g + t.g, s.h + t.h⟩

/-- Appends one bit, zeros up to a whole block, and the length in bits. -/
def pad (bytes : ByteArray) : ByteArray :=
  let zeros := (119 - bytes.size % 64) % 64
  let filled := (List.replicate zeros (0 : UInt8)).foldl ByteArray.push (bytes.push 0x80)
  let bits := 8 * bytes.size
  (List.range 8).foldl (fun acc i => acc.push (UInt8.ofNat (bits >>> (8 * (7 - i))))) filled

/-- Mixes `count` blocks in, from a position on. -/
def absorb (bytes : ByteArray) : Nat → Nat → Words → Words
  | 0, _, s => s
  | count + 1, start, s => absorb bytes count (start + 64) (compress s bytes start)

def words (bytes : ByteArray) : Words :=
  let padded := pad bytes
  absorb padded (padded.size / 64) 0 initial

private def hexDigits (x : UInt32) : List Char :=
  (List.range 8).map fun i => Nat.digitChar ((x.toNat >>> (4 * (7 - i))) % 16)

/-- The digest in lower-case hexadecimal. -/
def hexDigest (bytes : ByteArray) : String :=
  let s := words bytes
  String.ofList ([s.a, s.b, s.c, s.d, s.e, s.f, s.g, s.h].flatMap hexDigits)

end FieldLisp.Sha256
