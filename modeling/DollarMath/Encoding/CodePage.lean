import DollarMath.Encoding.Fault

/-!
# Code pages

Encodings with one byte for each character: ASCII, Latin-1 and Windows-1252.
-/

namespace DollarMath

/-- An encoding with one byte for each character. -/
inductive CodePage where
  /-- The first 128 code points. -/
  | ascii
  /-- The first 256 code points; every byte has a character. -/
  | latin1
  /-- Latin-1 with other characters for the bytes 80 to 9f, five of which have none. -/
  | windows1252
deriving DecidableEq, Repr

namespace CodePage

/-- The name of the decoder. -/
def codec : CodePage → String
  | ascii => "ascii"
  | latin1 => "latin-1"
  | windows1252 => "charmap"

/-- What is wrong with a byte without a character. -/
def cause : CodePage → DecodeFault.Cause
  | ascii => .beyondAscii
  | latin1 => .undefinedByte
  | windows1252 => .undefinedByte

/-- What is wrong with a character without a byte. -/
def reason : CodePage → String
  | ascii => "ordinal not in range(128)"
  | latin1 => "ordinal not in range(256)"
  | windows1252 => "character maps to <undefined>"

/-- The code points of the bytes 80 to 9f in Windows-1252. -/
def windows1252Middle : List (Option Nat) :=
  [some 0x20ac, none, some 0x201a, some 0x192, some 0x201e, some 0x2026, some 0x2020,
    some 0x2021, some 0x2c6, some 0x2030, some 0x160, some 0x2039, some 0x152, none,
    some 0x17d, none, none, some 0x2018, some 0x2019, some 0x201c, some 0x201d, some 0x2022,
    some 0x2013, some 0x2014, some 0x2dc, some 0x2122, some 0x161, some 0x203a, some 0x153,
    none, some 0x17e, some 0x178]

/-- The character of a byte. -/
def char? (page : CodePage) (b : UInt8) : Option Char :=
  let n := b.toNat
  match page with
  | ascii => if n < 0x80 then some (Char.ofNat n) else none
  | latin1 => some (Char.ofNat n)
  | windows1252 =>
    if n < 0x80 ∨ 0xa0 ≤ n then some (Char.ofNat n)
    else (windows1252Middle[n - 0x80]?.getD none).map Char.ofNat

/-- The byte of a character. -/
def byte? (page : CodePage) (c : Char) : Option UInt8 :=
  let n := c.toNat
  match page with
  | ascii => if n < 0x80 then some n.toUInt8 else none
  | latin1 => if n < 0x100 then some n.toUInt8 else none
  | windows1252 =>
    if n < 0x80 ∨ (0xa0 ≤ n ∧ n < 0x100) then some n.toUInt8
    else (windows1252Middle.idxOf? (some n)).map fun i => (0x80 + i).toUInt8

/-- The text of bytes that start at position `pos`. -/
def decodeFrom (page : CodePage) (pos : Nat) : Bytes → Except DecodeFault Text
  | [] => .ok []
  | b :: bs =>
    match page.char? b with
    | none => .error ⟨page.codec, pos, b, 1, page.cause⟩
    | some c => return c :: (← page.decodeFrom (pos + 1) bs)

/-- The text of bytes. -/
def decode (page : CodePage) (bs : Bytes) : Except DecodeFault Text :=
  page.decodeFrom 0 bs

/-- The bytes of a text that starts at position `pos`. -/
def encodeFrom (page : CodePage) (pos : Nat) : Text → Except EncodeFault Bytes
  | [] => .ok []
  | c :: cs =>
    match page.byte? c with
    | none => .error ⟨page.codec, pos, c, page.reason⟩
    | some b => return b :: (← page.encodeFrom (pos + 1) cs)

/-- The bytes of a text. -/
def encode (page : CodePage) (t : Text) : Except EncodeFault Bytes :=
  page.encodeFrom 0 t

end CodePage

end DollarMath
