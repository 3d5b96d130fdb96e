import DollarMath.Text.Quoted

/-!
# Faults of encodings

What is wrong with bytes that do not decode, and with a text that has no bytes in an
encoding.
-/

namespace DollarMath

/-- The bytes of a file. -/
abbrev Bytes := List UInt8

/-- Why bytes do not decode. -/
inductive DecodeFault.Cause where
  /-- The byte starts no UTF-8 sequence. -/
  | startByte
  /-- A UTF-8 sequence is broken off by a byte that does not continue it. -/
  | continuationByte
  /-- The bytes end inside a sequence. -/
  | endOfData
  /-- The bytes end inside a unit of two bytes. -/
  | truncatedUnit
  /-- A low surrogate stands alone. -/
  | loneLowSurrogate
  /-- A high surrogate is not followed by a low one. -/
  | brokenPair
  /-- The byte is beyond ASCII. -/
  | beyondAscii
  /-- The byte has no character in the code page. -/
  | undefinedByte
deriving DecidableEq, Repr

/-- The wording of a cause. -/
def DecodeFault.Cause.message : Cause → String
  | startByte => "invalid start byte"
  | continuationByte => "invalid continuation byte"
  | endOfData => "unexpected end of data"
  | truncatedUnit => "truncated data"
  | loneLowSurrogate => "illegal encoding"
  | brokenPair => "illegal UTF-16 surrogate"
  | beyondAscii => "ordinal not in range(128)"
  | undefinedByte => "character maps to <undefined>"

/-- Bytes that do not decode. -/
structure DecodeFault where
  /-- The name of the decoder. -/
  codec : String
  /-- The position of the first byte at fault. -/
  start : Nat
  /-- The first byte at fault. -/
  first : UInt8
  /-- The number of bytes at fault. -/
  length : Nat
  /-- Why they do not decode. -/
  cause : DecodeFault.Cause
deriving DecidableEq, Repr

/-- The wording of a fault: one byte is shown, several are given by their positions. -/
def DecodeFault.message (f : DecodeFault) : String :=
  let bytes :=
    if f.length = 1 then
      "byte 0x" ++ String.ofList (hexDigits 2 f.first.toNat) ++ " in position "
        ++ toString f.start
    else
      "bytes in position " ++ toString f.start ++ "-" ++ toString (f.start + f.length - 1)
  "'" ++ f.codec ++ "' codec can't decode " ++ bytes ++ ": " ++ f.cause.message

/-- A character that an encoding has no bytes for. -/
structure EncodeFault where
  /-- The name of the encoder. -/
  codec : String
  /-- The position of the character. -/
  position : Nat
  /-- The character. -/
  char : Char
  /-- Which characters the encoding has. -/
  reason : String
deriving DecidableEq, Repr

/-- The wording of a fault. -/
def EncodeFault.message (f : EncodeFault) : String :=
  "'" ++ f.codec ++ "' codec can't encode character " ++ String.ofList (quoted [f.char])
    ++ " in position " ++ toString f.position ++ ": " ++ f.reason

end DollarMath
