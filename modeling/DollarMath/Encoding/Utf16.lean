import DollarMath.Encoding.Fault

/-!
# UTF-16

A character takes one unit of two bytes, or a pair of units, a high and a low surrogate.  A
byte order mark at the front of a file gives the order of the two bytes; without one the
lower byte comes first.
-/

namespace DollarMath

namespace Utf16

/-- The order of the two bytes of a unit. -/
inductive Order where
  /-- The lower byte first. -/
  | little
  /-- The higher byte first. -/
  | big
deriving DecidableEq, Repr

/-- The name of the decoder for an order. -/
def Order.codec : Order → String
  | little => "utf-16-le"
  | big => "utf-16-be"

/-- The unit of two bytes. -/
def Order.unit (order : Order) (a b : UInt8) : Nat :=
  match order with
  | little => a.toNat + 0x100 * b.toNat
  | big => 0x100 * a.toNat + b.toNat

/-- A high surrogate. -/
def isHigh (u : Nat) : Bool := 0xd800 ≤ u && u ≤ 0xdbff

/-- A low surrogate. -/
def isLow (u : Nat) : Bool := 0xdc00 ≤ u && u ≤ 0xdfff

/-- A high surrogate that waits for its low one. -/
structure Pending where
  /-- Its first byte. -/
  first : UInt8
  /-- Its value. -/
  high : Nat
deriving DecidableEq, Repr

/-- The text of bytes that start at position `pos`, after the high surrogate `pending` if
there is one. -/
def decodeFrom (order : Order) (pos : Nat) (pending : Option Pending) :
    Bytes → Except DecodeFault Text
  | [] =>
    match pending with
    | none => .ok []
    | some q => .error ⟨order.codec, pos - 2, q.first, 2, .endOfData⟩
  | [b] =>
    match pending with
    | none => .error ⟨order.codec, pos, b, 1, .truncatedUnit⟩
    | some q => .error ⟨order.codec, pos - 2, q.first, 3, .endOfData⟩
  | a :: b :: bs =>
    let u := order.unit a b
    match pending with
    | none =>
      if isHigh u then decodeFrom order (pos + 2) (some ⟨a, u⟩) bs
      else if isLow u then .error ⟨order.codec, pos, a, 2, .loneLowSurrogate⟩
      else return Char.ofNat u :: (← decodeFrom order (pos + 2) none bs)
    | some q =>
      if isLow u then
        let value := 0x10000 + (q.high - 0xd800) * 0x400 + (u - 0xdc00)
        return Char.ofNat value :: (← decodeFrom order (pos + 2) none bs)
      else .error ⟨order.codec, pos - 2, q.first, 2, .brokenPair⟩

/-- The text of bytes with the lower byte first. -/
def decodeLittle (bs : Bytes) : Except DecodeFault Text :=
  decodeFrom .little 0 none bs

/-- The text of bytes, in the order that the byte order mark gives. -/
def decode : Bytes → Except DecodeFault Text
  | 0xff :: 0xfe :: bs => decodeFrom .little 2 none bs
  | 0xfe :: 0xff :: bs => decodeFrom .big 2 none bs
  | bs => decodeLittle bs

/-- The bytes of a unit, the lower byte first. -/
def encodeUnit (u : Nat) : Bytes :=
  [(u % 0x100).toUInt8, (u / 0x100).toUInt8]

/-- The bytes of a character, the lower byte of a unit first. -/
def encodeChar (c : Char) : Bytes :=
  let n := c.toNat
  if n < 0x10000 then encodeUnit n
  else
    encodeUnit (0xd800 + (n - 0x10000) / 0x400) ++ encodeUnit (0xdc00 + (n - 0x10000) % 0x400)

/-- The bytes of a text, the lower byte of a unit first. -/
def encodeLittle (t : Text) : Bytes :=
  t.flatMap encodeChar

/-- The bytes of a text after a byte order mark, the lower byte of a unit first. -/
def encode (t : Text) : Bytes :=
  [0xff, 0xfe] ++ encodeLittle t

end Utf16

end DollarMath
