import DollarMath.Encoding.Fault

/-!
# UTF-8

A character takes one to four bytes.  The first byte of a longer sequence tells how many
bytes follow and, for the shortest form and the end of the code space, which second byte may
follow.  A fault covers the bytes of the sequence that are in order.
-/

namespace DollarMath

namespace Utf8

/-- A sequence that has begun. -/
structure Pending where
  /-- The position of its first byte. -/
  start : Nat
  /-- Its first byte. -/
  first : UInt8
  /-- The bits read so far. -/
  value : Nat
  /-- The number of bytes that must follow. -/
  missing : Nat
  /-- The least byte that may follow. -/
  low : Nat
  /-- The greatest byte that may follow. -/
  high : Nat
deriving DecidableEq, Repr

/-- The sequence that the byte `b` at position `pos` begins, of two bytes or more. -/
def Pending.ofFirst? (pos : Nat) (b : UInt8) : Option Pending :=
  let n := b.toNat
  if 0xc2 ≤ n ∧ n ≤ 0xdf then some ⟨pos, b, n - 0xc0, 1, 0x80, 0xbf⟩
  else if n = 0xe0 then some ⟨pos, b, 0, 2, 0xa0, 0xbf⟩
  else if n = 0xed then some ⟨pos, b, 0xd, 2, 0x80, 0x9f⟩
  else if 0xe1 ≤ n ∧ n ≤ 0xef then some ⟨pos, b, n - 0xe0, 2, 0x80, 0xbf⟩
  else if n = 0xf0 then some ⟨pos, b, 0, 3, 0x90, 0xbf⟩
  else if 0xf1 ≤ n ∧ n ≤ 0xf3 then some ⟨pos, b, n - 0xf0, 3, 0x80, 0xbf⟩
  else if n = 0xf4 then some ⟨pos, b, 4, 3, 0x80, 0x8f⟩
  else none

/-- The fault of a sequence that ends before position `pos`. -/
def Pending.fault (q : Pending) (pos : Nat) (cause : DecodeFault.Cause) : DecodeFault :=
  ⟨"utf-8", q.start, q.first, pos - q.start, cause⟩

/-- The text of bytes that start at position `pos`, inside the sequence `pending` if there is
one. -/
def decodeFrom (pos : Nat) (pending : Option Pending) : Bytes → Except DecodeFault Text
  | [] =>
    match pending with
    | none => .ok []
    | some q => .error (q.fault pos .endOfData)
  | b :: bs =>
    let n := b.toNat
    match pending with
    | none =>
      if n < 0x80 then return Char.ofNat n :: (← decodeFrom (pos + 1) none bs)
      else
        match Pending.ofFirst? pos b with
        | none => .error ⟨"utf-8", pos, b, 1, .startByte⟩
        | some q => decodeFrom (pos + 1) (some q) bs
    | some q =>
      if q.low ≤ n ∧ n ≤ q.high then
        let value := q.value * 64 + (n - 0x80)
        if q.missing = 1 then return Char.ofNat value :: (← decodeFrom (pos + 1) none bs)
        else
          let q := ⟨q.start, q.first, value, q.missing - 1, 0x80, 0xbf⟩
          decodeFrom (pos + 1) (some q) bs
      else .error (q.fault pos .continuationByte)

/-- The text of bytes. -/
def decode (bs : Bytes) : Except DecodeFault Text :=
  decodeFrom 0 none bs

/-- The bytes of a character. -/
def encodeChar (c : Char) : Bytes :=
  let n := c.toNat
  if n < 0x80 then [n.toUInt8]
  else if n < 0x800 then [(0xc0 + n / 0x40).toUInt8, (0x80 + n % 0x40).toUInt8]
  else if n < 0x10000 then
    [(0xe0 + n / 0x1000).toUInt8, (0x80 + n / 0x40 % 0x40).toUInt8, (0x80 + n % 0x40).toUInt8]
  else
    [(0xf0 + n / 0x40000).toUInt8, (0x80 + n / 0x1000 % 0x40).toUInt8,
      (0x80 + n / 0x40 % 0x40).toUInt8, (0x80 + n % 0x40).toUInt8]

/-- The bytes of a text. -/
def encode (t : Text) : Bytes :=
  t.flatMap encodeChar

/-- The byte order mark, which serves as a signature. -/
def signature : Bytes := [0xef, 0xbb, 0xbf]

/-- The text of bytes, without a signature at the front. -/
def decodeSigned (bs : Bytes) : Except DecodeFault Text :=
  decode (if signature.isPrefixOf bs then bs.drop 3 else bs)

end Utf8

end DollarMath
