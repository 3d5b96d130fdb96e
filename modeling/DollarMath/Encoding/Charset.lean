import DollarMath.Encoding.CodePage
import DollarMath.Encoding.Utf16
import DollarMath.Encoding.Utf8

/-!
# Character sets

Encodings of a text as the bytes of a file.
-/

namespace DollarMath

/-- An encoding of texts. -/
inductive Charset where
  /-- UTF-8; a byte order mark is a character of the text. -/
  | utf8
  /-- UTF-8 with a signature, which is no part of the text. -/
  | utf8Signed
  /-- UTF-16 with a byte order mark. -/
  | utf16
  /-- UTF-16 with the lower byte first and no byte order mark. -/
  | utf16Little
  /-- One byte for each character. -/
  | page (p : CodePage)
deriving DecidableEq, Repr

namespace Charset

/-- The text of bytes. -/
def decode : Charset → Bytes → Except DecodeFault Text
  | utf8 => Utf8.decode
  | utf8Signed => Utf8.decodeSigned
  | utf16 => Utf16.decode
  | utf16Little => Utf16.decodeLittle
  | page p => p.decode

/-- The bytes of a text. -/
def encode : Charset → Text → Except EncodeFault Bytes
  | utf8, t => .ok (Utf8.encode t)
  | utf8Signed, t => .ok (Utf8.signature ++ Utf8.encode t)
  | utf16, t => .ok (Utf16.encode t)
  | utf16Little, t => .ok (Utf16.encodeLittle t)
  | page p, t => p.encode t

end Charset

end DollarMath
