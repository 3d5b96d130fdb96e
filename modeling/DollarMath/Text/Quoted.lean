import DollarMath.Text.Basic
import DollarMath.Text.Printable

/-!
# Quoted texts

A text inside a message stands between quotation marks: single ones, unless the text holds a
single one and no double one.  A backslash, the quotation mark in use and every character
that is not printable are written as escapes, so that the message stays on one line.
-/

namespace DollarMath

/-- The last `width` hexadecimal digits of a number. -/
def hexDigits : Nat → Nat → Text
  | 0, _ => []
  | width + 1, n => hexDigits width (n / 16) ++ [Nat.digitChar (n % 16)]

namespace Quoted

/-- The quotation mark for a text. -/
def mark (t : Text) : Char :=
  if t.contains '\x27' && !t.contains '"' then '"' else '\x27'

/-- A character between quotation marks `q`. -/
def escape (q c : Char) : Text :=
  if c = q || c = '\\' then ['\\', c]
  else if c = '\n' then ['\\', 'n']
  else if c = '\r' then ['\\', 'r']
  else if c = '\t' then ['\\', 't']
  else if isPrintable c then [c]
  else if c.toNat < 0x100 then ['\\', 'x'] ++ hexDigits 2 c.toNat
  else if c.toNat < 0x10000 then ['\\', 'u'] ++ hexDigits 4 c.toNat
  else ['\\', 'U'] ++ hexDigits 8 c.toNat

end Quoted

/-- A text between quotation marks. -/
def quoted (t : Text) : Text :=
  let q := Quoted.mark t
  [q] ++ t.flatMap (Quoted.escape q) ++ [q]

end DollarMath
