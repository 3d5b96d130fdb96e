import DollarMath.Text.Ranges

/-!
# Blank characters

The blank characters of Unicode.  Zero-width characters such as U+200B and U+FEFF are not
blank.
-/

namespace DollarMath

/-- The ranges of the blank characters. -/
def blankRanges : CodeRanges :=
  [(0x9, 0xd), (0x1c, 0x20), (0x85, 0x85), (0xa0, 0xa0), (0x1680, 0x1680), (0x2000, 0x200a),
   (0x2028, 0x2029), (0x202f, 0x202f), (0x205f, 0x205f), (0x3000, 0x3000)]

/-- A blank character: a space, a tab, a line or paragraph separator. -/
def isBlank (c : Char) : Bool :=
  blankRanges.has c

/-- A space or a tab. -/
def isSpaceOrTab (c : Char) : Bool :=
  c = ' ' || c = '\t'

end DollarMath
