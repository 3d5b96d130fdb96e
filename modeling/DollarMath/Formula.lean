import DollarMath.Dollar
import DollarMath.Quote

/-!
# Backslash delimiters and brackets

The conversions of displays, bracket blocks, brackets and inline formulas.  A bracket is
converted only when it looks like mathematics, lies outside the dollar mathematics of the
text, and is no link, no link definition, no page link and no footnote.
-/

namespace DollarMath

/-- A body as a display on lines of its own. -/
def displayOf (body : Text) : Text :=
  ['$', '$', '\n'] ++ trim body ++ ['\n', '$', '$']

/-- A body as an inline formula. -/
def inlineOf (body : Text) : Text :=
  ['$'] ++ trim body ++ ['$']

/-- Displays between backslash brackets, converted. -/
def convertDisplays : Conversion := fun t =>
  (Delimiter.display.reader.replace (fun m => some (displayOf m.value.body)) t).block

/-- Bracket blocks that look like mathematics, converted; a marker stays in front of the
display. -/
def convertBracketBlocks : Conversion := fun t =>
  (Delimiter.bracketBlock.reader.replaceOutside .all (fun m =>
    if looksMath m.value.body then some (m.value.marker ++ displayOf m.value.body)
    else none) t).block

/-- A bracket that may be converted: it is not followed by a parenthesis or a colon, as links
and link definitions are, does not open with two brackets, as page links do, and its body is
mathematics. -/
def isMathBracket (m : Match Enclosure) : Bool :=
  !m.rest.head?.any (fun c => c = '(' || c = ':')
    && m.value.body.head? ≠ some '['
    && isBracketMath m.value.body

/-- Brackets that hold mathematics, converted. -/
def convertBrackets : Conversion := fun t =>
  (Delimiter.bracket.reader.replaceOutside .all (fun m =>
    if isMathBracket m then some (displayOf m.value.body) else none) t).block

/-- Inline formulas between backslash parentheses, converted. -/
def convertInlines : Conversion := fun t =>
  (Delimiter.inline.reader.replace (fun m => some (inlineOf m.value.body)) t).inline

end DollarMath
