import DollarMath.Command
import DollarMath.Conversion
import DollarMath.Delimiter
import DollarMath.Likeness

/-!
# Quoted blocks

A block of quoted lines is rewritten to a single quoted line.  With backslash delimiters it
becomes a display; with plain brackets it becomes a bracket, which is converted later with
the other brackets of the text.
-/

namespace DollarMath

namespace Quote

/-- The lines of a text without their line ends. -/
def bareLines : Text → List Text
  | [] => [[]]
  | '\n' :: cs => [] :: bareLines cs
  | '\r' :: '\n' :: cs => [] :: bareLines cs
  | c :: cs =>
    match bareLines cs with
    | [] => [[c]]
    | l :: ls => (c :: l) :: ls

/-- A line without its quote mark and the spaces and tabs after the mark. -/
def dropMark : Text → Text
  | '>' :: cs => cs.dropWhile isSpaceOrTab
  | l => l

/-- The lines of a quoted text without their quote marks, joined by spaces. -/
def unquote (t : Text) : Text :=
  trim (List.intercalate [' '] ((bareLines t).map dropMark))

end Quote

/-- The body of a bracket is mathematics unless it is a footnote mark, which starts
with `^`. -/
def isBracketMath (body : Text) : Bool :=
  body.head? ≠ some '^' && (hasCommand body || looksMath body)

/-- Quoted blocks between backslash brackets, each rewritten to one quoted line with a
display. -/
def convertQuotedDisplays : Conversion := fun t =>
  (Delimiter.quotedDisplay.reader.replace (fun m =>
    some (['>', ' ', '$', '$', ' '] ++ Quote.unquote m.value.body ++ [' ', '$', '$'])) t).block

/-- Quoted blocks between plain brackets, each rewritten to one quoted line with a bracket.
A block is left as it is when that bracket would not be converted in its turn.  Nothing is
tallied. -/
def collapseQuotedBrackets : Conversion := fun t =>
  .unchanged (Delimiter.quotedBracket.reader.replace (fun m =>
    let body := Quote.unquote m.value.body
    if body.contains ']' || body.contains '$' || !isBracketMath body then none
    else some (['>', ' ', '[', ' '] ++ body ++ [' ', ']'])) t).text

end DollarMath
