import DollarMath.Fence
import DollarMath.Paren

/-!
# Documents

The conversion of a whole document.  Code segments stay as they are.  In a prose segment
displays come before inline formulas, and brackets before parentheses, so that what one
conversion writes is dollar mathematics for the next one.
-/

namespace DollarMath

/-- The displays of a text, converted. -/
def convertAllDisplays : Conversion :=
  .inOrder [convertQuotedDisplays, collapseQuotedBrackets, convertDisplays,
    convertBracketBlocks, convertBrackets]

/-- A conversion applied to what stands between the dollar mathematics of a text. -/
def Conversion.between (f : Conversion) (scope : Dollars.Scope) : Conversion := fun t =>
  .concat ((chunks scope t).map fun k => if k.isMath then .unchanged k.text else f k.text)

/-- The inline formulas of a text, converted.  Parentheses stay as they are within dollar
mathematics; formulas in backslash parentheses are converted everywhere. -/
def convertAllInlines : Conversion :=
  .inOrder [convertParens.between .all, convertInlines]

/-- The formulas of a text, converted. -/
def convertMath : Conversion :=
  .inOrder [convertAllDisplays, convertAllInlines.between .displays]

namespace LineEnds

/-- A text with a line feed in place of every carriage return and line feed. -/
def toLf : Text → Text
  | [] => []
  | '\r' :: '\n' :: cs => '\n' :: toLf cs
  | c :: cs => c :: toLf cs

/-- A text with a carriage return before every line feed. -/
def toCrlf (t : Text) : Text :=
  t.flatMap fun c => if c = '\n' then ['\r', '\n'] else [c]

/-- A carriage return stands before every line feed of a text; `returned` tells whether one
stands just before the text. -/
def allCrlf (returned : Bool) : Text → Bool
  | [] => true
  | c :: cs => (c ≠ '\n' || returned) && allCrlf (c = '\r') cs

end LineEnds

/-- A prose segment, converted.  When all its lines end in a carriage return and a line feed,
so do the lines of the displays written. -/
def convertProse : Conversion := fun t =>
  if t.contains '\n' && LineEnds.allCrlf false t then
    let c := convertMath (LineEnds.toLf t)
    ⟨LineEnds.toCrlf c.text, c.tally⟩
  else convertMath t

/-- A segment, converted. -/
def Segment.convert (s : Segment) : Converted :=
  match s.kind with
  | .code => .unchanged s.content
  | .prose => convertProse s.content

/-- A document, converted. -/
def convertDocument : Conversion := fun t =>
  .concat ((segments t).map Segment.convert)

example :
  convertDocument ['(', 'x', '=', '2', ')'] = ⟨['$', 'x', '=', '2', '$'], ⟨1, 0⟩⟩
  := by decide

example :
  convertDocument ['\\', '[', ' ', 'x', '\\', ']']
    = ⟨['$', '$', '\n', 'x', '\n', '$', '$'], ⟨0, 1⟩⟩
  := by decide

example :
  convertDocument ['\x60', '\x60', '\x60', '\n', '(', '1', ')']
    = ⟨['\x60', '\x60', '\x60', '\n', '(', '1', ')'], 0⟩
  := by decide

/-- What is worth a line in the log. -/
inductive Event where
  /-- A code segment has been kept. -/
  | kept (segment : Nat) (length : Nat)
  /-- Formulas of a prose segment have been rewritten. -/
  | converted (segment : Nat) (tally : Tally)
deriving DecidableEq, Repr

namespace Event

/-- The event of a segment, if there is one. -/
def ofSegment (i : Nat) (s : Segment) : Option Event :=
  match s.kind with
  | .code => some (.kept i s.content.length)
  | .prose =>
    let tally := (convertProse s.content).tally
    if tally.total = 0 then none else some (.converted i tally)

/-- The line of an event in the log. -/
def message : Event → String
  | kept i n => "segment " ++ toString i ++ ": code block, " ++ toString n ++ " chars kept"
  | converted i a =>
    "segment " ++ toString i ++ ": " ++ toString a.inline ++ " inline, "
      ++ toString a.block ++ " block"

end Event

/-- The events of the conversion of a document, in order. -/
def events (t : Text) : List Event :=
  (segments t).zipIdx.filterMap fun (s, i) => Event.ofSegment i s

end DollarMath
