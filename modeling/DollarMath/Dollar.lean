import DollarMath.Pattern
import DollarMath.Reader
import DollarMath.Text.Digit

/-!
# Dollar mathematics

Mathematics between dollars: a display `$$...$$` ends at the next two dollars, an inline
formula `$...$` at the next dollar.  An inline formula stays on one line, has no blank
character at either end, and is not followed by a digit, so that the prices in
`$5 and $10` are no formula.

A text is cut into chunks: dollar mathematics, and what stands between.  A replacement can
be kept outside the dollar mathematics of a text.
-/

namespace DollarMath

/-- Mathematics between dollars. -/
inductive Dollars where
  /-- Between two dollars on each side. -/
  | display (body : Text)
  /-- Between one dollar on each side. -/
  | inline (body : Text)
deriving DecidableEq, Repr

/-- Which dollar mathematics is looked for. -/
inductive Dollars.Scope where
  /-- Displays only. -/
  | displays
  /-- Displays and inline formulas. -/
  | all
deriving DecidableEq, Repr

namespace Dollars

/-- The body of an inline formula that opens at the place `p` with the text `body` up to the
next dollar: it starts and ends with a character that is not blank, does not end with a
backslash and holds no line feed, and no backslash or dollar stands before the opening
dollar. -/
def isInlineBody (p : Place) (body : Text) : Bool :=
  !p.escaped && p.before ≠ some '$'
    && body.head?.any (fun c => !isBlank c)
    && body.getLast?.any (fun c => !isBlank c && c ≠ '\\')
    && !body.contains '\n'

/-- Reads dollar mathematics. -/
def read (scope : Scope) : Reader Dollars := fun p t =>
  match t with
  | '$' :: '$' :: cs =>
    (Pattern.upTo (.literal ['$', '$']) cs).map fun r => (.display r.1, r.1.length + 4)
  | '$' :: cs =>
    match scope with
    | .displays => none
    | .all =>
      let body := cs.takeWhile (· ≠ '$')
      match cs.drop body.length with
      | [] => none
      | _ :: after =>
        if isInlineBody p body && !after.head?.any isDigit then
          some (.inline body, body.length + 2)
        else none
  | _ => none

end Dollars

/-- The spans of the dollar mathematics of a text, from left to right. -/
def dollarSpans (scope : Dollars.Scope) (t : Text) : List Span :=
  ((Dollars.read scope).findAll t).map Match.span

/-- A part of a text: dollar mathematics, or text without any. -/
structure Chunk where
  /-- Dollar mathematics. -/
  isMath : Bool
  /-- The characters of the chunk. -/
  text : Text
deriving DecidableEq, Repr

namespace Chunk

/-- The chunks of pieces: neighbouring single characters form one chunk. -/
def ofPieces : List (Piece Dollars) → List Chunk
  | [] => []
  | .found m :: ps => ⟨true, m.source⟩ :: ofPieces ps
  | .char c :: ps =>
    match ofPieces ps with
    | ⟨false, t⟩ :: chunks => ⟨false, c :: t⟩ :: chunks
    | chunks => ⟨false, [c]⟩ :: chunks

theorem flatMap_text_ofPieces (ps : List (Piece Dollars)) :
  (ofPieces ps).flatMap text = ps.flatMap Piece.source
  := by
  induction ps with
  | nil => rfl
  | cons piece ps ih =>
    cases piece with
    | found m => simp [ofPieces, Piece.source, ih]
    | char c =>
      rw [ofPieces, List.flatMap_cons, ← ih]
      split
      · next heq => simp [heq, Piece.source]
      · simp [Piece.source]

end Chunk

/-- The chunks of a text. -/
def chunks (scope : Dollars.Scope) (t : Text) : List Chunk :=
  Chunk.ofPieces ((Dollars.read scope).pieces t)

@[simp]
theorem flatMap_text_chunks (scope : Dollars.Scope) (t : Text) :
  (chunks scope t).flatMap Chunk.text = t
  := by
  simp [chunks, Chunk.flatMap_text_ofPieces]

/-- The span `s` shares a character with one of the given spans, which are disjoint and in
order: it is enough to look at the last one that starts before `s` ends. -/
def Span.touches (s : Span) (spans : List Span) : Bool :=
  (spans.takeWhile fun d => d.start < s.stop).getLast?.any fun d => s.start < d.stop

/-- Every match that touches no dollar mathematics and for which `f` gives a text, replaced
by that text. -/
def Reader.replaceOutside {α : Type} (r : Reader α) (scope : Dollars.Scope)
    (f : Match α → Option Text) (t : Text) : Replaced :=
  let spans := dollarSpans scope t
  r.replace (fun m => if m.span.touches spans then none else f m) t

end DollarMath
