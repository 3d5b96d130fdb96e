import DollarMath.Text.Basic

/-!
# Fenced code

A fence is a line of three or more backticks, or three or more tildes, after blank
characters only; anything may follow on the line.  A fence opens a code segment, which runs
through the next line with a fence of the same mark that is at least as long, or to the end
of the text when there is none.  The rest of the text is prose.
-/

namespace DollarMath

/-- A fence: its mark and how often the mark is repeated. -/
structure Fence where
  /-- The backtick or the tilde. -/
  mark : Char
  /-- The number of marks in the run. -/
  length : Nat
deriving DecidableEq, Repr

namespace Fence

/-- The fence on a line, if the line is a fence. -/
def ofLine? (l : Text) : Option Fence :=
  match l.dropWhile isBlank with
  | [] => none
  | c :: cs =>
    let n := ((c :: cs).takeWhile (· = c)).length
    if (c = '\x60' ∨ c = '~') ∧ 3 ≤ n then some ⟨c, n⟩ else none

/-- The line `l` is a fence that closes the code opened by the fence `f`. -/
def closedBy (f : Fence) (l : Text) : Bool :=
  (ofLine? l).any fun g => g.mark = f.mark && f.length ≤ g.length

end Fence

/-- What a segment of a document holds. -/
inductive Segment.Kind where
  /-- Fenced code, with its fences. -/
  | code
  /-- Everything else. -/
  | prose
deriving DecidableEq, Repr

/-- A segment of a document: whole lines, all code or all prose. -/
structure Segment where
  /-- Code or prose. -/
  kind : Segment.Kind
  /-- The lines of the segment. -/
  content : Text
deriving DecidableEq, Repr

namespace Segment

/-- The prose `t` before other segments; empty prose is no segment. -/
def consProse (t : Text) (segments : List Segment) : List Segment :=
  if t.isEmpty then segments else ⟨.prose, t⟩ :: segments

/-- The lines that still belong to the current segment, and the segments after it.  The
current segment is code when `opened` is the fence that opened it, and prose when it is
`none`. -/
def ofLines (opened : Option Fence) : List Text → Text × List Segment
  | [] => ([], [])
  | l :: ls =>
    match opened with
    | none =>
      match Fence.ofLine? l with
      | none =>
        let (t, segments) := ofLines none ls
        (l ++ t, segments)
      | some f =>
        let (t, segments) := ofLines (some f) ls
        ([], ⟨.code, l ++ t⟩ :: segments)
    | some f =>
      if f.closedBy l then
        let (t, segments) := ofLines none ls
        (l, consProse t segments)
      else
        let (t, segments) := ofLines (some f) ls
        (l ++ t, segments)

end Segment

/-- The segments of a text. -/
def segments (t : Text) : List Segment :=
  let (prose, rest) := Segment.ofLines none (lines t)
  Segment.consProse prose rest

namespace Segment

@[simp]
theorem flatMap_content_consProse (t : Text) (s : List Segment) :
  (consProse t s).flatMap content = t ++ s.flatMap content
  := by
  cases t <;> simp [consProse]

theorem flatMap_content_ofLines (opened : Option Fence) (ls : List Text) :
  (ofLines opened ls).1 ++ (ofLines opened ls).2.flatMap content = ls.flatten
  := by
  induction ls generalizing opened with
  | nil => rfl
  | cons l ls ih =>
    rw [ofLines.eq_def]
    cases opened with
    | none =>
      dsimp only
      split <;> simp [ih]
    | some f =>
      dsimp only
      split <;> simp [ih]

end Segment

/-- The segments of a text concatenate to the text. -/
@[simp]
theorem flatMap_content_segments (t : Text) :
  (segments t).flatMap Segment.content = t
  := by
  simp [segments, Segment.flatMap_content_ofLines]

end DollarMath
