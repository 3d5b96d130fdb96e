import DollarMath.Text.Blank

/-!
# Texts

A text is a list of characters.  Its lines keep their own line ends, so that the lines of a
text concatenate to the text.
-/

namespace DollarMath

/-- A text: a list of characters. -/
abbrev Text := List Char

/-- A text without the blank characters at its front. -/
def trimLeft (t : Text) : Text :=
  t.dropWhile isBlank

/-- A text without the blank characters at its end. -/
def trimRight (t : Text) : Text :=
  (t.reverse.dropWhile isBlank).reverse

/-- A text without the blank characters at its two ends. -/
def trim (t : Text) : Text :=
  trimRight (trimLeft t)

/-- The text `w` occurs somewhere in a text. -/
def occurs (w : Text) : Text → Bool
  | [] => w.isEmpty
  | c :: cs => w.isPrefixOf (c :: cs) || occurs w cs

/-- The lines of a text, each with its line feed; the last line may have none. -/
def lines : Text → List Text
  | [] => []
  | c :: cs =>
    if c = '\n' then
      ['\n'] :: lines cs
    else
      match lines cs with
      | [] => [[c]]
      | l :: ls => (c :: l) :: ls

@[simp]
theorem flatten_lines (t : Text) :
  (lines t).flatten = t
  := by
  induction t with
  | nil => rfl
  | cons c cs ih =>
    rw [lines]
    split
    · simp_all
    · split <;> simp_all

end DollarMath
