import DollarMath.Reader
import DollarMath.Tally

/-!
# Conversions

A conversion rewrites formulas of a text and tallies them.  Conversions follow one another,
and their tallies add up.
-/

namespace DollarMath

/-- A text after a conversion, with the tally of its rewritten formulas. -/
structure Converted where
  /-- The new text. -/
  text : Text
  /-- The rewritten formulas. -/
  tally : Tally
deriving DecidableEq, Repr

/-- A function that rewrites formulas of a text. -/
abbrev Conversion := Text → Converted

namespace Converted

/-- A text with nothing rewritten. -/
def unchanged (t : Text) : Converted := ⟨t, .zero⟩

/-- One more conversion of a converted text. -/
def andThen (a : Converted) (f : Conversion) : Converted :=
  let b := f a.text
  ⟨b.text, a.tally + b.tally⟩

/-- Two converted texts, one after the other. -/
def append (a b : Converted) : Converted :=
  ⟨a.text ++ b.text, a.tally + b.tally⟩

instance : Append Converted := ⟨append⟩

/-- Converted texts, one after another. -/
def concat (parts : List Converted) : Converted :=
  parts.foldr (· ++ ·) (unchanged [])

end Converted

namespace Conversion

/-- Conversions from first to last, each on the text that the one before has left. -/
def inOrder (steps : List Conversion) : Conversion :=
  fun t => steps.foldl Converted.andThen (.unchanged t)

end Conversion

/-- A text after a replacement, each construct counted as one inline formula. -/
def Replaced.inline (r : Replaced) : Converted := ⟨r.text, .ofInline r.count⟩

/-- A text after a replacement, each construct counted as one block. -/
def Replaced.block (r : Replaced) : Converted := ⟨r.text, .ofBlock r.count⟩

end DollarMath
