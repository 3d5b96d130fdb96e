/-!
# Tallies

How many formulas a conversion has rewritten, inline ones and blocks apart, and the sentence
that reports it.
-/

namespace DollarMath

/-- A count of rewritten formulas. -/
structure Tally where
  /-- Inline formulas. -/
  inline : Int
  /-- Displayed formulas, each a block. -/
  block : Int
deriving DecidableEq, Repr

namespace Tally

/-- Nothing rewritten. -/
def zero : Tally := ⟨0, 0⟩

/-- A tally of inline formulas only. -/
def ofInline (n : Nat) : Tally := ⟨n, 0⟩

/-- A tally of blocks only. -/
def ofBlock (n : Nat) : Tally := ⟨0, n⟩

instance : Zero Tally := ⟨zero⟩

instance : Add Tally := ⟨fun a b => ⟨a.inline + b.inline, a.block + b.block⟩⟩

/-- The number of formulas of either kind. -/
def total (a : Tally) : Int := a.inline + a.block

/-- The kinds that a tally counts, in parentheses. -/
def kinds (a : Tally) : String :=
  if a.inline ≠ 0 ∧ a.block ≠ 0 then
    "(" ++ toString a.inline ++ " inline, " ++ toString a.block ++ " block)"
  else if a.inline ≠ 0 then "(inline)"
  else "(block)"

/-- One sentence on what has been rewritten. -/
def summary (a : Tally) : String :=
  if a.total = 0 then "No changes required"
  else
    let noun := if a.total = 1 then " formula " else " formulas "
    "Converted " ++ toString a.total ++ noun ++ a.kinds

end Tally

end DollarMath
