/-!
# Ranges of code points

A class of characters given by a table of closed ranges of code points, in rising order.
-/

namespace DollarMath

/-- A table of closed ranges of code points. -/
abbrev CodeRanges := List (Nat × Nat)

/-- Membership of a character in one of the ranges of a table.  The search ends at the first
range beyond the character, since the ranges rise. -/
def CodeRanges.has : CodeRanges → Char → Bool
  | [], _ => false
  | r :: rs, c => r.1 ≤ c.toNat && (c.toNat ≤ r.2 || CodeRanges.has rs c)

end DollarMath
