import DollarMath.Text.Basic

/-!
# Patterns

A pattern looks at the front of a text and gives the number of characters that it takes
there, or nothing when it does not fit.  Patterns follow one another in `inOrder`, and
`upTo` finds the shortest text that stands before a place where a pattern fits.
-/

namespace DollarMath

/-- The number of characters taken at the front of a text, if the text fits. -/
abbrev Pattern := Text → Option Nat

namespace Pattern

/-- Exactly the text `w`. -/
def literal (w : Text) : Pattern :=
  fun t => if w.isPrefixOf t then some w.length else none

/-- The longest run, perhaps empty, of characters of a class. -/
def run (p : Char → Bool) : Pattern :=
  fun t => some (t.takeWhile p).length

/-- A line feed, with or without a carriage return before it. -/
def lineEnd : Pattern
  | '\n' :: _ => some 1
  | '\r' :: '\n' :: _ => some 2
  | _ => none

/-- The end of the text, or the place before a line feed; no character is taken. -/
def lineStop : Pattern
  | [] => some 0
  | c :: _ => if c = '\n' then some 0 else none

/-- Patterns one after another. -/
def inOrder : List Pattern → Pattern
  | [], _ => some 0
  | p :: ps, t => do
    let n ← p t
    let m ← inOrder ps (t.drop n)
    return n + m

/-- The shortest text before a place where the pattern fits, with the number of characters
that the pattern takes there. -/
def upTo (p : Pattern) : Text → Option (Text × Nat)
  | [] => (p []).map fun n => ([], n)
  | c :: cs =>
    match p (c :: cs) with
    | some n => some ([], n)
    | none => (upTo p cs).map fun r => (c :: r.1, r.2)

theorem literal_eq_some_iff {w t : Text} {n : Nat} :
  literal w t = some n ↔ n = w.length ∧ ∃ rest, t = w ++ rest
  := by
  rw [literal]
  split
  · next h =>
    obtain ⟨rest, rfl⟩ := List.isPrefixOf_iff_prefix.mp h
    simp [eq_comm]
  · next h =>
    simp only [reduceCtorEq, false_iff, not_and, not_exists]
    rintro - rest rfl
    simp at h

theorem exists_of_upTo_eq_some {p : Pattern} {t body : Text} {n : Nat}
    (h : p.upTo t = some (body, n)) :
  ∃ rest, t = body ++ rest ∧ p rest = some n
  := by
  induction t generalizing body with
  | nil =>
    obtain ⟨m, hm, heq⟩ := Option.map_eq_some_iff.mp h
    obtain ⟨rfl, rfl⟩ := Prod.mk.inj heq
    exact ⟨[], rfl, hm⟩
  | cons c cs ih =>
    rw [upTo] at h
    split at h
    · next m hm =>
      obtain ⟨rfl, rfl⟩ := Prod.mk.inj (Option.some.inj h)
      exact ⟨c :: cs, rfl, hm⟩
    · obtain ⟨r, hr, heq⟩ := Option.map_eq_some_iff.mp h
      obtain ⟨rfl, rfl⟩ := Prod.mk.inj heq
      obtain ⟨rest, rfl, hp⟩ := ih hr
      exact ⟨rest, rfl, hp⟩

end Pattern

end DollarMath
