import DollarMath.Text.Basic

/-!
# Readers

A reader recognises one kind of construct at the front of a text.  It may look at the place
where it stands, but takes characters of the text only.  A text is cut from left to right
into pieces: a match of the reader wherever one starts, and single characters elsewhere.
Matches never overlap, and a match that takes no character does not count.
-/

namespace DollarMath

/-- A place in a text: how many characters stand before it, and the last one of them. -/
structure Place where
  /-- The number of characters before the place. -/
  offset : Nat
  /-- The character just before the place. -/
  before : Option Char
deriving DecidableEq, Repr

namespace Place

/-- The place before the first character. -/
def start : Place := ⟨0, none⟩

/-- The place after one more character. -/
def next (p : Place) (c : Char) : Place := ⟨p.offset + 1, some c⟩

/-- The place after a text. -/
def after (p : Place) (t : Text) : Place := t.foldl next p

/-- A place at the start of a line. -/
def atLineStart (p : Place) : Bool :=
  p.before = none || p.before = some '\n'

/-- A place just after a backslash. -/
def escaped (p : Place) : Bool :=
  p.before = some '\\'

end Place

/-- The characters of a text from `start` up to but not including `stop`. -/
structure Span where
  /-- The first position. -/
  start : Nat
  /-- The position after the last one. -/
  stop : Nat
deriving DecidableEq, Repr

/-- A reader gives the value read at the front of a text and the number of its characters. -/
abbrev Reader (α : Type) := Place → Text → Option (α × Nat)

/-- A construct found in a text. -/
structure Match (α : Type) where
  /-- The number of characters before the construct. -/
  start : Nat
  /-- The characters of the construct. -/
  source : Text
  /-- What the construct is. -/
  value : α
  /-- The characters after the construct. -/
  rest : Text
deriving DecidableEq, Repr

/-- The span of a match. -/
def Match.span {α : Type} (m : Match α) : Span :=
  ⟨m.start, m.start + m.source.length⟩

/-- A piece of a text: a single character, or a construct. -/
inductive Piece (α : Type) where
  /-- A character where no construct starts. -/
  | char (c : Char)
  /-- A construct. -/
  | found (m : Match α)
deriving DecidableEq, Repr

namespace Piece

variable {α : Type}

/-- The characters of a piece. -/
def source : Piece α → Text
  | char c => [c]
  | found m => m.source

/-- The match of a piece, if it is one. -/
def match? : Piece α → Option (Match α)
  | char _ => none
  | found m => some m

end Piece

namespace Reader

variable {α : Type}

/-- The pieces of a text from a place on, when `skip` more of its characters belong to the
match read last. -/
def piecesFrom (r : Reader α) (skip : Nat) (p : Place) : Text → List (Piece α)
  | [] => []
  | c :: cs =>
    match skip with
    | n + 1 => piecesFrom r n (p.next c) cs
    | 0 =>
      match r p (c :: cs) with
      | some (a, n + 1) =>
        .found ⟨p.offset, c :: cs.take n, a, cs.drop n⟩ :: piecesFrom r n (p.next c) cs
      | _ => .char c :: piecesFrom r 0 (p.next c) cs

/-- The pieces of a text. -/
def pieces (r : Reader α) (t : Text) : List (Piece α) :=
  r.piecesFrom 0 .start t

/-- The matches in a text, from left to right. -/
def findAll (r : Reader α) (t : Text) : List (Match α) :=
  (r.pieces t).filterMap Piece.match?

/-- Skipping is the same as starting later. -/
theorem piecesFrom_skip (r : Reader α) (n : Nat) (p : Place) (t : Text) :
  r.piecesFrom n p t = r.piecesFrom 0 (p.after (t.take n)) (t.drop n)
  := by
  induction n generalizing p t with
  | zero => simp [Place.after]
  | succ n ih =>
    cases t with
    | nil => simp [piecesFrom]
    | cons c cs => simp [piecesFrom, ih, Place.after]

theorem flatMap_source_piecesFrom (r : Reader α) (n : Nat) (p : Place) (t : Text) :
  (r.piecesFrom n p t).flatMap Piece.source = t.drop n
  := by
  induction t generalizing n p with
  | nil => simp [piecesFrom]
  | cons c cs ih =>
    cases n with
    | succ n => simp [piecesFrom, ih]
    | zero =>
      rw [piecesFrom]
      split <;> simp [Piece.source, ih]

/-- The pieces of a text concatenate to the text. -/
@[simp]
theorem flatMap_source_pieces (r : Reader α) (t : Text) :
  (r.pieces t).flatMap Piece.source = t
  := by
  simp [pieces, flatMap_source_piecesFrom]

theorem exists_of_mem_piecesFrom {r : Reader α} {n : Nat} {p : Place} {t : Text} {m : Match α}
    (h : .found m ∈ r.piecesFrom n p t) :
  ∃ q u k, r q u = some (m.value, k) ∧ m.source = u.take k ∧ m.rest = u.drop k
  := by
  induction t generalizing n p with
  | nil => simp [piecesFrom] at h
  | cons c cs ih =>
    cases n with
    | succ n =>
      rw [piecesFrom] at h
      exact ih h
    | zero =>
      rw [piecesFrom] at h
      split at h
      · next a k hr =>
        rcases List.mem_cons.mp h with heq | h
        · obtain rfl := Piece.found.inj heq
          exact ⟨p, c :: cs, k + 1, hr, rfl, rfl⟩
        · exact ih h
      · rcases List.mem_cons.mp h with heq | h
        · cases heq
        · exact ih h

theorem exists_of_mem_findAll {r : Reader α} {t : Text} {m : Match α}
    (h : m ∈ r.findAll t) :
  ∃ q u k, r q u = some (m.value, k) ∧ m.source = u.take k ∧ m.rest = u.drop k
  := by
  obtain ⟨piece, hmem, heq⟩ := List.mem_filterMap.mp h
  cases piece with
  | char c => cases heq
  | found m' =>
    obtain rfl := Option.some.inj heq
    exact exists_of_mem_piecesFrom hmem

end Reader

/-- A text after a replacement, with the number of constructs replaced. -/
structure Replaced where
  /-- The new text. -/
  text : Text
  /-- How many constructs have been replaced. -/
  count : Nat
deriving DecidableEq, Repr

namespace Reader

variable {α : Type}

/-- Every match for which `f` gives a text, replaced by that text. -/
def replace (r : Reader α) (f : Match α → Option Text) (t : Text) : Replaced where
  text := (r.pieces t).flatMap fun
    | .char c => [c]
    | .found m => (f m).getD m.source
  count := (r.findAll t).countP fun m => (f m).isSome

end Reader

end DollarMath
