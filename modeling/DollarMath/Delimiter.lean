import DollarMath.Pattern
import DollarMath.Reader

/-!
# Delimiters

Six ways to enclose mathematics without dollars: with backslash delimiters or with plain
brackets, within a line, over lines of their own, or over quoted lines of their own.  Each
has a reader that gives the enclosure, cut into its parts.
-/

namespace DollarMath

/-- A text between delimiters.  Its source is the five parts one after another. -/
structure Enclosure where
  /-- Spaces and tabs before the marker, on the opening line of a block. -/
  indent : Text
  /-- A heading, list or quote marker before the opening bracket, with the blanks after it. -/
  marker : Text
  /-- The opening delimiter; for a block, through the end of its line. -/
  opening : Text
  /-- The text between the delimiters. -/
  body : Text
  /-- The closing delimiter; for a block, from the line end before it. -/
  closing : Text
deriving DecidableEq, Repr

namespace Enclosure

/-- The parts of an enclosure, one after another. -/
def source (e : Enclosure) : Text :=
  e.indent ++ e.marker ++ e.opening ++ e.body ++ e.closing

theorem source_eq_take
    {e : Enclosure} {t : Text} {k : Nat} (rest : Text)
    (ht : t = e.source ++ rest) (hk : k = e.source.length) :
  e.source = t.take k
  := by
  rw [ht, hk, List.take_left]

end Enclosure

/-- A kind of delimiters. -/
inductive Delimiter where
  /-- A block of quoted lines between `> \[` and `> \]`. -/
  | quotedDisplay
  /-- A block of quoted lines between `> [` and `> ]`. -/
  | quotedBracket
  /-- A display `\[...\]`, over any number of lines. -/
  | display
  /-- A block between lines that hold only `[`, perhaps after a marker, and only `]`. -/
  | bracketBlock
  /-- A bracket `[...]`. -/
  | bracket
  /-- An inline formula `\(...\)`, on one line. -/
  | inline
deriving DecidableEq, Repr

namespace Delimiter

/-- The blanks within a line. -/
def spaces : Pattern := .run isSpaceOrTab

/-- The opening line of a quoted block. -/
def quotedOpening (mark : Text) : Pattern :=
  .inOrder [.literal ['>'], spaces, .literal mark, spaces, .lineEnd]

/-- The closing line of a quoted block, with the line end before it. -/
def quotedClosing (mark : Text) : Pattern :=
  .inOrder [.lineEnd, .literal ['>'], spaces, .literal mark, spaces, .lineStop]

/-- Reads a quoted block. -/
def readQuoted (openMark closeMark : Text) : Reader Enclosure := fun p t =>
  if p.atLineStart then do
    let n ← quotedOpening openMark t
    let (body, m) ← Pattern.upTo (quotedClosing closeMark) (t.drop n)
    let rest := t.drop (n + body.length)
    return (⟨[], [], t.take n, body, rest.take m⟩, n + body.length + m)
  else none

/-- Reads a display between backslash delimiters.  A backslash before it makes it plain
text. -/
def readDisplay : Reader Enclosure := fun p t =>
  match t with
  | '\\' :: '[' :: cs =>
    if p.escaped then none
    else
      (Pattern.upTo (.literal ['\\', ']']) cs).map fun r =>
        (⟨[], [], ['\\', '['], r.1, ['\\', ']']⟩, r.1.length + 4)
  | _ => none

/-- A character of a heading, list or quote marker. -/
def isMarkerChar (c : Char) : Bool :=
  c ∈ ['#', '>', '-', '*', '+', '.'] || ('0' ≤ c && c ≤ '9')

/-- The marker at the front of a line: its characters and the blank ones after them, of which
some may be line ends.  A line without marker characters has no marker. -/
def markerOf (t : Text) : Text :=
  match t.takeWhile isMarkerChar with
  | [] => []
  | mark => mark ++ (t.drop mark.length).takeWhile isBlank

/-- The opening bracket of a block, through the end of its line. -/
def blockOpening : Pattern :=
  .inOrder [.literal ['['], spaces, .lineEnd]

/-- The closing line of a block, with the line end before it. -/
def blockClosing : Pattern :=
  .inOrder [.lineEnd, spaces, .literal [']'], spaces, .lineStop]

/-- Reads a block between bare bracket lines. -/
def readBracketBlock : Reader Enclosure := fun p t =>
  if p.atLineStart then do
    let indent := t.takeWhile isSpaceOrTab
    let marker := markerOf (t.drop indent.length)
    let before := indent.length + marker.length
    let n ← blockOpening (t.drop before)
    let (body, m) ← Pattern.upTo blockClosing (t.drop (before + n))
    let opening := (t.drop before).take n
    let closing := (t.drop (before + n + body.length)).take m
    return (⟨indent, marker, opening, body, closing⟩, before + n + body.length + m)
  else none

/-- Reads a bracket, which is not empty and ends at the next closing bracket. -/
def readBracket : Reader Enclosure := fun _ t =>
  match t with
  | '[' :: cs =>
    match Pattern.upTo (.literal [']']) cs with
    | some (c :: body, _) =>
      some (⟨[], [], ['['], c :: body, [']']⟩, body.length + 3)
    | _ => none
  | _ => none

/-- Reads an inline formula between backslash delimiters.  Its body has at least one
character, and the first one is taken whatever it is.  A backslash before the formula makes
it plain text. -/
def readInline : Reader Enclosure := fun p t =>
  match t with
  | '\\' :: '(' :: c :: cs =>
    if p.escaped || c = '\n' then none
    else
      (Pattern.upTo (.literal ['\\', ')']) (cs.takeWhile (· ≠ '\n'))).map fun r =>
        (⟨[], [], ['\\', '('], c :: r.1, ['\\', ')']⟩, r.1.length + 5)
  | _ => none

/-- The reader of a kind of delimiters. -/
def reader : Delimiter → Reader Enclosure
  | quotedDisplay => readQuoted ['\\', '['] ['\\', ']']
  | quotedBracket => readQuoted ['['] [']']
  | display => readDisplay
  | bracketBlock => readBracketBlock
  | bracket => readBracket
  | inline => readInline

theorem markerOf_isPrefix (t : Text) :
  markerOf t <+: t
  := by
  rw [markerOf]
  split
  · exact List.nil_prefix
  · obtain ⟨rest, hrest⟩ := t.takeWhile_prefix isMarkerChar
    generalize t.takeWhile isMarkerChar = mark at hrest
    subst hrest
    simpa [List.prefix_append_right_inj] using List.takeWhile_prefix isBlank

theorem source_of_readQuoted
    {openMark closeMark : Text} {p : Place} {t : Text} {e : Enclosure} {k : Nat}
    (h : readQuoted openMark closeMark p t = some (e, k)) :
  e.source = t.take k
  := by
  simp only [readQuoted, Option.ite_none_right_eq_some, Option.bind_eq_bind,
    Option.bind_eq_some_iff] at h
  obtain ⟨-, n, -, ⟨body, m⟩, hbody, heq⟩ := h
  obtain ⟨rfl, rfl⟩ := Prod.mk.inj (Option.some.inj heq)
  obtain ⟨rest, hrest, -⟩ := Pattern.exists_of_upTo_eq_some hbody
  have hb : (t.drop n).take body.length = body := by simp [hrest]
  simp only [Enclosure.source, List.nil_append, List.take_add, hb]

theorem source_of_readDisplay
    {p : Place} {t : Text} {e : Enclosure} {k : Nat}
    (h : readDisplay p t = some (e, k)) :
  e.source = t.take k
  := by
  rw [readDisplay.eq_def] at h
  split at h
  · next cs =>
    simp only [Option.ite_none_left_eq_some, Option.map_eq_some_iff] at h
    obtain ⟨-, ⟨body, m⟩, hbody, heq⟩ := h
    obtain ⟨rfl, rfl⟩ := Prod.mk.inj heq
    obtain ⟨rest, rfl, hrest⟩ := Pattern.exists_of_upTo_eq_some hbody
    obtain ⟨-, rest, rfl⟩ := Pattern.literal_eq_some_iff.mp hrest
    apply Enclosure.source_eq_take rest <;> simp [Enclosure.source]
  · cases h

theorem source_of_readBracketBlock
    {p : Place} {t : Text} {e : Enclosure} {k : Nat}
    (h : readBracketBlock p t = some (e, k)) :
  e.source = t.take k
  := by
  simp only [readBracketBlock, Option.ite_none_right_eq_some, Option.bind_eq_bind,
    Option.bind_eq_some_iff] at h
  obtain ⟨-, n, -, ⟨body, m⟩, hbody, heq⟩ := h
  obtain ⟨rfl, rfl⟩ := Prod.mk.inj (Option.some.inj heq)
  obtain ⟨rest, hrest, -⟩ := Pattern.exists_of_upTo_eq_some hbody
  have hindent := List.prefix_iff_eq_take.mp (t.takeWhile_prefix isSpaceOrTab)
  have hmarker := List.prefix_iff_eq_take.mp
    (markerOf_isPrefix (t.drop (t.takeWhile isSpaceOrTab).length))
  have hb := List.prefix_iff_eq_take.mp ⟨rest, hrest.symm⟩
  simp only [Enclosure.source, List.take_add, ← hindent, ← hmarker, ← hb]

theorem source_of_readBracket
    {p : Place} {t : Text} {e : Enclosure} {k : Nat}
    (h : readBracket p t = some (e, k)) :
  e.source = t.take k
  := by
  rw [readBracket.eq_def] at h
  split at h
  · next cs =>
    split at h
    · next c body m hbody =>
      obtain ⟨rfl, rfl⟩ := Prod.mk.inj (Option.some.inj h)
      obtain ⟨rest, rfl, hrest⟩ := Pattern.exists_of_upTo_eq_some hbody
      obtain ⟨-, rest, rfl⟩ := Pattern.literal_eq_some_iff.mp hrest
      apply Enclosure.source_eq_take rest <;> simp [Enclosure.source]
    · cases h
  · cases h

theorem source_of_readInline
    {p : Place} {t : Text} {e : Enclosure} {k : Nat}
    (h : readInline p t = some (e, k)) :
  e.source = t.take k
  := by
  rw [readInline.eq_def] at h
  split at h
  · next c cs =>
    simp only [Option.ite_none_left_eq_some, Option.map_eq_some_iff] at h
    obtain ⟨-, ⟨body, m⟩, hbody, heq⟩ := h
    obtain ⟨rfl, rfl⟩ := Prod.mk.inj heq
    obtain ⟨rest, hline, hrest⟩ := Pattern.exists_of_upTo_eq_some hbody
    obtain ⟨-, rest, rfl⟩ := Pattern.literal_eq_some_iff.mp hrest
    obtain ⟨tail, htail⟩ := cs.takeWhile_prefix (· ≠ '\n')
    rw [hline] at htail
    subst htail
    apply Enclosure.source_eq_take (rest ++ tail) <;> simp [Enclosure.source]
  · cases h

/-- The parts of an enclosure, one after another, are the characters that its reader has
taken. -/
theorem source_of_reader
    {d : Delimiter} {p : Place} {t : Text} {e : Enclosure} {k : Nat}
    (h : d.reader p t = some (e, k)) :
  e.source = t.take k
  := by
  cases d with
  | quotedDisplay => exact source_of_readQuoted h
  | quotedBracket => exact source_of_readQuoted h
  | display => exact source_of_readDisplay h
  | bracketBlock => exact source_of_readBracketBlock h
  | bracket => exact source_of_readBracket (p := p) h
  | inline => exact source_of_readInline h

/-- The parts of an enclosure found in a text, one after another, are the characters of the
match. -/
theorem source_value_of_mem_findAll
    {d : Delimiter} {t : Text} {m : Match Enclosure} (h : m ∈ d.reader.findAll t) :
  m.value.source = m.source
  := by
  obtain ⟨p, u, k, hread, hsource, -⟩ := Reader.exists_of_mem_findAll h
  rw [hsource]
  exact source_of_reader hread

/-- The named parts of a match: the marker where the kind has one and the text holds it, and
the body. -/
def parts (d : Delimiter) (m : Match Enclosure) : List (Option Span) :=
  let e := m.value
  let markerStart := m.start + e.indent.length
  let markerStop := markerStart + e.marker.length
  let bodyStart := markerStop + e.opening.length
  let body : Span := ⟨bodyStart, bodyStart + e.body.length⟩
  match d with
  | bracketBlock =>
    [if e.marker.isEmpty then none else some ⟨markerStart, markerStop⟩, some body]
  | _ => [some body]

end Delimiter

end DollarMath
