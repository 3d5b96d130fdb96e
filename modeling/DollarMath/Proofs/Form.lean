import DollarMath.Proofs.Replacement
import DollarMath.Proofs.Trimming
import DollarMath.Formula
import Mathlib.Data.List.TakeWhile

/-!
# Forms of enclosures

What the parts of an enclosure look like, for each kind of delimiters: its delimiters, with
the blank characters and line ends that belong to them, and the text between.
-/

namespace DollarMath

namespace Pattern

/-- Whatever a pattern takes is a text of `P`. -/
def Takes (p : Pattern) (P : Text → Prop) : Prop :=
  ∀ t n, p t = some n → P (t.take n)

/-- A word takes itself. -/
theorem takes_literal (w : Text) :
  (literal w).Takes fun t => t = w
  := by
  intro t n h
  obtain ⟨rfl, rest, rfl⟩ := literal_eq_some_iff.mp h
  apply List.take_left

/-- A run takes characters of its class. -/
theorem takes_run (q : Char → Bool) :
  (run q).Takes fun t => ∀ c ∈ t, q c = true
  := by
  intro t n h c hc
  obtain rfl := Option.some.inj h
  rw [← List.prefix_iff_eq_take.mp (List.takeWhile_prefix q)] at hc
  apply List.mem_takeWhile_imp hc

/-- A line end takes a line feed, perhaps with a carriage return before it. -/
theorem takes_lineEnd :
  lineEnd.Takes fun t => t = ['\n'] ∨ t = ['\r', '\n']
  := by
  intro t n h
  rw [lineEnd.eq_def] at h
  split at h
  · obtain rfl := Option.some.inj h
    left
    rfl
  · obtain rfl := Option.some.inj h
    right
    rfl
  · cases h

/-- A line stop takes nothing. -/
theorem takes_lineStop :
  lineStop.Takes fun t => t = []
  := by
  intro t n h
  rw [lineStop.eq_def] at h
  split at h
  · simp
  · obtain ⟨-, heq⟩ := Option.ite_none_right_eq_some.mp h
    obtain rfl := Option.some.inj heq
    rfl

theorem takes_inOrder_nil :
  (inOrder []).Takes fun t => t = []
  := by
  intro t n h
  obtain rfl := Option.some.inj h
  rfl

/-- Patterns one after another take a text that each takes a part of. -/
theorem Takes.inOrder_cons
    {p : Pattern} {ps : List Pattern} {P Q : Text → Prop}
    (hp : p.Takes P) (hps : (inOrder ps).Takes Q) :
  (inOrder (p :: ps)).Takes fun t => ∃ u v, t = u ++ v ∧ P u ∧ Q v
  := by
  intro t n h
  simp only [inOrder, Option.bind_eq_bind, Option.bind_eq_some_iff] at h
  obtain ⟨a, ha, b, hb, heq⟩ := h
  obtain rfl := Option.some.inj heq
  use t.take a, (t.drop a).take b
  exact ⟨List.take_add, hp t a ha, hps _ b hb⟩

end Pattern

/-- A text of spaces and tabs. -/
def IsSpaces (t : Text) : Prop :=
  ∀ c ∈ t, isSpaceOrTab c = true

/-- A line feed, with or without a carriage return before it. -/
def IsLineEnd (t : Text) : Prop :=
  t = ['\n'] ∨ t = ['\r', '\n']

/-- A marker: marker characters and then blank ones, or nothing. -/
def IsMarker (t : Text) : Prop :=
  t = [] ∨ ∃ m b, t = m ++ b ∧ m ≠ [] ∧ (∀ c ∈ m, Delimiter.isMarkerChar c = true)
    ∧ ∀ c ∈ b, isBlank c = true

section Avoids

variable {p : Char → Bool} (hp : ∀ c, isBlank c = true → p c = false) {t : Text}
include hp

/-- Spaces and tabs avoid a class without blank characters. -/
theorem IsSpaces.avoids (h : IsSpaces t) :
  ∀ c ∈ t, p c = false
  := by
  intro c hc
  apply hp
  apply isBlank_of_isSpaceOrTab (h c hc)

/-- A line end avoids a class without blank characters. -/
theorem IsLineEnd.avoids (h : IsLineEnd t) :
  ∀ c ∈ t, p c = false
  := by
  have hcr : p '\r' = false := hp '\r' (by decide)
  have hlf : p '\n' = false := hp '\n' (by decide)
  rcases h with rfl | rfl
  · simp [hlf]
  · simp [hcr, hlf]

/-- A marker avoids a class without blank characters and without marker characters. -/
theorem IsMarker.avoids (h : IsMarker t) (hm : ∀ c, Delimiter.isMarkerChar c = true → p c = false) :
  ∀ c ∈ t, p c = false
  := by
  rcases h with rfl | ⟨m, b, rfl, -, hmark, hblank⟩
  · simp
  · rw [List.forall_mem_append]
    constructor
    · intro c hc
      apply hm c (hmark c hc)
    · intro c hc
      apply hp c (hblank c hc)

end Avoids

/-- The form of a quoted block with the given brackets. -/
structure QuotedForm (openMark closeMark : Text) (e : Enclosure) : Prop where
  /-- Nothing stands before the opening line. -/
  before : e.indent = [] ∧ e.marker = []
  /-- The opening line. -/
  opening : ∃ s₁ s₂ n, e.opening = ['>'] ++ (s₁ ++ (openMark ++ (s₂ ++ n)))
    ∧ IsSpaces s₁ ∧ IsSpaces s₂ ∧ IsLineEnd n
  /-- The closing line, after the line end before it. -/
  closing : ∃ n s₁ s₂, e.closing = n ++ (['>'] ++ (s₁ ++ (closeMark ++ s₂)))
    ∧ IsLineEnd n ∧ IsSpaces s₁ ∧ IsSpaces s₂

/-- A quoted block has more than one line. -/
theorem QuotedForm.newline_mem_source {openMark closeMark : Text} {e : Enclosure}
    (h : QuotedForm openMark closeMark e) :
  '\n' ∈ e.source
  := by
  obtain ⟨s₁, s₂, n, hopening, -, -, hn⟩ := h.opening
  have hnewline : '\n' ∈ n := by rcases hn with rfl | rfl <;> simp
  simp [Enclosure.source, hopening, hnewline]

/-- The form of a block between bare bracket lines. -/
structure BlockForm (e : Enclosure) : Prop where
  /-- The spaces and tabs before the marker. -/
  indent : IsSpaces e.indent
  /-- The marker. -/
  marker : IsMarker e.marker
  /-- The opening bracket, through the end of its line. -/
  opening : ∃ s n, e.opening = ['['] ++ (s ++ n) ∧ IsSpaces s ∧ IsLineEnd n
  /-- The closing line, after the line end before it. -/
  closing : ∃ n s₁ s₂, e.closing = n ++ (s₁ ++ ([']'] ++ s₂))
    ∧ IsLineEnd n ∧ IsSpaces s₁ ∧ IsSpaces s₂

namespace Delimiter

/-- The form of an enclosure in delimiters of a kind. -/
def HasForm : Delimiter → Enclosure → Prop
  | quotedDisplay, e => QuotedForm ['\\', '['] ['\\', ']'] e
  | quotedBracket, e => QuotedForm ['['] [']'] e
  | display, e => e = ⟨[], [], ['\\', '['], e.body, ['\\', ']']⟩
  | bracketBlock, e => BlockForm e
  | bracket, e => e = ⟨[], [], ['['], e.body, [']']⟩ ∧ e.body ≠ []
  | inline, e => e = ⟨[], [], ['\\', '('], e.body, ['\\', ')']⟩ ∧ e.body ≠ [] ∧ '\n' ∉ e.body

/-- The opening line of a quoted block: the quote mark, the delimiter and the line end, with spaces
between them. -/
theorem takes_quotedOpening (mark : Text) :
  (quotedOpening mark).Takes fun t => ∃ s₁ s₂ n, t = ['>'] ++ (s₁ ++ (mark ++ (s₂ ++ n)))
    ∧ IsSpaces s₁ ∧ IsSpaces s₂ ∧ IsLineEnd n
  := by
  intro t k h
  have hparts := ((Pattern.takes_literal ['>']).inOrder_cons ((Pattern.takes_run _).inOrder_cons
    ((Pattern.takes_literal mark).inOrder_cons ((Pattern.takes_run _).inOrder_cons
    (Pattern.takes_lineEnd.inOrder_cons Pattern.takes_inOrder_nil))))) t k h
  obtain ⟨_, _, ht, rfl, s₁, _, rfl, hs₁, _, _, rfl, rfl, s₂, _, rfl, hs₂, n, _, rfl, hn, rfl⟩ :=
    hparts
  use s₁, s₂, n
  rw [List.append_nil] at ht
  exact ⟨ht, hs₁, hs₂, hn⟩

/-- The closing line of a quoted block: a line end, the quote mark and the delimiter, with spaces
between them. -/
theorem takes_quotedClosing (mark : Text) :
  (quotedClosing mark).Takes fun t => ∃ n s₁ s₂, t = n ++ (['>'] ++ (s₁ ++ (mark ++ s₂)))
    ∧ IsLineEnd n ∧ IsSpaces s₁ ∧ IsSpaces s₂
  := by
  intro t k h
  have hparts := (Pattern.takes_lineEnd.inOrder_cons ((Pattern.takes_literal ['>']).inOrder_cons
    ((Pattern.takes_run _).inOrder_cons ((Pattern.takes_literal mark).inOrder_cons
    ((Pattern.takes_run _).inOrder_cons
    (Pattern.takes_lineStop.inOrder_cons Pattern.takes_inOrder_nil)))))) t k h
  obtain ⟨n, _, ht, hn, _, _, rfl, rfl, s₁, _, rfl, hs₁, _, _, rfl, rfl, s₂, _, rfl, hs₂,
    _, _, rfl, rfl, rfl⟩ := hparts
  use n, s₁, s₂
  simp only [List.append_nil] at ht
  exact ⟨ht, hn, hs₁, hs₂⟩

/-- The opening line of a bracket block. -/
theorem takes_blockOpening :
  blockOpening.Takes fun t => ∃ s n, t = ['['] ++ (s ++ n) ∧ IsSpaces s ∧ IsLineEnd n
  := by
  intro t k h
  have hparts := ((Pattern.takes_literal ['[']).inOrder_cons ((Pattern.takes_run _).inOrder_cons
    (Pattern.takes_lineEnd.inOrder_cons Pattern.takes_inOrder_nil))) t k h
  obtain ⟨_, _, ht, rfl, s, _, rfl, hs, n, _, rfl, hn, rfl⟩ := hparts
  use s, n
  rw [List.append_nil] at ht
  exact ⟨ht, hs, hn⟩

/-- The closing line of a bracket block. -/
theorem takes_blockClosing :
  blockClosing.Takes fun t => ∃ n s₁ s₂, t = n ++ (s₁ ++ ([']'] ++ s₂))
    ∧ IsLineEnd n ∧ IsSpaces s₁ ∧ IsSpaces s₂
  := by
  intro t k h
  have hparts := (Pattern.takes_lineEnd.inOrder_cons ((Pattern.takes_run _).inOrder_cons
    ((Pattern.takes_literal [']']).inOrder_cons ((Pattern.takes_run _).inOrder_cons
    (Pattern.takes_lineStop.inOrder_cons Pattern.takes_inOrder_nil))))) t k h
  obtain ⟨n, _, ht, hn, s₁, _, rfl, hs₁, _, _, rfl, rfl, s₂, _, rfl, hs₂, _, _, rfl, rfl, rfl⟩ :=
    hparts
  use n, s₁, s₂
  simp only [List.append_nil] at ht
  exact ⟨ht, hn, hs₁, hs₂⟩

/-- What is found as the marker of a bracket block is one. -/
theorem isMarker_markerOf (t : Text) :
  IsMarker (markerOf t)
  := by
  rw [markerOf]
  split
  · left
    rfl
  · next mark hmark =>
    right
    use t.takeWhile isMarkerChar, (t.drop (t.takeWhile isMarkerChar).length).takeWhile isBlank
    refine ⟨rfl, hmark, ?_, ?_⟩
    · intro c hc
      apply List.mem_takeWhile_imp hc
    · intro c hc
      apply List.mem_takeWhile_imp hc

/-- What is read as a quoted block has the form of one. -/
theorem quotedForm_of_readQuoted
    {openMark closeMark : Text} {p : Place} {t : Text} {e : Enclosure} {k : Nat}
    (h : readQuoted openMark closeMark p t = some (e, k)) :
  QuotedForm openMark closeMark e
  := by
  simp only [readQuoted, Option.ite_none_right_eq_some, Option.bind_eq_bind,
    Option.bind_eq_some_iff] at h
  obtain ⟨-, n, hopen, ⟨body, m⟩, hbody, heq⟩ := h
  obtain ⟨rfl, -⟩ := Prod.mk.inj (Option.some.inj heq)
  obtain ⟨rest, hrest, hclose⟩ := Pattern.exists_of_upTo_eq_some hbody
  constructor
  · exact ⟨rfl, rfl⟩
  · apply takes_quotedOpening openMark t n hopen
  · have hdrop : t.drop (n + body.length) = rest := by
      rw [← List.drop_drop, hrest, List.drop_left]
    simp only [hdrop]
    apply takes_quotedClosing closeMark rest m hclose

/-- What is read as a bracket block has the form of one. -/
theorem blockForm_of_readBracketBlock
    {p : Place} {t : Text} {e : Enclosure} {k : Nat}
    (h : readBracketBlock p t = some (e, k)) :
  BlockForm e
  := by
  simp only [readBracketBlock, Option.ite_none_right_eq_some, Option.bind_eq_bind,
    Option.bind_eq_some_iff] at h
  obtain ⟨-, n, hopen, ⟨body, m⟩, hbody, heq⟩ := h
  obtain ⟨rfl, -⟩ := Prod.mk.inj (Option.some.inj heq)
  obtain ⟨rest, hrest, hclose⟩ := Pattern.exists_of_upTo_eq_some hbody
  constructor
  · intro c hc
    apply List.mem_takeWhile_imp hc
  · apply isMarker_markerOf
  · apply takes_blockOpening _ n hopen
  · dsimp only at hrest ⊢
    rw [← List.drop_drop, hrest, List.drop_left]
    apply takes_blockClosing rest m hclose

/-- What a reader gives has the form of its kind. -/
theorem form_of_reader
    {d : Delimiter} {p : Place} {t : Text} {e : Enclosure} {k : Nat}
    (h : d.reader p t = some (e, k)) :
  d.HasForm e
  := by
  cases d with
  | quotedDisplay => exact quotedForm_of_readQuoted h
  | quotedBracket => exact quotedForm_of_readQuoted h
  | display =>
    rw [reader, readDisplay.eq_def] at h
    split at h
    · simp only [Option.ite_none_left_eq_some, Option.map_eq_some_iff] at h
      obtain ⟨-, r, -, heq⟩ := h
      obtain ⟨rfl, -⟩ := Prod.mk.inj heq
      rfl
    · cases h
  | bracketBlock => exact blockForm_of_readBracketBlock h
  | bracket =>
    rw [reader, readBracket.eq_def] at h
    split at h
    · split at h
      · obtain ⟨rfl, -⟩ := Prod.mk.inj (Option.some.inj h)
        exact ⟨rfl, List.cons_ne_nil _ _⟩
      · cases h
    · cases h
  | inline =>
    rw [reader, readInline.eq_def] at h
    split at h
    · next c cs =>
      simp only [Option.ite_none_left_eq_some, Option.map_eq_some_iff, Bool.or_eq_true,
        decide_eq_true_eq, not_or] at h
      obtain ⟨⟨-, hc⟩, r, hr, heq⟩ := h
      obtain ⟨rfl, -⟩ := Prod.mk.inj heq
      obtain ⟨rest, hline, -⟩ := Pattern.exists_of_upTo_eq_some (n := r.2) hr
      refine ⟨rfl, List.cons_ne_nil _ _, ?_⟩
      intro hmem
      rcases List.mem_cons.mp hmem with heq | hmem
      · apply hc heq.symm
      · have hline : '\n' ∈ cs.takeWhile (· ≠ '\n') := by
          rw [hline]
          apply List.mem_append_left rest hmem
        simpa using List.mem_takeWhile_imp hline
    · cases h

/-- An enclosure found in a text has the form of its kind, and its parts are the characters
found. -/
theorem form_of_mem_findAll
    {d : Delimiter} {t : Text} {m : Match Enclosure} (h : m ∈ d.reader.findAll t) :
  d.HasForm m.value ∧ m.source = m.value.source
  := by
  obtain ⟨u, k, -, -, hread, -⟩ := Reader.exists_of_mem_pieces h
  constructor
  · apply form_of_reader hread
  · apply (source_value_of_mem_findAll h).symm

/-- The body of an enclosure stands in its characters. -/
theorem body_isInfix_source
    {d : Delimiter} {t : Text} {m : Match Enclosure} (h : m ∈ d.reader.findAll t) :
  m.value.body <:+: m.source
  := by
  rw [(form_of_mem_findAll h).2, Enclosure.source]
  exact ⟨_, _, rfl⟩

theorem body_isInfix_of_mem_findAll
    {d : Delimiter} {t : Text} {m : Match Enclosure} (h : m ∈ d.reader.findAll t) :
  m.value.body <:+: t
  := (body_isInfix_source h).trans (Reader.source_isInfix_of_mem_findAll h)

end Delimiter

end DollarMath
