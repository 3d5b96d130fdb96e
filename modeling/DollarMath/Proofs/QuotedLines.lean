import DollarMath.Proofs.Apart
import DollarMath.Proofs.Blocks
import DollarMath.Proofs.FenceScan
import DollarMath.Proofs.LineFeeds
import DollarMath.Quote

/-!
# The lines of a quoted block

A quoted block runs from its opening line through the first closing line that stands at least
two lines below.  The lines between belong to it whatever they are, so a block holds lines
outside the quote exactly when such lines stand between those two.
-/

namespace DollarMath

/-! ### Lines -/

/-- A text with its only line feed at the end is one line. -/
theorem lines_of_newline_not_mem {x e : Text} (hx : '\n' ∉ x) (he : e = [] ∨ e = ['\n'])
    (hne : x ++ e ≠ []) :
  lines (x ++ e) = [x ++ e]
  := by
  induction x with
  | nil =>
    rcases he with rfl | rfl
    · exact absurd rfl hne
    · rfl
  | cons c x ih =>
    rw [List.mem_cons, not_or] at hx
    rw [List.cons_append, lines, if_neg (Ne.symm hx.1)]
    cases hxe : x ++ e with
    | nil => rfl
    | cons d y => rw [← hxe, ih hx.2 (by simp [hxe])]

/-- A line starts behind a text that ends with a line end. -/
theorem endsLine_after_iff (t : Text) :
  (Place.start.after t).atLineStart = true ↔ EndsLine t
  := by
  rw [Place.atLineStart, Place.before_start_after, EndsLine]
  cases t.getLast? with
  | none => simp
  | some c => simp

/-- Every line of a text that ends with a line feed ends with one. -/
theorem EndsLine.of_mem_lines {t l : Text} (h : EndsLine t) (hl : l ∈ lines t) :
  EndsLine l
  := by
  obtain ⟨ls, ls', hlines⟩ := List.append_of_mem hl
  cases ls' with
  | nil =>
    apply EndsLine.of_append (s := ls.flatten)
    · rw [← flatten_lines t, hlines, List.flatten_append, List.flatten_singleton] at h
      exact h
    · rintro rfl
      cases (isLines_lines t).line [] hl
  | cons l' ls' =>
    have hcut := (isLines_lines t).cut
    rw [hlines] at hcut
    exact hcut.endsLine (List.cons_ne_nil l' ls')

/-- A line below the first one stands behind a line feed. -/
theorem exists_of_mem_tail_lines {t l : Text} (h : l ∈ (lines t).tail) :
  ∃ a b, t = a ++ '\n' :: (l ++ b)
  := by
  induction t with
  | nil => cases h
  | cons c cs ih =>
    have hcs := flatten_lines cs
    rw [lines] at h
    cases hlines : lines cs with
    | nil => 
      rw [hlines] at h
      split at h <;> cases h
    | cons k ks =>
      rw [hlines] at h hcs ih
      split at h
      · next hc =>
        subst hc
        rcases List.mem_cons.mp h with rfl | h
        · exact ⟨[], ks.flatten, by rw [← hcs]; rfl⟩
        · obtain ⟨a, b, rfl⟩ := ih h
          exact ⟨'\n' :: a, b, rfl⟩
      · obtain ⟨a, b, rfl⟩ := ih h
        exact ⟨c :: a, b, rfl⟩

theorem IsLineEnd.endsLine {n : Text} (h : IsLineEnd n) (s : Text) :
  EndsLine (s ++ n)
  := by
  rcases h with rfl | rfl
  · simp [EndsLine]
  · simp [EndsLine]

/-- A line that ends with a line feed holds no other one. -/
theorem exists_of_endsLine {l : Text} (hline : lines l = [l]) (hends : EndsLine l) :
  ∃ x, l = x ++ ['\n'] ∧ '\n' ∉ x
  := by
  obtain ⟨x, hx, hl | hl⟩ := exists_of_lines_eq hline
  · subst hl
    rcases List.eq_nil_or_concat' l with rfl | ⟨y, c, rfl⟩
    · cases hline
    · exfalso
      apply hx
      rw [hends c (by simp)]
      simp
  · exact ⟨x, hl, hx⟩

/-- Before a line stop, a text within a line is a line but for the line feed. -/
theorem exists_lines_of_isLineStop {k v : Text} (hk : '\n' ∉ k) (hne : k ≠ [])
    (hv : IsLineStop v) :
  ∃ l r, l.takeWhile (· ≠ '\n') = k ∧ lines (k ++ v) = l :: lines r
  := by
  have htake : ∀ e : Text, e = [] ∨ e = ['\n'] → (k ++ e).takeWhile (· ≠ '\n') = k := by
    intro e he
    apply takeWhile_append_eq
    · intro c hc
      simp only [decide_eq_true_eq]
      rintro rfl
      exact hk hc
    · rcases he with rfl | rfl
      · simp
      · simp
  cases v with
  | nil =>
    refine ⟨k ++ [], [], htake _ (.inl rfl), ?_⟩
    rw [lines_of_newline_not_mem hk (.inl rfl) (by simpa using hne)]
    rfl
  | cons c r =>
    obtain rfl : c = '\n' := hv c rfl
    refine ⟨k ++ ['\n'], r, htake _ (.inr rfl), ?_⟩
    rw [List.append_cons, lines_append (IsLineEnd.endsLine (.inl rfl) k),
      lines_of_newline_not_mem hk (.inr rfl) (by simp)]
    rfl

namespace Delimiter

/-! ### The lines of a block -/

/-- A line that closes a quoted block, but for its line feed. -/
def IsClosingLine (mark k : Text) : Prop :=
  ∃ s₁ s₂, k = ['>'] ++ (s₁ ++ (mark ++ s₂)) ∧ IsSpaces s₁ ∧ IsSpaces s₂

/-- The lines of a quoted block `m` in a text `t`. -/
structure HasLines (openMark closeMark t : Text) (m : Match Enclosure)
    (above : List Text) (first : Text) (between : List Text) (last : Text) (below : List Text) :
    Prop where
  /-- The block stands between the lines above and the lines below. -/
  lines_eq : lines t = above ++ first :: (between ++ last :: below)
  /-- The block starts with its first line. -/
  start_eq : m.start = above.flatten.length
  /-- The block ends before the line feed of its last line. -/
  lines_source : lines m.source = first :: (between ++ [last.takeWhile (· ≠ '\n')])
  /-- The first line opens the block. -/
  opening : IsQuotedOpening openMark first
  /-- The last line closes it. -/
  closing : IsClosingLine closeMark (last.takeWhile (· ≠ '\n'))
  /-- The body is the lines between, but for the last line end. -/
  body : ∃ n, IsLineEnd n ∧ between.flatten = m.value.body ++ n
  /-- There is a line between. -/
  between_ne_nil : between ≠ []
  /-- No line below the first one of these closes the block. -/
  not_closing : ∀ l ∈ between.tail, ¬ IsClosingLine closeMark (l.takeWhile (· ≠ '\n'))

namespace IsQuoted

variable {d : Delimiter} {openMark closeMark : Text} (hd : d.IsQuoted openMark closeMark)
include hd

/-- An opening is a line. -/
theorem lines_opening {o : Text} (h : IsQuotedOpening openMark o) :
  lines o = [o] ∧ EndsLine o
  := by
  obtain ⟨x, rfl, hx⟩ := hd.opening_eq_concat h
  rw [← List.cons_append]
  constructor
  · exact lines_of_newline_not_mem (by simp [hx]) (.inr rfl) (by simp)
  · exact IsLineEnd.endsLine (.inl rfl) _

/-- The closing line is one line. -/
theorem newline_not_mem_closing {k : Text} (h : IsClosingLine closeMark k) :
  '\n' ∉ k
  := by
  obtain ⟨s₁, s₂, rfl, hs₁, hs₂⟩ := h
  simp [newline_not_mem_of_isSpaces hs₁, newline_not_mem_of_isSpaces hs₂,
    hd.isMark.2.newline_not_mem]

/-- Before the first closing no closing line stands below another line. -/
theorem not_isClosingLine_of_isFirst {body n z l : Text} (hn : IsLineEnd n)
    (h : IsFirst d.HasClosing (body ++ (n ++ z)) body.length)
    (hl : l ∈ (lines (body ++ n)).tail) :
  ¬ IsClosingLine closeMark (l.takeWhile (· ≠ '\n'))
  := by
  intro hclosing
  have hmem := List.mem_of_mem_tail hl
  obtain ⟨k, rfl, hk⟩ := exists_of_endsLine ((isLines_lines _).line l hmem)
    ((hn.endsLine body).of_mem_lines hmem)
  rw [takeWhile_append_eq (by
    intro c hc
    simp only [decide_eq_true_eq]
    rintro rfl
    exact hk hc) (by simp)] at hclosing
  obtain ⟨s₁, s₂, rfl, hs₁, hs₂⟩ := hclosing
  obtain ⟨a, b, hab⟩ := exists_of_mem_tail_lines hl
  have hle := h a ('\n' :: (['>'] ++ (s₁ ++ (closeMark ++ s₂)))) ('\n' :: (b ++ z)) (by
      rw [← List.append_assoc, hab]
      simp) ((hd.hasClosing_iff _).mpr ⟨['\n'], s₁, s₂, rfl, .inl rfl, hs₁, hs₂⟩)
    (by simp [IsLineStop])
  have hlength := congrArg List.length hab
  have htwo : n.length ≤ 2 := by rcases hn with rfl | rfl <;> decide
  simp only [List.length_append, List.length_cons] at hlength
  omega

/-- A quoted block runs from its opening line through the first closing line that stands at
least two lines below. -/
theorem exists_hasLines {t : Text} {m : Match Enclosure} (h : m ∈ d.reader.findAll t) :
  ∃ above first between last below,
    HasLines openMark closeMark t m above first between last below
  := by
  obtain ⟨u, i, ht, hstart, hread⟩ := Reader.exists_isRead_of_mem_findAll h
  obtain ⟨-, hline, hform, hsource, -, hrest, hfirst⟩ := (isRead_iff_of_isBlock hd.isBlock).mp hread
  obtain ⟨⟨hindent, hmarker⟩, ho, n, s₁, s₂, hclosing, hn, hs₁, hs₂⟩ := (hd.hasForm_iff _).mp hform
  have hk : IsClosingLine closeMark (['>'] ++ (s₁ ++ (closeMark ++ s₂))) := ⟨s₁, s₂, rfl, hs₁, hs₂⟩
  have hne : ['>'] ++ (s₁ ++ (closeMark ++ s₂)) ≠ [] := List.cons_ne_nil _ _
  generalize ['>'] ++ (s₁ ++ (closeMark ++ s₂)) = k at hclosing hk hne
  obtain ⟨holines, hoends⟩ := hd.lines_opening ho
  have hends := hn.endsLine m.value.body
  have hnewline := hd.newline_not_mem_closing hk
  have hsource : m.source = m.value.opening ++ ((m.value.body ++ n) ++ k) := by
    rw [hsource, Enclosure.source, hindent, hmarker, hclosing]
    simp
  obtain ⟨last, r, hlast, hbelow⟩ := exists_lines_of_isLineStop hnewline hne hrest
  refine ⟨lines u, m.value.opening, lines (m.value.body ++ n), last, lines r, ?_⟩
  rw [← hlast] at hk
  constructor
  · calc lines t
      _ = lines (u ++ (m.value.opening ++ ((m.value.body ++ n) ++ (k ++ m.rest)))) := by
        rw [ht, hsource]
        simp only [List.append_assoc]
      _ = _ := by
        rw [lines_append ((endsLine_after_iff u).mp hline), lines_append hoends, holines,
          lines_append hends, hbelow]
        rfl
  · rw [flatten_lines, hstart]
  · have hlines := lines_of_newline_not_mem hnewline (.inl rfl) (by rwa [List.append_nil])
    rw [List.append_nil] at hlines
    rw [hsource, lines_append hoends, holines, lines_append hends, hlines, hlast]
    rfl
  · exact ho
  · exact hk
  · exact ⟨n, hn, flatten_lines _⟩
  · intro hnil
    have hflat := flatten_lines (m.value.body ++ n)
    rw [hnil] at hflat
    rcases hn with rfl | rfl
    · simp at hflat
    · simp at hflat
  · intro l hl
    rw [hclosing, List.append_assoc] at hfirst
    exact hd.not_isClosingLine_of_isFirst hn hfirst hl

end IsQuoted

end Delimiter

/-- All lines of a quoted block are quoted exactly when no other line stands between its opening
line and the first closing line at least two lines below. -/
theorem quoted_lines_iff {d : Delimiter} {openMark closeMark : Text}
    (hd : d.IsQuoted openMark closeMark) {t : Text} {m : Match Enclosure}
    (h : m ∈ d.reader.findAll t) :
  ∃ above first between last below,
    Delimiter.HasLines openMark closeMark t m above first between last below
      ∧ ((∀ l ∈ lines m.source, l.head? = some '>') ↔ ∀ l ∈ between, l.head? = some '>')
  := by
  obtain ⟨above, first, between, last, below, hlines⟩ := hd.exists_hasLines h
  refine ⟨above, first, between, last, below, hlines, ?_⟩
  have hfirst : first.head? = some '>' := by
    obtain ⟨s₁, s₂, n, rfl, -⟩ := hlines.opening
    rfl
  have hlast : (last.takeWhile (· ≠ '\n')).head? = some '>' := by
    obtain ⟨s₁, s₂, heq, -⟩ := hlines.closing
    rw [heq]
    rfl
  rw [hlines.lines_source, List.forall_mem_cons, List.forall_mem_append, List.forall_mem_singleton]
  exact ⟨fun h => h.2.1, fun h => ⟨hfirst, h, hlast⟩⟩

/-- A block with a paragraph in it. -/
theorem quoted_lines_iff_paragraph :
  let t := ['>', ' ', '\\', '[', '\n', 'x', '\n', '>', ' ', '\\', ']']
  let m : Match Enclosure :=
    ⟨0, t, ⟨[], [], ['>', ' ', '\\', '[', '\n'], ['x'], ['\n', '>', ' ', '\\', ']']⟩, []⟩
  m ∈ Delimiter.quotedDisplay.reader.findAll t
    ∧ ∃ above first between last below,
      Delimiter.HasLines ['\\', '['] ['\\', ']'] t m above first between last below
        ∧ ((∀ l ∈ lines m.source, l.head? = some '>') ↔ ∀ l ∈ between, l.head? = some '>')
  := by
  intro t m
  have h : m ∈ Delimiter.quotedDisplay.reader.findAll t := by decide
  exact ⟨h, quoted_lines_iff .display h⟩

/-- The paragraph is pulled into the quoted line that is written. -/
theorem not_quoted_lines :
  let t := ['>', ' ', '\\', '[', '\n', 't', 'e', 'x', 't', '\n', '>', ' ', '\\', ']']
  (¬ ∀ m ∈ Delimiter.quotedDisplay.reader.findAll t, ∀ l ∈ lines m.source, l.head? = some '>')
    ∧ convertQuotedDisplays t
      = ⟨['>', ' ', '$', '$', ' ', 't', 'e', 'x', 't', ' ', '$', '$'], .ofBlock 1⟩
  := by
  decide

end DollarMath
