import DollarMath.Proofs.Collapsing
import DollarMath.Proofs.Kept
import DollarMath.Proofs.Signs
import DollarMath.Proofs.StableBrackets

/-!
# Collapsed lines

A quoted block that is collapsed is not tallied: its line is left for the conversion of brackets.
Whether that conversion takes the line is told here.  Displays and bracket blocks are converted in
between, and may take the line first.  If they leave it, its bracket is converted exactly when no
bracket is open before it, no dollar mathematics is touched, and the body has a sign of
mathematics that it keeps between two blanks: the block is judged by its trimmed body, and a
relation at the front of that is no sign in the line.

So the tally tells whether a document has been changed if every line is converted, and otherwise
as long as anything else is.
-/

namespace DollarMath

open scoped List

/-! ### Bodies with a blank on either side -/

/-- A text that looks like mathematics wherever it stands: by another sign than a relation at its
front. -/
def looksMathWithin (t : Text) : Bool :=
  t.any isMathMark
    || hasGroupedDigits t
    || (t.any isOperator && t.any isDigit)
    || isBareNumber t
    || (t.any isOperator && t.any isLatinLetter && !hasLatinWord false t)

/-- A blank behind a text is no group mark. -/
theorem startsWithGroup_append_space (t : Text) :
  startsWithGroup (t ++ [' ']) = startsWithGroup t
  := by
  rw [Bool.eq_iff_iff, startsWithGroup_iff, startsWithGroup_iff]
  constructor
  · rintro ⟨c, d, r, ht, hc, hd⟩
    rcases List.eq_nil_or_concat' r with rfl | ⟨r, e, rfl⟩
    · have hlast := congrArg List.getLast? ht
      simp only [List.getLast?_append, List.getLast?_singleton, Option.some_or,
        List.getLast?_cons_cons, Option.some_inj] at hlast
      rw [← hlast] at hd
      cases hd
    · have ht : t ++ [' '] = ('\x7b' :: c :: '\x7d' :: d :: r) ++ [e] := ht
      exact ⟨c, d, r, (List.append_inj' ht rfl).1, hc, hd⟩
  · rintro ⟨c, d, r, rfl, hc, hd⟩
    exact ⟨c, d, r ++ [' '], rfl, hc, hd⟩

/-- A blank behind a text groups no digits. -/
theorem hasGroupedDigits_append_space (t : Text) :
  hasGroupedDigits (t ++ [' ']) = hasGroupedDigits t
  := by
  induction t with
  | nil => decide
  | cons c cs ih =>
    rw [List.cons_append, hasGroupedDigits, hasGroupedDigits, ih, startsWithGroup_append_space]

/-- Nor does it make a word. -/
theorem hasLatinWord_append_space (inside : Bool) (t : Text) :
  hasLatinWord inside (t ++ [' ']) = hasLatinWord inside t
  := by
  induction t generalizing inside with
  | nil =>
    cases inside with
    | false => decide
    | true => decide
  | cons c cs ih =>
    have hword : (c :: cs ++ [' ']).takeWhile isWordChar = (c :: cs).takeWhile isWordChar := by
      rw [List.takeWhile_append]
      split
      · next hall =>
        rw [List.takeWhile_cons_of_neg (by decide), List.append_nil]
        apply ((List.takeWhile_prefix isWordChar).eq_of_length hall).symm
      · rfl
    rw [List.cons_append, hasLatinWord, hasLatinWord, ih, startsWithLatinWord, startsWithLatinWord,
      ← List.cons_append, hword]

/-- Blanks around a text are trimmed. -/
theorem trim_blanks (t : Text) :
  trim (' ' :: (t ++ [' '])) = trim t
  := by
  have hright : ∀ s : Text, trimRight (s ++ [' ']) = trimRight s := by
    intro s
    rw [trimRight, List.reverse_append, trimRight]
    rfl
  have hleft : trimLeft (' ' :: (t ++ [' '])) = trimLeft (t ++ [' ']) := rfl
  rw [trim, hleft, trim]
  by_cases hall : ∀ c ∈ t, isBlank c = true
  · have hnil : trimLeft t = [] := List.dropWhile_eq_nil_iff.mpr hall
    have hnil' : trimLeft (t ++ [' ']) = [] := by
      apply List.dropWhile_eq_nil_iff.mpr
      intro c hc
      rcases List.mem_append.mp hc with hc | hc
      · exact hall c hc
      · rw [List.mem_singleton.mp hc]
        rfl
    rw [hnil, hnil']
  · have happend : trimLeft (t ++ [' ']) = trimLeft t ++ [' '] := by
      rw [trimLeft, List.dropWhile_append, if_neg]
      · rfl
      · rw [List.isEmpty_iff, List.dropWhile_eq_nil_iff]
        exact hall
    rw [happend, hright]

/-- With a blank on either side a relation at the front is none any more; all other signs are
kept. -/
theorem looksMath_blanks (t : Text) :
  looksMath (' ' :: (t ++ [' '])) = looksMathWithin t
  := by
  have hany : ∀ p : Char → Bool, p ' ' = false → (' ' :: (t ++ [' '])).any p = t.any p := by
    intro p hp
    simp [hp]
  have hgroup : hasGroupedDigits (' ' :: (t ++ [' '])) = hasGroupedDigits t := by
    have hdigit : isDigit ' ' = false := by decide
    rw [hasGroupedDigits, hdigit, hasGroupedDigits_append_space]
    rfl
  have hword : hasLatinWord false (' ' :: (t ++ [' '])) = hasLatinWord false t := by
    have hchar : isWordChar ' ' = false := by decide
    have hfront : startsWithLatinWord (' ' :: (t ++ [' '])) = false := by
      rw [startsWithLatinWord, List.takeWhile_cons_of_neg (by simp [hchar])]
      rfl
    rw [hasLatinWord, hfront, hchar, hasLatinWord_append_space]
    rfl
  have hrelation : startsWithRelation (' ' :: (t ++ [' '])) = false := by
    have hletter : isLatinLetter ' ' = false := by decide
    rw [startsWithRelation]
    split
    · rfl
    · simp [hletter]
  have hnumber : isBareNumber (' ' :: (t ++ [' '])) = isBareNumber t := by
    rw [isBareNumber, isBareNumber, trim_blanks]
  rw [looksMath, looksMathWithin, hany isMathMark (by decide), hany isOperator (by decide),
    hany isDigit (by decide), hany isLatinLetter (by decide), hgroup, hword, hrelation, hnumber,
    Bool.or_false]

/-- A command starts with a backslash. -/
theorem backslash_mem_of_hasCommand {t : Text} (h : hasCommand t = true) :
  '\\' ∈ t
  := by
  rw [hasCommand, Bool.not_eq_true', List.isEmpty_eq_false_iff] at h
  obtain ⟨m, hm⟩ := List.exists_mem_of_ne_nil _ h
  obtain ⟨u, n, rfl, -, hread, -⟩ := Reader.exists_of_mem_pieces hm
  rw [command.eq_def] at hread
  split at hread
  · next heq =>
    rw [heq]
    simp
  · cases hread

/-- The bracket of a line is judged by its body between two blanks. -/
theorem isBracketMath_blanks (t : Text) :
  isBracketMath (' ' :: (t ++ [' '])) = looksMathWithin t
  := by
  rw [isBracketMath, looksMath_blanks]
  cases hcommand : hasCommand (' ' :: (t ++ [' '])) with
  | false => rfl
  | true =>
    have hmem : '\\' ∈ t := by simpa using backslash_mem_of_hasCommand hcommand
    have hmark : t.any isMathMark = true := List.any_eq_true.mpr ⟨_, hmem, by decide⟩
    rw [looksMathWithin, hmark]
    rfl

/-! ### Edits beside a line -/

/-- The edits that convert the displays of a text. -/
def displayEdits (t : Text) : Edits t :=
  Delimiter.display.reader.edits (fun m => some (displayOf m.value.body)) t

/-- The edits that convert the bracket blocks of a text. -/
def blockEdits (t : Text) : Edits t :=
  Delimiter.bracketBlock.reader.edits (fun m =>
    if m.span.touches (dollarSpans .all t) then none
    else if looksMath m.value.body then some (m.value.marker ++ displayOf m.value.body)
    else none) t

/-- The edits of displays make the converted text. -/
theorem text_displayEdits (t : Text) :
  (displayEdits t).text = (convertDisplays t).text
  := Reader.text_edits

/-- So do those of bracket blocks. -/
theorem text_blockEdits (t : Text) :
  (blockEdits t).text = (convertBracketBlocks t).text
  := Reader.text_edits

section Line

variable {t u line v : Text}

/-- No display starts behind a line. -/
theorem start_ne_of_mem_displayEdits (hv : IsLineStop v) :
  ∀ e ∈ (displayEdits (u ++ (line ++ v))).list, e.span.start ≠ u.length + line.length
  := by
  intro e he hstart
  obtain ⟨m, hm, hspan, -⟩ := Reader.mem_edits_iff.mp he
  obtain ⟨hform, hsource⟩ := Delimiter.form_of_mem_findAll hm
  have hvalue : m.value = ⟨[], [], ['\\', '['], m.value.body, ['\\', ']']⟩ := hform
  have hfirst : (u ++ (line ++ v))[m.span.start]? = some '\\' := by
    rw [Match.span, Reader.getElem?_start_of_mem_findAll hm, hsource, hvalue]
    rfl
  rw [← hspan, hstart, ← List.length_append, ← List.append_assoc,
    List.getElem?_append_right (Nat.le_refl _), Nat.sub_self, ← List.head?_eq_getElem?] at hfirst
  cases hv _ hfirst

/-- No bracket block starts behind a line. -/
theorem start_ne_of_mem_blockEdits (hlast : line.getLast? = some ']') :
  ∀ e ∈ (blockEdits (u ++ (line ++ v))).list, e.span.start ≠ u.length + line.length
  := by
  intro e he hstart
  obtain ⟨m, hm, hspan, -⟩ := Reader.mem_edits_iff.mp he
  obtain ⟨w, n, hw, hm', hread⟩ := Reader.exists_isRead_of_mem_findAll hm
  obtain ⟨-, hline, -⟩ :=
    (Delimiter.isRead_iff_of_isBlock (d := .bracketBlock) trivial).mp hread
  have hlength : w.length = (u ++ line).length := by
    rw [List.length_append, ← hstart, hspan, ← hm']
    rfl
  rw [← List.append_assoc] at hw
  obtain ⟨rfl, -⟩ := List.append_inj hw.symm hlength
  rw [Place.atLineStart, Place.before_start_after, List.getLast?_append, hlast] at hline
  simp at hline

/-- A line that edits keep stands between what the others write, and the same follows it. -/
theorem Edits.exists_text_eq {es : Edits t} (ht : t = u ++ (line ++ v)) (hv : IsLineStop v)
    (hkeep : es.Keep ⟨u.length, u.length + line.length⟩)
    (hstart : ∀ e ∈ es.list, e.span.start ≠ u.length + line.length) :
  ∃ u' v', es.text = u' ++ (line ++ v') ∧ IsLineStop v'
    ∧ es.moved ⟨u.length, u.length + line.length⟩ = ⟨u'.length, u'.length + line.length⟩
  := by
  subst ht
  refine ⟨es.front u.length, es.behind (u.length + line.length), ?_, ?_, ?_⟩
  · have htext := Edits.text_eq_of_keep hkeep (Nat.le_add_right _ _)
    rwa [extract_append_append] at htext
  · intro c hc
    rw [Edits.head?_behind hstart, ← List.length_append, ← List.append_assoc,
      List.getElem?_append_right (Nat.le_refl _), Nat.sub_self, ← List.head?_eq_getElem?] at hc
    exact hv c hc
  · rw [Edits.moved, Nat.add_sub_cancel_left]

/-- A line that no display touches stands in the text with the displays converted. -/
theorem exists_convertDisplays_eq (ht : t = u ++ (line ++ v)) (hv : IsLineStop v)
    (hkeep : (displayEdits t).Keep ⟨u.length, u.length + line.length⟩) :
  ∃ u' v', (convertDisplays t).text = u' ++ (line ++ v') ∧ IsLineStop v'
    ∧ (displayEdits t).moved ⟨u.length, u.length + line.length⟩
      = ⟨u'.length, u'.length + line.length⟩
  := by
  subst ht
  rw [← text_displayEdits]
  exact Edits.exists_text_eq rfl hv hkeep (start_ne_of_mem_displayEdits hv)

/-- A line that no converted bracket block touches stands in the text with the blocks converted. -/
theorem exists_convertBracketBlocks_eq (ht : t = u ++ (line ++ v)) (hv : IsLineStop v)
    (hlast : line.getLast? = some ']')
    (hkeep : (blockEdits t).Keep ⟨u.length, u.length + line.length⟩) :
  ∃ u' v', (convertBracketBlocks t).text = u' ++ (line ++ v') ∧ IsLineStop v'
    ∧ (blockEdits t).moved ⟨u.length, u.length + line.length⟩
      = ⟨u'.length, u'.length + line.length⟩
  := by
  subst ht
  rw [← text_blockEdits]
  exact Edits.exists_text_eq rfl hv hkeep (start_ne_of_mem_blockEdits hlast)

end Line

/-! ### The bracket of a line -/

/-- A quoted line with a bracket. -/
def bracketLine (body : Text) : Text :=
  ['>', ' ', '[', ' '] ++ body ++ [' ', ']']

/-- The bracket of the line at a span, behind the quote mark and its blank. -/
def bracketSpan (s : Span) : Span :=
  ⟨s.start + 2, s.stop⟩

/-- The bracket of the line with the given body between two texts. -/
def lineBracket (u body v : Text) : Match Enclosure :=
  ⟨u.length + 2, ['[', ' '] ++ body ++ [' ', ']'],
    ⟨[], [], ['['], ' ' :: (body ++ [' ']), [']']⟩, v⟩

section LineBracket

variable {u body v : Text}

/-- Where the bracket of a line stands. -/
theorem span_lineBracket :
  (lineBracket u body v).span
    = bracketSpan ⟨u.length, u.length + (bracketLine body).length⟩
  := by
  have hlength : (lineBracket u body v).source.length + 2 = (bracketLine body).length := by
    simp [lineBracket, bracketLine]
  rw [Match.span, bracketSpan, Span.mk.injEq]
  refine ⟨rfl, ?_⟩
  change u.length + 2 + (lineBracket u body v).source.length = u.length + (bracketLine body).length
  omega

/-- The end of a line behind a bracket does not make it a link, so its body tells whether it may
be converted. -/
theorem isMathBracket_lineBracket (hv : IsLineStop v) :
  isMathBracket (lineBracket u body v) = looksMathWithin body
  := by
  have hrest : v.head?.any (fun c => c = '(' || c = ':') = false := by
    cases hhead : v.head? with
    | none => rfl
    | some c =>
      rw [hv c hhead]
      rfl
  rw [lineBracket, isMathBracket, isBracketMath_blanks, hrest]
  rfl

/-- It is found if no bracket is open before the line. -/
theorem lineBracket_mem_findAll (hbody : ']' ∉ body) (hu : IsClosed u) :
  lineBracket u body v ∈ Delimiter.bracket.reader.findAll (u ++ (bracketLine body ++ v))
  := by
  apply mem_findAll_bracket_iff.mpr
  refine ⟨u ++ ['>', ' '], (isClosed_append_iff (by decide) (by decide)).mpr hu, ?_, ?_, ?_, ?_⟩
  · simp [lineBracket, bracketLine]
  · simp [lineBracket]
  · exact ⟨_, rfl, by simp, by simp [hbody]⟩
  · simp [lineBracket, Enclosure.source]

/-- A bracket that is found at the span of a line's bracket is that one, and no bracket is open
before the line. -/
theorem eq_lineBracket_of_span (hbody : ']' ∉ body) {m : Match Enclosure}
    (hm : m ∈ Delimiter.bracket.reader.findAll (u ++ (bracketLine body ++ v)))
    (hspan : m.span = (lineBracket u body v).span) :
  IsClosed u ∧ m = lineBracket u body v
  := by
  obtain ⟨x, hx, hcut, hstart, -⟩ := mem_findAll_bracket_iff.mp hm
  have hlength : x.length = (u ++ ['>', ' ']).length := by
    have hstarts : m.start = (lineBracket u body v).start := congrArg Span.start hspan
    rw [← hstart, hstarts, List.length_append]
    rfl
  have hline : u ++ (bracketLine body ++ v)
      = u ++ ['>', ' '] ++ (['[', ' '] ++ body ++ [' ', ']'] ++ v) := by simp [bracketLine]
  rw [hline] at hcut
  obtain ⟨rfl, -⟩ := List.append_inj hcut hlength.symm
  have hu := (isClosed_append_iff (by decide) (by decide)).mp hx
  refine ⟨hu, ?_⟩
  by_contra hne
  have hpos := (Reader.span_within_of_mem_findAll hm).1
  have hapart := Reader.apart_of_mem_findAll hm (lineBracket_mem_findAll hbody hu) hne
  rw [hspan, Span.Apart] at hapart
  rw [hspan] at hpos
  omega

/-- The bracket of a quoted line is converted exactly when no bracket is open before the line, the
body looks like mathematics wherever it stands, and no dollar mathematics is touched. -/
theorem exists_mem_bracketEdits_iff (hbody : ']' ∉ body) (hv : IsLineStop v) :
  (∃ e ∈ (bracketEdits (u ++ (bracketLine body ++ v))).list,
      e.span = bracketSpan ⟨u.length, u.length + (bracketLine body).length⟩)
    ↔ IsClosed u ∧ looksMathWithin body = true
      ∧ (bracketSpan ⟨u.length, u.length + (bracketLine body).length⟩).touches
        (dollarSpans .all (u ++ (bracketLine body ++ v))) = false
  := by
  rw [← span_lineBracket (v := v)]
  constructor
  · rintro ⟨e, he, hspan⟩
    obtain ⟨m, hm, hspan', hrewritten, -⟩ := exists_bracket_of_mem_edits he
    obtain ⟨hu, rfl⟩ := eq_lineBracket_of_span hbody hm (hspan'.symm.trans hspan)
    rw [isRewritten, isMathBracket_lineBracket hv, Bool.and_eq_true, Bool.not_eq_true']
      at hrewritten
    exact ⟨hu, hrewritten.2, hrewritten.1⟩
  · rintro ⟨hu, hlooks, htouches⟩
    refine ⟨⟨(lineBracket u body v).span, displayOf (lineBracket u body v).value.body⟩,
      Reader.mem_edits_iff.mpr ⟨_, lineBracket_mem_findAll hbody hu, rfl, ?_⟩, rfl⟩
    apply if_pos
    rw [isRewritten, isMathBracket_lineBracket hv, hlooks, htouches]
    rfl

end LineBracket

/-! ### Lines that are converted -/

variable {t : Text} {m : Match Enclosure}

/-- A quoted block that is collapsed to a line. -/
def IsCollapsedIn (t : Text) (m : Match Enclosure) : Prop :=
  m ∈ Delimiter.quotedBracket.reader.findAll t ∧ isCollapsible m = true

/-- Where the line of a block stands in the collapsed text. -/
def lineSpan (t : Text) (m : Match Enclosure) : Span :=
  ⟨((collapses t).front m.start).length,
    ((collapses t).front m.start).length + (collapsedLine m).length⟩

/-- A collapsed text with its displays converted. -/
def displayed (t : Text) : Text :=
  (convertDisplays (collapsed t)).text

/-- A collapsed text with its displays and bracket blocks converted. -/
def blocked (t : Text) : Text :=
  (convertBracketBlocks (displayed t)).text

/-- Displays and bracket blocks leave the line of a block, and then it stands at the span `s`. -/
structure IsCarried (t : Text) (m : Match Enclosure) (s : Span) : Prop where
  /-- No display shares a character with the line. -/
  displays : (displayEdits (collapsed t)).Keep (lineSpan t m)
  /-- No bracket block that is converted does. -/
  blocks : (blockEdits (displayed t)).Keep ((displayEdits (collapsed t)).moved (lineSpan t m))
  /-- The displays and bracket blocks before the line move it. -/
  span_eq : s
    = (blockEdits (displayed t)).moved ((displayEdits (collapsed t)).moved (lineSpan t m))

/-- The line of a block is converted: it is left to the conversion of brackets, which makes an edit
of its bracket. -/
def IsConvertedLine (t : Text) (m : Match Enclosure) : Prop :=
  ∃ s, IsCarried t m s ∧ ∃ e ∈ (bracketEdits (blocked t)).list, e.span = bracketSpan s

/-- What is asked of the line of a block to be converted. -/
def IsAcceptedLine (t : Text) (m : Match Enclosure) : Prop :=
  ∃ s, IsCarried t m s ∧ IsClosed ((blocked t).take s.start)
    ∧ looksMathWithin (Quote.unquote m.value.body) = true
    ∧ (bracketSpan s).touches (dollarSpans .all (blocked t)) = false

/-- The line of a block in the collapsed text. -/
theorem exists_collapsed_eq (h : IsCollapsedIn t m) :
  ∃ u v, collapsed t = u ++ (collapsedLine m ++ v) ∧ IsLineStop v
    ∧ lineSpan t m = ⟨u.length, u.length + (collapsedLine m).length⟩
  := by
  have he : ⟨m.span, collapsedLine m⟩ ∈ (collapses t).list :=
    mem_collapses_iff.mpr ⟨m, h.1, rfl, h.2, rfl⟩
  have hline := isLine_of_mem_collapses he
  refine ⟨(collapses t).front m.start, (collapses t).behind m.span.stop, ?_, ?_, rfl⟩
  · rw [← text_collapses]
    exact Edits.text_eq_of_mem he
  · have hstart : ∀ e ∈ (collapses t).list, e.span.start ≠ m.span.stop := by
      intro e he' heq
      have hlt := (collapses t).within e he'
      have hfirst := (isLine_of_mem_collapses he').first
      have hget : t[e.span.start]? = some t[e.span.start] := List.getElem?_eq_getElem (by omega)
      have hafter := hline.after t[e.span.start] (by rw [← hget, heq])
      rw [hget, hafter] at hfirst
      exact hfirst rfl
    intro c hc
    rw [Edits.head?_behind hstart] at hc
    exact hline.after c hc

/-- A line that is carried stands in the text that is left to the conversion of brackets. -/
theorem IsCarried.exists_blocked_eq {s : Span} (hm : IsCollapsedIn t m) (h : IsCarried t m s) :
  ∃ u v, blocked t = u ++ (collapsedLine m ++ v) ∧ IsLineStop v
    ∧ s = ⟨u.length, u.length + (collapsedLine m).length⟩
  := by
  obtain ⟨hdisplays, hblocks, rfl⟩ := h
  have hlast : (collapsedLine m).getLast? = some ']' :=
    List.getLast?_append_of_ne_nil _ (List.cons_ne_nil _ _)
  obtain ⟨u, v, htext, hv, hline⟩ := exists_collapsed_eq hm
  rw [hline] at hdisplays hblocks ⊢
  obtain ⟨u', v', htext', hv', hmoved⟩ := exists_convertDisplays_eq htext hv hdisplays
  rw [hmoved] at hblocks ⊢
  exact exists_convertBracketBlocks_eq htext' hv' hlast hblocks

/-- The line of a block is converted exactly when it is carried to the conversion of brackets, no
bracket is open before it, its body looks like mathematics wherever it stands, and its bracket
touches no dollar mathematics. -/
theorem isConvertedLine_iff (hm : IsCollapsedIn t m) :
  IsConvertedLine t m ↔ IsAcceptedLine t m
  := by
  rw [IsConvertedLine, IsAcceptedLine]
  apply exists_congr
  intro s
  apply and_congr_right
  intro hcarried
  obtain ⟨u, v, htext, hv, rfl⟩ := hcarried.exists_blocked_eq hm
  have hbody : ']' ∉ Quote.unquote m.value.body := by
    have hcollapsible := hm.2
    simp only [isCollapsible, Bool.and_eq_true, Bool.not_eq_true'] at hcollapsible
    simpa using hcollapsible.1.1
  rw [htext, List.take_left]
  exact exists_mem_bracketEdits_iff hbody hv

/-! ### Edits that are not tallied -/

/-- In a text that is free of formulas no line is converted. -/
theorem FormulaFree.not_isConvertedLine (h : FormulaFree t) :
  ¬ IsConvertedLine t m
  := by
  rintro ⟨s, -, e, he, -⟩
  have hdisplayed : displayed t = collapsed t :=
    (convertDisplays_isTallied _).2 ((total_convertDisplays_eq_zero_iff _).mpr h.displays)
  have hblocked : blocked t = collapsed t := by
    rw [blocked, hdisplayed]
    exact (convertBracketBlocks_isTallied _).2
      ((total_convertBracketBlocks_eq_zero_iff _).mpr h.blocks)
  rw [hblocked] at he
  obtain ⟨m', hm', -, hrewritten, -⟩ := exists_bracket_of_mem_edits he
  rw [isRewritten, Bool.and_eq_true, Bool.not_eq_true'] at hrewritten
  rw [h.brackets m' hm' hrewritten.2] at hrewritten
  cases hrewritten.1

/-- The text of a prose segment before its quoted brackets are collapsed. -/
def displayQuoted (t : Text) : Text :=
  (convertQuotedDisplays t).text

/-- A text without formulas has no quoted display to convert. -/
theorem FormulaFree.displayQuoted_eq (h : FormulaFree t) :
  displayQuoted t = t
  := (convertQuotedDisplays_isTallied t).2
    ((total_convertQuotedDisplays_eq_zero_iff t).mpr h.quotedDisplays)

/-- A document that is kept tallies nothing; one that tallies nothing is kept exactly when no
quoted bracket is collapsed.  The tally tells whether a document has been changed if every line
that a quoted bracket is collapsed to is converted, and a line is converted exactly when it is
accepted. -/
theorem total_eq_zero_and_isConvertedLine_iff (d : Text) :
  ((convertDocument d).text = d → (convertDocument d).tally.total = 0)
    ∧ ((convertDocument d).tally.total = 0 →
      ((convertDocument d).text = d ↔ AllProse (fun t => ∀ m, ¬ IsCollapsedIn t m) d))
    ∧ (AllProse (fun t => ∀ m, IsCollapsedIn (displayQuoted t) m →
        IsConvertedLine (displayQuoted t) m) d →
      ((convertDocument d).tally.total = 0 ↔ (convertDocument d).text = d))
    ∧ AllProse (fun t => ∀ m, IsCollapsedIn (displayQuoted t) m →
      (IsConvertedLine (displayQuoted t) m ↔ IsAcceptedLine (displayQuoted t) m)) d
  := by
  have hkept : (convertDocument d).tally.total = 0 →
      ((convertDocument d).text = d ↔ AllProse (fun t => ∀ m, ¬ IsCollapsedIn t m) d) := by
    intro htotal
    have hfree := (total_convertDocument_eq_zero_iff d).mp htotal
    constructor
    · rintro htext s hs hkind m ⟨hm, hcollapsible⟩
      rw [(settled_of_text_eq hfree htext s hs hkind).quotedBrackets m hm] at hcollapsible
      cases hcollapsible
    · intro hnone
      apply text_convertDocument_of_settled
      intro s hs hkind
      refine ⟨hfree s hs hkind, fun m hm => ?_⟩
      rw [← Bool.not_eq_true]
      exact fun hcollapsible => hnone s hs hkind m ⟨hm, hcollapsible⟩
  refine ⟨total_eq_zero_of_text_eq, hkept, ?_, ?_⟩
  · intro hconverted
    constructor
    · intro htotal
      apply (hkept htotal).mpr
      intro s hs hkind m hm
      have hfree := (total_convertDocument_eq_zero_iff d).mp htotal s hs hkind
      have hline := hconverted s hs hkind m
      rw [hfree.displayQuoted_eq] at hline
      exact hfree.not_isConvertedLine (hline hm)
    · exact total_eq_zero_of_text_eq
  · intro s hs hkind m hm
    exact isConvertedLine_iff hm

/-- The body of a quoted bracket is judged without the blanks around it, the body of the bracket
that it becomes with them. -/
theorem text_ne_of_total_eq_zero :
  let d := ['>', ' ', '[', '\n', '>', ' ', 'x', '=', 'y', 'y', '\n', '>', ' ', ']']
  ¬ ((convertDocument d).tally.total = 0 ↔ (convertDocument d).text = d)
  := by
  decide

end DollarMath
