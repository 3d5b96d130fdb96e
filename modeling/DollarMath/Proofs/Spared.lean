import DollarMath.Proofs.Balance
import DollarMath.Proofs.Blocks
import DollarMath.Proofs.Explicit
import DollarMath.Proofs.Fencing
import DollarMath.Proofs.Neighbours
import DollarMath.Proofs.Settled

/-!
# Formulas spared by the displays

The steps that write displays judge a bracket by its body and do not look for formulas in
backslash parentheses.  A formula is kept by them as long as they rewrite nothing that shares
a character with it.
-/

namespace DollarMath

open scoped List

open Explicit

/-- A span that shares no character with the formulas outside the displays of a text. -/
def Span.Spares (s : Span) (t : Text) : Prop :=
  ∀ d ∈ formulaSpans t, s.Apart d

instance (s : Span) (t : Text) : Decidable (s.Spares t) :=
  inferInstanceAs (Decidable (∀ d ∈ _, _))

/-! ### Neighbours in the collapsed text -/

/-- Characters that are apart in a block are apart in its line. -/
theorem separates_collapsedLine {x y : Char} {m : Match Enclosure} (hx : ' ' ≠ x) (hy : ' ' ≠ y)
    (h : Separates x y m.value.body) :
  Separates x y (collapsedLine m)
  := by
  have hopen : Separates x y ['>', ' ', '[', ' '] := by
    simp [Separates, hx, hy]
  have hclose : Separates x y [' ', ']'] := by
    simp [Separates, hx]
  apply Separates.append (Separates.append hopen (Quote.separates_unquote hx hy h) _) hclose
  · right
    simpa using hy
  · left
    simpa using hx

/-- The line of a block ends with a bracket. -/
theorem getLast?_collapsedLine (m : Match Enclosure) :
  (collapsedLine m).getLast? = some ']'
  := by
  rw [collapsedLine]
  apply List.getLast?_append_of_ne_nil _ (List.cons_ne_nil _ _)

/-- Collapsing brings no two characters together but blanks, brackets and quote marks. -/
theorem separates_collapsed {x y : Char} {t : Text} (hx : ' ' ≠ x) (hy : ' ' ≠ y)
    (hclose : ']' ≠ x) (hmark : '>' ≠ y) (h : Separates x y t) :
  Separates x y (collapsed t)
  := by
  rw [collapsed_eq_replace]
  revert h
  apply Reader.replace_gap_induction _ _ fun _ u u' => Separates x y u → Separates x y u'
  · exact fun _ _ h => h
  · intro p g m w n u' hm hw hread ih h
    obtain ⟨-, hw⟩ := Option.ite_none_right_eq_some.mp hw
    obtain rfl := Option.some.inj hw
    obtain ⟨-, hsource⟩ := Delimiter.form_of_mem_findAll hm
    have hbody : Separates x y (collapsedLine m) := by
      apply separates_collapsedLine hx hy
      apply h.of_infix
      rw [hsource, Enclosure.source]
      use g ++ (m.value.indent ++ m.value.marker ++ m.value.opening), m.value.closing ++ m.rest
      simp
    apply Separates.append
    · apply h.of_infix (List.prefix_append _ _).isInfix
    · apply hbody.append
      · apply ih
        apply h.of_infix
        rw [← List.append_assoc]
        apply (List.suffix_append _ _).isInfix
      · left
        simpa [getLast?_collapsedLine] using hclose
    · right
      simpa [collapsedLine] using hmark

/-- An enclosure is not found where two characters of its opening are no neighbours. -/
theorem Delimiter.findAll_eq_nil_of_separates
    {d : Delimiter} {x y : Char} {t : Text} (h : Separates x y t)
    (hform : ∀ e, d.HasForm e → [x, y] <:+: e.opening) :
  d.reader.findAll t = []
  := by
  apply List.eq_nil_iff_forall_not_mem.mpr
  intro m hm
  obtain ⟨he, hsource⟩ := form_of_mem_findAll hm
  obtain ⟨u, k, rfl, -⟩ := Reader.exists_of_mem_pieces hm
  apply separates_iff.mp h
  apply (hform _ he).trans
  rw [hsource, Enclosure.source]
  use u ++ (m.value.indent ++ m.value.marker), m.value.body ++ m.value.closing ++ m.rest
  simp

/-- Without a backslash before an opening bracket, three steps write the displays. -/
theorem text_convertAllDisplays_of_separates {t : Text} (h : Separates '\\' '[' t) :
  (convertAllDisplays t).text = (convertBrackets (convertBracketBlocks (collapsed t)).text).text
  := by
  have hquoted : (convertQuotedDisplays t).text = t := by
    apply Reader.text_replace_of_none
    rw [Delimiter.findAll_eq_nil_of_separates h]
    · simp
    · intro e he
      obtain ⟨s₁, s₂, n, hopening, -⟩ := QuotedForm.opening he
      rw [hopening]
      use ['>'] ++ s₁, s₂ ++ n
      simp
  have hcollapsed : Separates '\\' '[' (collapsed t) :=
    separates_collapsed (by decide) (by decide) (by decide) (by decide) h
  have hdisplays : (convertDisplays (collapsed t)).text = collapsed t := by
    apply Reader.text_replace_of_none
    rw [Delimiter.findAll_eq_nil_of_separates hcollapsed]
    · simp
    · intro e he
      use [], []
      rw [he]
      rfl
  rw [text_convertAllDisplays, hquoted, ← collapsed, hdisplays]

/-! ### Collapsing -/

/-- A quoted block starts and ends with its lines. -/
theorem Delimiter.lines_of_isRead_quoted {p : Place} {m : Match Enclosure} {n : Nat}
    (h : Reader.IsRead quotedBracket.reader p m n) :
  p.atLineStart = true ∧ m.rest.takeWhile (· ≠ '\n') = []
  := by
  obtain ⟨-, hline, -, -, -, hstop, -⟩ := (isRead_iff_of_isBlock (d := quotedBracket) trivial).mp h
  use hline
  cases hrest : m.rest with
  | nil => rfl
  | cons c cs =>
    obtain rfl := hstop c (by rw [hrest]; rfl)
    rfl

/-- A collapsed line has no dollar. -/
theorem dollar_not_mem_collapsedLine {m : Match Enclosure} (h : isCollapsible m = true) :
  '$' ∉ collapsedLine m
  := by
  simp only [isCollapsible, Bool.and_eq_true, Bool.not_eq_true'] at h
  have hbody : '$' ∉ Quote.unquote m.value.body := by simpa using h.1.2
  simp [collapsedLine, hbody]

/-- Behind a collapsed line nothing is escaped. -/
theorem escaped_after_collapsedLine (p : Place) (g : Text) (m : Match Enclosure) :
  (p.after (g ++ collapsedLine m)).escaped = false
  := by
  rw [collapsedLine, ← List.append_assoc]
  apply Place.escaped_after_append
  · apply List.cons_ne_nil
  · simp

/-- Behind a closing bracket and the spaces that follow it no backslash stands. -/
theorem escaped_after_closing (p : Place) (g : Text) {s : Text} (hs : IsSpaces s) :
  (p.after (g ++ ']' :: s)).escaped = false
  := by
  apply Place.escaped_after_append
  · apply List.cons_ne_nil
  · intro hmem
    rcases List.mem_cons.mp hmem with heq | hmem
    · cases heq
    · cases hs _ hmem

/-- Behind a quoted block nothing is escaped. -/
theorem QuotedForm.escaped_after
    {openMark : Text} {e : Enclosure} (h : QuotedForm openMark [']'] e) (p : Place) (g : Text) :
  (p.after (g ++ e.source)).escaped = false
  := by
  obtain ⟨n, s₁, s₂, hclosing, -, -, hs₂⟩ := h.closing
  rw [Enclosure.source, hclosing, ← List.append_assoc, ← List.append_assoc, ← List.append_assoc,
    ← List.append_assoc]
  apply escaped_after_closing p _ hs₂

/-- A line without dollars, between lines, keeps what stands around it. -/
theorem entries_append_line
    {p : Place} {g w z : Text} (hg : '$' ∉ g) (hw : '$' ∉ w)
    (hstart : ∀ u c v, g = u ++ c :: v → '\n' ∈ c :: v) (hends : z.takeWhile (· ≠ '\n') = []) :
  read.entries p (g ++ (w ++ z))
    = read.entries p g ++ (read.entries (p.after g) w ++ read.entries (p.after (g ++ w)) z)
  := by
  rw [isLocal_read.entries_append_of_passes, isLocal_read.entries_append_of_passes,
    Place.after_append]
  · intro u c v hu _ hpass
    apply passes_append _ (.inr _) hpass
    · rintro rfl
      apply hw
      simp [hu]
    · rw [hends]
      apply List.not_mem_nil
  · intro u c v hu _ hpass
    apply passes_append _ (.inl (hstart u c v hu)) hpass
    rintro rfl
    apply hg
    simp [hu]

/-- Collapsing keeps the formulas that the collapsed blocks spare. -/
theorem keepsFormulas_collapsed
    {t : Text} (hdollar : '$' ∉ t)
    (h : ∀ m ∈ Delimiter.quotedBracket.reader.findAll t,
      isCollapsible m = true → m.span.Spares t) :
  '$' ∉ collapsed t ∧ formulaBodies t <+ formulaBodies (collapsed t)
  := by
  constructor
  · have hcount := collapseQuotedBrackets_isBalanced t
    change ((collapsed t).count '$' : Int) = t.count '$' + (4 * 0 + 2 * 0) at hcount
    rw [List.count_eq_zero.mpr hdollar] at hcount
    apply List.count_eq_zero.mp
    omega
  · rw [collapsed_eq_replace]
    have hall := Reader.replace_gap_induction (Delimiter.quotedBracket.reader)
      (fun m => if isCollapsible m then some (collapsedLine m) else none) (t := t) fun p u u' =>
      (u.takeWhile (· ≠ '\n') = [] → u'.takeWhile (· ≠ '\n') = [])
        ∧ ∀ p', p'.escaped = p.escaped →
          (∀ i, .found i ∈ read.piecesFrom 0 p u → i ∈ read.findAll t) → '$' ∉ u →
          bodies (read.entries p u) <+ bodies (read.entries p' u')
    apply (hall _ _).2 .start rfl (fun i => Reader.mem_findAll_iff.mpr) hdollar
    · intro p u
      refine ⟨fun h => h, ?_⟩
      intro p' hp _ _
      rw [seesEscape_read.entries_congr hp]
    · intro p g m w n u' hm hw hread ⟨hends, ih⟩
      obtain ⟨hcollapsible, hw⟩ := Option.ite_none_right_eq_some.mp hw
      obtain rfl := Option.some.inj hw
      obtain ⟨hstart, hrest⟩ := Delimiter.lines_of_isRead_quoted hread
      obtain ⟨hform, hsource⟩ := Delimiter.form_of_mem_findAll hm
      obtain ⟨s₁, s₂, l, hopening, -⟩ := QuotedForm.opening hform
      constructor
      · cases g with
        | nil =>
          rw [hsource, Enclosure.source, (QuotedForm.before hform).1,
            (QuotedForm.before hform).2, hopening]
          intro h
          cases h
        | cons c g =>
          intro h
          by_cases hc : c = '\n'
          · simp [hc]
          · simp [hc] at h
      · intro p' hp hmem hdollar'
        obtain ⟨hentries, hlater⟩ := isLocal_read.entries_of_apart (p := p) (g := g)
          (s := m.source) (z := m.rest) (by
            intro i hi
            rw [← Place.after_offset, ← hread.start_eq]
            apply h m hm hcollapsible
            apply span_mem_formulaSpans_of_not_mem hdollar (hmem i hi))
        have hnew := entries_append_line (p := p') (g := g) (w := collapsedLine m) (z := u')
          (fun hmem => hdollar' (List.mem_append_left _ hmem))
          (dollar_not_mem_collapsedLine hcollapsible) (by
            rintro v c x rfl
            apply Place.newline_mem_of_atLineStart (List.cons_ne_nil c x) hstart) (hends hrest)
        have hkept := ih (p'.after (g ++ collapsedLine m)) (by
          rw [escaped_after_collapsedLine, hsource, QuotedForm.escaped_after hform])
          (fun i hi => hmem i (hlater i hi)) (by
          intro hmem
          apply hdollar'
          simp [hmem])
        rw [hnew, hentries]
        simp only [bodies_append, bodies_chars, List.nil_append]
        rw [seesEscape_read.entries_congr hp]
        apply List.Sublist.append (List.Sublist.refl _)
        apply hkept.trans
        apply List.sublist_append_right

/-! ### Writing displays -/

/-- A character that is neither blank nor a marker character is not in a marker. -/
theorem IsMarker.ne_of_mem {t : Text} (h : IsMarker t) {x : Char} (hblank : isBlank x = false)
    (hmark : Delimiter.isMarkerChar x = false) {c : Char} (hc : c ∈ t) :
  c ≠ x
  := by
  have havoids := h.avoids (p := (· == x)) (by
    intro c hc
    rw [beq_eq_false_iff_ne]
    rintro rfl
    simp [hblank] at hc) (by
    intro c hc
    rw [beq_eq_false_iff_ne]
    rintro rfl
    simp [hmark] at hc)
  apply beq_eq_false_iff_ne.mp (havoids c hc)

/-- A display with a marker in front of it, written for an enclosure that ends with a closing
bracket and spaces. -/
theorem isSplice_displayOf
    {e : Enclosure} {w g s : Text} (hmarker : ∀ c ∈ w, c ≠ '$' ∧ c ≠ '\\' ∧ c ≠ ')')
    (hsource : e.source = g ++ ']' :: s) (hs : IsSpaces s) :
  IsSplice e.source (w ++ displayOf e.body)
  := by
  constructor
  · refine ⟨w, e.body, rfl, hmarker, ?_⟩
    intro c hc
    rw [Enclosure.source]
    simp [hc]
  · intro p
    rw [hsource]
    apply escaped_after_closing p g hs

/-- A display may take the place of one between backslash brackets. -/
theorem isSplice_of_mem_display
    {t : Text} {m : Match Enclosure} (h : m ∈ Delimiter.display.reader.findAll t) :
  IsSplice m.source (displayOf m.value.body)
  := by
  obtain ⟨hform, hsource⟩ := Delimiter.form_of_mem_findAll h
  rw [hsource]
  apply isSplice_displayOf (w := []) (g := ['\\', '['] ++ m.value.body ++ ['\\']) (s := [])
  · simp
  · rw [hform]
    simp [Enclosure.source]
  · simp [IsSpaces]

/-- It may take that of a bracket block. -/
theorem isSplice_of_mem_bracketBlock
    {t : Text} {m : Match Enclosure} (h : m ∈ Delimiter.bracketBlock.reader.findAll t) :
  IsSplice m.source (m.value.marker ++ displayOf m.value.body)
  := by
  obtain ⟨hform, hsource⟩ := Delimiter.form_of_mem_findAll h
  obtain ⟨n, s₁, s₂, hclosing, -, -, hs₂⟩ := BlockForm.closing hform
  have hmarker := BlockForm.marker hform
  rw [hsource]
  apply isSplice_displayOf (g := m.value.indent ++ m.value.marker ++ m.value.opening
    ++ m.value.body ++ n ++ s₁) _ _ hs₂
  · intro c hc
    refine ⟨hmarker.ne_of_mem ?_ ?_ hc, hmarker.ne_of_mem ?_ ?_ hc,
      hmarker.ne_of_mem ?_ ?_ hc⟩ <;> decide
  · rw [Enclosure.source, hclosing]
    simp

/-- It may take that of a bracket. -/
theorem isSplice_of_mem_bracket
    {t : Text} {m : Match Enclosure} (h : m ∈ Delimiter.bracket.reader.findAll t) :
  IsSplice m.source (displayOf m.value.body)
  := by
  obtain ⟨⟨hform, -⟩, hsource⟩ := Delimiter.form_of_mem_findAll h
  rw [hsource]
  apply isSplice_displayOf (w := []) (g := ['['] ++ m.value.body) (s := [])
  · simp
  · rw [hform]
    simp [Enclosure.source]
  · simp [IsSpaces]

/-- Formulas that no converted bracket block touches are kept. -/
theorem keepsFormulas_convertBracketBlocks
    {t : Text} (htidy : IsTidy t)
    (h : ∀ m ∈ Delimiter.bracketBlock.reader.findAll t,
      m.span.touches (dollarSpans .all t) = false → looksMath m.value.body = true →
        m.span.Spares t) :
  IsTidy (convertBracketBlocks t).text
    ∧ formulaBodies t <+ formulaBodies (convertBracketBlocks t).text
  := by
  apply keepsFormulas_replaceOutside htidy
  · intro m hm w hw
    obtain ⟨-, hw⟩ := Option.ite_none_right_eq_some.mp hw
    obtain rfl := Option.some.inj hw
    apply isSplice_of_mem_bracketBlock hm
  · intro m hm htouches hsome
    apply h m hm htouches
    simpa [Option.isSome_iff_exists] using hsome

/-- Formulas that no rewritten bracket touches are kept. -/
theorem keepsFormulas_convertBrackets
    {t : Text} (htidy : IsTidy t)
    (h : ∀ m ∈ Delimiter.bracket.reader.findAll t, isRewritten t m = true → m.span.Spares t) :
  IsTidy (convertBrackets t).text ∧ formulaBodies t <+ formulaBodies (convertBrackets t).text
  := by
  apply keepsFormulas_replaceOutside htidy
  · intro m hm w hw
    obtain ⟨-, hw⟩ := Option.ite_none_right_eq_some.mp hw
    obtain rfl := Option.some.inj hw
    apply isSplice_of_mem_bracket hm
  · intro m hm htouches hsome
    apply h m hm
    rw [isRewritten, htouches]
    simpa [Option.isSome_iff_exists] using hsome

end DollarMath
