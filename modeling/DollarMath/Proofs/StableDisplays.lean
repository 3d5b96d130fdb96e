import DollarMath.Proofs.CollapsedLines
import DollarMath.Proofs.Standing

/-!
# Displays that are written once

Bracket blocks and brackets are rewritten to displays.  Where the dollars of a text are read, and no
bracket that is rewritten stands directly beside an inline formula, those of the new text are read
as well.  Then a block or a bracket that is rewritten in the new text has been overlooked in the
text before.
-/

namespace DollarMath

open Entries

/-- The place of a match that is found is told by its span. -/
theorem Reader.isRead_of_span {α : Type} {r : Reader α} {t x s y : Text} {m : Match α}
    (hm : m ∈ r.findAll t) (ht : t = x ++ (s ++ y))
    (hspan : m.span = ⟨x.length, x.length + s.length⟩) :
  m.source = s ∧ m.rest = y ∧ ∃ n, IsRead r (Place.start.after x) m n
  := by
  obtain ⟨u, n, heq, hstart, hread⟩ := exists_isRead_of_mem_findAll hm
  have hlength : u.length = x.length := by
    rw [← hstart]
    exact congrArg Span.start hspan
  have hstop : m.start + m.source.length = x.length + s.length := congrArg Span.stop hspan
  obtain ⟨rfl, hrest⟩ := List.append_inj (heq.symm.trans ht) hlength
  obtain ⟨hsource, hrest⟩ := List.append_inj hrest (by omega)
  exact ⟨hsource, hrest, n, hread⟩

/-- No bracket is open behind a closing bracket and spaces. -/
theorem isClosed_of_closing {s sp : Text} (h : IsSpaces sp) :
  IsClosed (s ++ ']' :: sp)
  := by
  apply isClosed_append_iff_or.mpr
  refine ⟨?_, .inl List.mem_cons_self⟩
  intro a b hab
  have hmem : '[' ∈ ']' :: sp := by
    rw [hab]
    simp
  have hsp := h '[' ((List.mem_cons.mp hmem).resolve_left (by decide))
  cases hsp

/-! ### Bracket blocks -/

/-- The edit of a bracket block that is converted, with the marker and the display. -/
def WritesBlock (t : Text) (e : Edit) (marker : Text) (d : Dollars) : Prop :=
  ∃ m ∈ Delimiter.bracketBlock.reader.findAll t,
    m.span.touches (dollarSpans .all t) = false ∧ e.span = m.span
      ∧ marker = m.value.marker ∧ d = .ofBody m.value.body ∧ looksMath m.value.body = true

/-- What the conversion of bracket blocks keeps and writes. -/
abbrev blockRules (t : Text) : Rules :=
  (blockEdits t).rules (WritesBlock t)

/-- An edit of a bracket block writes its marker and a display. -/
theorem writesBlock_of_mem {t : Text} {e : Edit} (he : e ∈ (blockEdits t).list) :
  ∃ m d, e.text = m ++ d.source ∧ WritesBlock t e m d
  := by
  obtain ⟨m, hm, hspan, hw⟩ := Reader.mem_edits_iff.mp he
  rw [Option.ite_none_left_eq_some, Option.ite_none_right_eq_some, Bool.not_eq_true] at hw
  obtain ⟨htouches, hmath, heq⟩ := hw
  refine ⟨m.value.marker, .ofBody m.value.body, ?_, m, hm, htouches, hspan, rfl, rfl, hmath⟩
  rw [← Option.some.inj heq, Dollars.source_ofBody]

/-- The edits of bracket blocks write dollar mathematics apart from any other. -/
theorem blockEdits_writeMath (t : Text) :
  (blockEdits t).WriteMath (WritesBlock t)
  := by
  intro e he
  obtain ⟨k, d, htext, hwrites⟩ := writesBlock_of_mem he
  obtain ⟨m, -, htouches, hspan, -⟩ := id hwrites
  rw [hspan]
  exact ⟨htouches, k, d, htext, hwrites⟩

section Block

variable {t x s k y : Text} {d : Dollars} (h : (blockRules t).Writes x s k d y)
include h

/-- A block that is converted where it stands. -/
theorem exists_block :
  ∃ m n, Reader.IsRead Delimiter.bracketBlock.reader (Place.start.after x) m n ∧ m.source = s
    ∧ m.rest = y ∧ m ∈ Delimiter.bracketBlock.reader.findAll t
    ∧ m.span.touches (dollarSpans .all t) = false ∧ looksMath m.value.body = true
    ∧ k = m.value.marker ∧ d = .ofBody m.value.body
  := by
  obtain ⟨ht, e, -, hspan, m, hm, htouches, hspan', rfl, rfl, hmath⟩ := h
  obtain ⟨hsource, hrest, n, hread⟩ := Reader.isRead_of_span hm ht (hspan'.symm.trans hspan)
  exact ⟨m, n, hread, hsource, hrest, hm, htouches, hmath, rfl, rfl⟩

/-- A block that is converted stands on lines of its own. -/
theorem line_of_block :
  (∀ c ∈ x.getLast?, c = '\n') ∧ IsLineStop y ∧ IsMarker k
    ∧ ∃ w sp, s = w ++ ']' :: sp ∧ IsSpaces sp
  := by
  obtain ⟨m, n, hread, rfl, rfl, -, -, -, rfl, -⟩ := exists_block h
  have hd : Delimiter.bracketBlock.IsBlock := trivial
  obtain ⟨-, hline, hform, hsource, -, hstop, -⟩ := (Delimiter.isRead_iff_of_isBlock hd).mp hread
  obtain ⟨w, sp, heq, hsp⟩ := Delimiter.exists_source_eq hd hform
  refine ⟨Place.atLineStart_start_after_iff.mp hline, hstop, BlockForm.marker hform, w, sp, ?_, hsp⟩
  rw [hsource, heq]

/-- If all dollars are read, a block that is converted holds none. -/
theorem dollar_not_mem_of_block (hread : AreRead none none ((Dollars.read .all).entries .start t)) :
  '$' ∉ s
  := by
  obtain ⟨ht, e, -, hspan, m, -, htouches, hspan', -⟩ := h
  rw [← hspan', hspan] at htouches
  exact Dollars.dollar_not_mem_of_touches hread ht htouches

end Block

/-- They write displays beside no inline formula. -/
theorem blockRules_writesDisplays {t : Text}
    (hread : AreRead none none ((Dollars.read .all).entries .start t)) :
  (blockRules t).WritesDisplays
  where
  isDisplay {x s k d y} h := by
    have hdollar := dollar_not_mem_of_block h hread
    obtain ⟨m, n, -, rfl, -, hm, -, -, -, rfl⟩ := exists_block h
    apply Dollars.isDisplay_ofBody
    rw [(Delimiter.form_of_mem_findAll hm).2, Enclosure.source] at hdollar
    exact fun hmem => hdollar (by simp [hmem])
  marker h := (line_of_block h).2.2.1.dollar_not_mem
  before h hlast := by
    have hnewline := (line_of_block h).1 '$' hlast
    cases hnewline
  behind h hhead := by
    have hnewline := (line_of_block h).2.1 '$' hhead
    cases hnewline

/-- They keep the brackets outside as they are. -/
theorem blockRules_keepsBrackets (t : Text) :
  (blockRules t).KeepsBrackets
  where
  source_ne_nil h := by
    obtain ⟨-, -, -, w, sp, rfl, -⟩ := line_of_block h
    simp
  marker h := (line_of_block h).2.2.1
  closing h _ := by
    obtain ⟨-, -, -, w, sp, rfl, -⟩ := line_of_block h
    simp
  isClosed h _ := by
    obtain ⟨-, -, -, w, sp, rfl, hsp⟩ := line_of_block h
    exact isClosed_of_closing hsp
  link h hlast := by
    have hnewline := (line_of_block h).1 ']' hlast
    cases hnewline

/-! ### Brackets -/

/-- The edit of a bracket that is converted, with its display. -/
def WritesBracket (t : Text) (e : Edit) (marker : Text) (d : Dollars) : Prop :=
  ∃ m ∈ Delimiter.bracket.reader.findAll t, isRewritten t m = true ∧ e.span = m.span
    ∧ marker = [] ∧ d = .ofBody m.value.body

/-- What the conversion of brackets keeps and writes. -/
abbrev bracketRules (t : Text) : Rules :=
  (bracketEdits t).rules (WritesBracket t)

/-- The edits of brackets write dollar mathematics apart from any other. -/
theorem bracketEdits_writeMath (t : Text) :
  (bracketEdits t).WriteMath (WritesBracket t)
  := by
  intro e he
  obtain ⟨m, hm, hspan, hrewritten, htext⟩ := exists_bracket_of_mem_edits he
  have htouches := hrewritten
  rw [isRewritten, Bool.and_eq_true, Bool.not_eq_true'] at htouches
  rw [hspan]
  refine ⟨htouches.1, [], .ofBody m.value.body, ?_, m, hm, hrewritten, hspan, rfl, rfl⟩
  rw [htext, Dollars.source_ofBody, List.nil_append]

/-- No single dollar stands directly beside a match. -/
def Match.IsBesideNoInline {α : Type} (t : Text) (m : Match α) : Prop :=
  ((t.take m.start).getLast? = some '$' → ['$', '$'] <:+ t.take m.start)
    ∧ (m.rest.head? = some '$' → ['$', '$'] <+: m.rest)

instance {α : Type} (t : Text) (m : Match α) : Decidable (m.IsBesideNoInline t) :=
  inferInstanceAs (Decidable (_ ∧ _))

section Bracket

variable {t x s k y : Text} {d : Dollars} (h : (bracketRules t).Writes x s k d y)
include h

/-- A bracket that is converted where it stands. -/
theorem exists_bracket :
  ∃ m ∈ Delimiter.bracket.reader.findAll t, isRewritten t m = true ∧ m.source = s ∧ m.rest = y
    ∧ t.take m.start = x ∧ k = [] ∧ d = .ofBody m.value.body
  := by
  obtain ⟨ht, e, -, hspan, m, hm, hrewritten, hspan', rfl, rfl⟩ := h
  obtain ⟨hsource, hrest, n, hread⟩ := Reader.isRead_of_span hm ht (hspan'.symm.trans hspan)
  refine ⟨m, hm, hrewritten, hsource, hrest, ?_, rfl, rfl⟩
  rw [hread.start_eq, Place.after_offset, ht]
  exact (congrArg (List.take · _) (Nat.zero_add _)).trans (List.take_left)

/-- The characters of a bracket that is converted. -/
theorem source_of_bracket :
  ∃ body, s = '[' :: body ++ [']'] ∧ ']' ∉ body ∧ d = .ofBody body
  := by
  obtain ⟨m, hm, -, rfl, -, -, -, rfl⟩ := exists_bracket h
  obtain ⟨-, -, -, -, ⟨body, hvalue, -, hclosing⟩, hsource⟩ := mem_findAll_bracket_iff.mp hm
  refine ⟨body, ?_, hclosing, ?_⟩
  · rw [hsource, hvalue]
    simp [Enclosure.source]
  · rw [hvalue]

/-- If all dollars are read, a bracket that is converted holds none. -/
theorem dollar_not_mem_of_bracket
    (hread : AreRead none none ((Dollars.read .all).entries .start t)) :
  '$' ∉ s
  := by
  obtain ⟨ht, e, -, hspan, m, -, hrewritten, hspan', -⟩ := h
  rw [isRewritten, Bool.and_eq_true, Bool.not_eq_true', ← hspan', hspan] at hrewritten
  exact Dollars.dollar_not_mem_of_touches hread ht hrewritten.1

end Bracket

/-- They write displays beside no inline formula, if no single dollar stands beside a bracket. -/
theorem bracketRules_writesDisplays {t : Text}
    (hread : AreRead none none ((Dollars.read .all).entries .start t))
    (hbeside : ∀ m ∈ Delimiter.bracket.reader.findAll t, isRewritten t m = true →
      m.IsBesideNoInline t) :
  (bracketRules t).WritesDisplays
  where
  isDisplay {x s k d y} h := by
    have hdollar := dollar_not_mem_of_bracket h hread
    obtain ⟨body, rfl, -, rfl⟩ := source_of_bracket h
    apply Dollars.isDisplay_ofBody
    exact fun hmem => hdollar (by simp [hmem])
  marker h := by
    obtain ⟨-, -, -, -, -, -, rfl, -⟩ := exists_bracket h
    exact List.not_mem_nil
  before h hlast := by
    obtain ⟨m, hm, hrewritten, -, -, rfl, rfl, -⟩ := exists_bracket h
    exact ⟨rfl, (hbeside m hm hrewritten).1 hlast⟩
  behind h hhead := by
    obtain ⟨m, hm, hrewritten, -, rfl, -, -, -⟩ := exists_bracket h
    exact (hbeside m hm hrewritten).2 hhead

/-- They keep the other brackets as they are. -/
theorem bracketRules_keepsBrackets (t : Text) :
  (bracketRules t).KeepsBrackets
  where
  source_ne_nil h := by
    obtain ⟨body, rfl, -⟩ := source_of_bracket h
    simp
  marker h := by
    obtain ⟨-, -, -, -, -, -, rfl, -⟩ := exists_bracket h
    exact .inl rfl
  closing h _ := by
    obtain ⟨body, rfl, -⟩ := source_of_bracket h
    simp
  isClosed h _ := by
    obtain ⟨body, rfl, -⟩ := source_of_bracket h
    exact isClosed_of_closing (show IsSpaces [] by simp [IsSpaces])
  link h _ := by
    obtain ⟨body, rfl, -⟩ := source_of_bracket h
    exact ⟨by simp, by simp⟩

/-! ### Nothing left for the displays -/

/-- A bracket block that looks like mathematics stands in a text, and touches no dollar
mathematics. -/
def HoldsBlock (t : Text) : Prop :=
  ∃ m, Delimiter.bracketBlock.reader.StandsIn t m ∧ looksMath m.value.body = true
    ∧ m.span.touches (dollarSpans .all t) = false

/-- A bracket of a text is rewritten. -/
def HoldsBracket (t : Text) : Prop :=
  ∃ m ∈ Delimiter.bracket.reader.findAll t, isRewritten t m = true

/-- A text with nothing to collapse and no bracket to rewrite, over several lines or within one. -/
structure IsBare (t : Text) : Prop where
  /-- No collapsible block stands in the text. -/
  collapsible : ¬ HoldsCollapsible t
  /-- No bracket block is left. -/
  blocks : ¬ HoldsBlock t
  /-- No bracket is left. -/
  brackets : ¬ HoldsBracket t

section Rewriting

variable {R : Rules} {es es' : Entries} (h : Rewrites R [] [] es es') (hR : R.KeepsBrackets)
  (hes : AreRead none none es) (hes' : AreRead none none es')
include h hR hes hes'

/-- A block comes up only where one was kept. -/
theorem Rewrites.exists_of_holdsBlock (hblock : HoldsBlock (text es')) :
  HoldsBlock (text es)
  := by
  obtain ⟨m, hm, hmath, htouches⟩ := hblock
  obtain ⟨x, y, -, hstands, hspan⟩ :=
    h.exists_standsIn_of_touches (d := .bracketBlock) trivial hR hes hes' hm htouches
  exact ⟨_, hstands, hmath, hspan⟩

/-- A bare text stays bare if no collapsible block is written. -/
theorem Rewrites.isBare
    (hwrites : ∀ {x s m d y}, R.Writes x s m d y → ¬ HoldsCollapsible d.source)
    (hbare : IsBare (text es)) :
  IsBare (text es')
  := by
  constructor
  · exact h.not_holdsCollapsible hR hes' hwrites hbare.collapsible
  · exact fun hblock => hbare.blocks (h.exists_of_holdsBlock hR hes hes' hblock)
  · rintro ⟨m, hm, hrewritten⟩
    obtain ⟨x, y, -, hmem, hrewritten⟩ := h.exists_isRewritten hR hes hes' hm hrewritten
    exact hbare.brackets ⟨_, hmem, hrewritten⟩

end Rewriting

/-- A collapsible block holds a closing bracket. -/
theorem not_holdsCollapsible_of_not_mem {t : Text} (h : ']' ∉ t) :
  ¬ HoldsCollapsible t
  := by
  rintro ⟨m, ⟨x, n, rfl, hread⟩, -⟩
  have hd : Delimiter.quotedBracket.IsBlock := trivial
  obtain ⟨-, -, hform, hsource, -⟩ := (Delimiter.isRead_iff_of_isBlock hd).mp hread
  obtain ⟨s, sp, heq, -⟩ := Delimiter.exists_source_eq hd hform
  apply h
  rw [hsource, heq]
  simp

/-- The displays between backslash brackets being converted, bracket blocks and brackets are
converted once and for all. -/
@[mk_iff]
structure DisplaysOnce (t : Text) : Prop where
  /-- All dollars are read. -/
  dollars : Dollars.IsClear t
  /-- No collapsible block is left, nor any that is hidden by another one. -/
  collapsible : ¬ HoldsCollapsible t
  /-- The displays that are written for bracket blocks hold no collapsible block. -/
  bodies : ∀ m ∈ Delimiter.bracketBlock.reader.findAll t, looksMath m.value.body = true →
    m.span.touches (dollarSpans .all t) = false → ¬ HoldsCollapsible (displayOf m.value.body)
  /-- A bracket block that looks like mathematics and touches no dollar mathematics starts in one
  that is converted. -/
  blocks : ∀ m, Delimiter.bracketBlock.reader.StandsIn t m → looksMath m.value.body = true →
    m.span.touches (dollarSpans .all t) = false →
      ∃ e ∈ (blockEdits t).list, e.span.start ≤ m.start ∧ m.start < e.span.stop
  /-- No single dollar stands directly beside a bracket that is rewritten. -/
  brackets : ∀ m ∈ Delimiter.bracket.reader.findAll (convertBracketBlocks t).text,
    isRewritten (convertBracketBlocks t).text m = true →
      m.IsBesideNoInline (convertBracketBlocks t).text

instance (t : Text) : Decidable (DisplaysOnce t) :=
  decidable_of_iff _ (displaysOnce_iff t).symm

/-- Bracket blocks that are converted once and for all. -/
theorem DisplaysOnce.exists_blocks {t : Text} (h : DisplaysOnce t) :
  ∃ es, text es = (convertBracketBlocks t).text ∧ AreRead none none es
    ∧ ¬ HoldsCollapsible (text es) ∧ ¬ HoldsBlock (text es)
  := by
  have hread := h.dollars.areRead
  obtain ⟨es, htext, hes⟩ := Rewrites.exists_of_edits (blockEdits_writeMath t)
  have hes' : AreRead none none es :=
    hes.areRead_of_writesDisplays (blockRules_writesDisplays hread) hread (w := []) (.inl rfl)
  have hR := blockRules_keepsBrackets t
  refine ⟨es, htext.trans (text_blockEdits t), hes', ?_, ?_⟩
  · apply hes.not_holdsCollapsible hR hes'
    · intro x s k d y hwrites
      obtain ⟨m, n, -, -, -, hm, htouches, hmath, -, rfl⟩ := exists_block hwrites
      rw [Dollars.source_ofBody]
      exact h.bodies m hm hmath htouches
    · rw [text_entries]
      exact h.collapsible
  · rintro ⟨m, hm, hmath, htouches⟩
    obtain ⟨x, y, hkeeps, hstands, hspan⟩ :=
      hes.exists_standsIn_of_touches (d := .bracketBlock) trivial hR hread hes' hm htouches
    rw [text_entries] at hstands hspan
    obtain ⟨e, he, hle, hlt⟩ := h.blocks _ hstands hmath hspan
    rcases hkeeps.2 e he with hbefore | hbehind
    · exact Nat.lt_irrefl _ (Nat.lt_of_lt_of_le hbefore hle)
    · exact Nat.lt_irrefl _ (Nat.lt_of_lt_of_le hlt hbehind)

/-- Bracket blocks and brackets that are converted once and for all leave a bare text, all of
whose dollars are read. -/
theorem DisplaysOnce.exists_brackets {t : Text} (h : DisplaysOnce t) :
  ∃ es, text es = (convertBrackets (convertBracketBlocks t).text).text ∧ AreRead none none es
    ∧ IsBare (text es)
  := by
  obtain ⟨bs, hbs, hread, hcollapsible, hblocks⟩ := h.exists_blocks
  have hbeside := h.brackets
  rw [← hbs] at hbeside ⊢
  have hentries := hread.entries_eq
  obtain ⟨es, htext, hes⟩ := Rewrites.exists_of_edits (bracketEdits_writeMath (text bs))
  have hwrites : (bracketRules (text bs)).WritesDisplays := by
    apply bracketRules_writesDisplays _ hbeside
    rwa [hentries]
  rw [hentries] at hes
  have hes' : AreRead none none es :=
    hes.areRead_of_writesDisplays hwrites hread (w := []) (.inl rfl)
  have hR := bracketRules_keepsBrackets (text bs)
  refine ⟨es, htext.trans (text_convertBrackets _).symm, hes', ?_, ?_, ?_⟩
  · apply hes.not_holdsCollapsible hR hes' _ hcollapsible
    intro x s k d y hwrite
    obtain ⟨body, -, hclosing, rfl⟩ := source_of_bracket hwrite
    apply not_holdsCollapsible_of_not_mem
    rw [Dollars.source_ofBody]
    simpa [displayOf] using fun hmem => hclosing (mem_of_mem_trim hmem)
  · exact fun hblock => hblocks (hes.exists_of_holdsBlock hR hread hes' hblock)
  · rintro ⟨m, hm, hrewritten⟩
    obtain ⟨x, y, hkeeps, hmem, hrewritten⟩ :=
      hes.exists_isRewritten hR hread hes' hm hrewritten
    have hedit : ⟨⟨x.length, x.length + m.source.length⟩, displayOf m.value.body⟩
        ∈ (bracketEdits (text bs)).list := by
      apply Reader.mem_edits_iff.mpr
      exact ⟨_, hmem, rfl, if_pos hrewritten⟩
    have hpos := ((bracketEdits (text bs)).within _ hedit).1
    rcases hkeeps.2 _ hedit with hbefore | hbehind
    · exact Nat.lt_irrefl _ hbefore
    · exact Nat.lt_irrefl _ (Nat.lt_of_lt_of_le hpos hbehind)

end DollarMath
