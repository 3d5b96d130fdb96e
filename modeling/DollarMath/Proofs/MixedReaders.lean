import DollarMath.Proofs.MixedPatterns

/-!
# Enclosures with mixed line ends

Enclosures are found in a text with mixed line ends and in the text without its carriage returns
at the same places.  For the blocks of whole lines there is a condition: a block stops at a line
feed or at the end of the text, and is not found where a carriage return follows its closing
delimiter.
-/

namespace DollarMath

open LineEnds

/-- An enclosure without the carriage returns in its parts. -/
def Enclosure.dropReturns (e : Enclosure) : Enclosure :=
  ⟨LineEnds.dropReturns e.indent, LineEnds.dropReturns e.marker, LineEnds.dropReturns e.opening,
    LineEnds.dropReturns e.body, LineEnds.dropReturns e.closing⟩

/-- Before the line end that a text stops at, the place is the same. -/
theorem Place.before_after_dropReturns {u : Text} (h : u.getLast? ≠ some '\r') :
  (start.after (dropReturns u)).before = (start.after u).before
  := by
  rw [before_start_after, before_start_after, getLast?_dropReturns h]

namespace Delimiter

/-- Behind a block that starts a line, up to its first closing, stands no carriage return. -/
def EndsBare (d : Delimiter) (t : Text) : Prop :=
  ∀ a e v, t = a ++ (e.source ++ v) → (Place.start.after a).atLineStart = true → d.HasForm e →
    IsFirst d.HasClosing (e.body ++ (e.closing ++ v)) e.body.length → v.head? ≠ some '\r'

/-- Before a closing bracket no block ends, and behind it there may be no carriage return. -/
theorem EndsBare.of_append {d : Delimiter} (hd : d.IsBlock) {u v : Text} (hu : ']' ∉ u)
    (hv : '\r' ∉ v) :
  d.EndsBare (u ++ v)
  := by
  intro a e w heq _ he _ hhead
  obtain ⟨w, rfl⟩ := List.head?_eq_some_iff.mp hhead
  have hclosing := hasClosing_of_hasForm hd he
  have hbracket : ']' ∈ e.source := by
    rw [Enclosure.source, List.mem_append]
    right
    cases d with
    | quotedDisplay | quotedBracket | bracketBlock =>
      obtain ⟨n, s₁, s₂, hclosing, -⟩ := hclosing
      simp [hclosing]
    | display | bracket | inline => cases hd
  rw [← List.append_assoc] at heq
  rcases List.append_eq_append_iff.mp heq with ⟨b, -, rfl⟩ | ⟨b, rfl, -⟩
  · exact hv (by simp)
  · exact hu (by simp [hbracket])

/-! ### Patterns of blocks -/

/-- Spaces and tabs are taken with the carriage returns behind them and without. -/
theorem seesThrough_spaces :
  spaces.SeesThrough
  := Pattern.seesThrough_run (by decide) (by decide)

/-- A mark is taken with the carriage returns behind it and without. -/
theorem IsMark.seesThrough {mark : Text} (h : IsMark mark) :
  (Pattern.literal mark).SeesThrough
  := by
  apply Pattern.seesThrough_literal
  intro c hc
  have hmem := h.2 c hc
  simp only [List.mem_cons, List.not_mem_nil, or_false] at hmem
  rcases hmem with rfl | rfl | rfl <;> decide

/-- So is the opening line of a quoted block. -/
theorem seesThrough_quotedOpening {mark : Text} (hmark : IsMark mark) :
  (quotedOpening mark).SeesThrough
  := by
  apply Pattern.SeesThrough.inOrder
  simp only [List.forall_mem_cons]
  exact ⟨Pattern.seesThrough_literal (by simp), seesThrough_spaces, hmark.seesThrough,
    seesThrough_spaces, Pattern.seesThrough_lineEnd, by simp⟩

/-- So is the opening line of a bracket block. -/
theorem seesThrough_blockOpening :
  blockOpening.SeesThrough
  := by
  apply Pattern.SeesThrough.inOrder
  simp only [List.forall_mem_cons]
  exact ⟨Pattern.seesThrough_literal (by simp), seesThrough_spaces, Pattern.seesThrough_lineEnd,
    by simp⟩

section Closings

variable {t : Text} (ht : IsPaired t)
include ht

/-- The closing line of a quoted block, if no carriage return follows it. -/
theorem commutes_quotedClosing {mark : Text} (hmark : IsMark mark)
    (hbare : ∀ u v, t = u ++ v → IsQuotedClosing mark u → v.head? ≠ some '\r') :
  (quotedClosing mark).Commutes t
  := by
  apply Pattern.commutes_inOrder_lineStop
    [.lineEnd, .literal ['>'], spaces, .literal mark, spaces] ht
  · simp only [List.forall_mem_cons]
    exact ⟨Pattern.seesThrough_lineEnd, Pattern.seesThrough_literal (by simp), seesThrough_spaces,
      hmark.seesThrough, seesThrough_spaces, by simp⟩
  · intro n hn
    apply hbare (t.take n) (t.drop n) (List.take_append_drop n t).symm
    have hparts := (Pattern.takes_lineEnd.inOrder_cons
      ((Pattern.takes_literal ['>']).inOrder_cons ((Pattern.takes_run _).inOrder_cons
      ((Pattern.takes_literal mark).inOrder_cons ((Pattern.takes_run _).inOrder_cons
      Pattern.takes_inOrder_nil))))) t n hn
    obtain ⟨e, _, hu, he, _, _, rfl, rfl, s₁, _, rfl, hs₁, _, _, rfl, rfl, s₂, _, rfl, hs₂, rfl⟩ :=
      hparts
    rw [List.append_nil] at hu
    exact ⟨e, s₁, s₂, hu, he, hs₁, hs₂⟩

/-- The closing line of a bracket block, if no carriage return follows it. -/
theorem commutes_blockClosing
    (hbare : ∀ u v, t = u ++ v → IsBlockClosing u → v.head? ≠ some '\r') :
  blockClosing.Commutes t
  := by
  apply Pattern.commutes_inOrder_lineStop
    [.lineEnd, spaces, .literal [']'], spaces] ht
  · simp only [List.forall_mem_cons]
    exact ⟨Pattern.seesThrough_lineEnd, seesThrough_spaces, Pattern.seesThrough_literal (by simp),
      seesThrough_spaces, by simp⟩
  · intro n hn
    apply hbare (t.take n) (t.drop n) (List.take_append_drop n t).symm
    have hparts := (Pattern.takes_lineEnd.inOrder_cons ((Pattern.takes_run _).inOrder_cons
      ((Pattern.takes_literal [']']).inOrder_cons ((Pattern.takes_run _).inOrder_cons
      Pattern.takes_inOrder_nil)))) t n hn
    obtain ⟨e, _, hu, he, s₁, _, rfl, hs₁, _, _, rfl, rfl, s₂, _, rfl, hs₂, rfl⟩ := hparts
    rw [List.append_nil] at hu
    exact ⟨e, s₁, s₂, hu, he, hs₁, hs₂⟩

end Closings

/-- The text up to the first closing. -/
theorem upTo_closing_dropReturns {closing : Pattern} {C : Text → Prop} {t : Text}
    (ht : IsPaired t) (hclosing : closing.Fits fun u v => C u ∧ IsLineStop v)
    (hcommutes : ∀ s, IsPaired s → (∀ u v, s = u ++ v → C u → v.head? ≠ some '\r') →
      closing.Commutes s)
    (hbare : ∀ a u v, t = a ++ (u ++ v) → C u → IsFirst C t a.length → v.head? ≠ some '\r') :
  closing.upTo (dropReturns t)
    = (closing.upTo t).map fun r =>
      (dropReturns r.1, (dropReturns ((t.drop r.1.length).take r.2)).length)
  := by
  apply Pattern.upTo_dropReturns
  intro a s has hnone
  apply hcommutes s
  · exact ht.of_isInfix ⟨a, [], by rw [has, List.append_nil]⟩
  · intro u v hs hu
    apply hbare a u v (by rw [has, hs]) hu
    exact (forall_eq_none_iff_isFirst hclosing).mp hnone

/-! ### Readers of blocks -/

section Blocks

variable {p p' : Place} {t : Text} (hp : p'.atLineStart = p.atLineStart) (ht : IsPaired t)
include hp ht

/-- A quoted block without the carriage returns, if none follows its closing line. -/
theorem readQuoted_dropReturns {openMark closeMark : Text} (hopen : IsMark openMark)
    (hclose : IsMark closeMark)
    (hbare : p.atLineStart = true → ∀ e v, t = e.source ++ v → QuotedForm openMark closeMark e →
      IsFirst (IsQuotedClosing closeMark) (e.body ++ (e.closing ++ v)) e.body.length →
      v.head? ≠ some '\r') :
  readQuoted openMark closeMark p' (dropReturns t)
    = (readQuoted openMark closeMark p t).map fun a =>
      (a.1.dropReturns, (dropReturns (t.take a.2)).length)
  := by
  rw [readQuoted, readQuoted, hp]
  by_cases hline : p.atLineStart = true
  · have hfront : quotedOpening openMark (dropReturns t) = _ :=
      seesThrough_quotedOpening hopen t ht
    rw [if_pos hline, if_pos hline, hfront]
    cases hn : quotedOpening openMark t with
    | none => rfl
    | some n =>
      obtain ⟨o, w, rfl, rfl, ho⟩ := (fits_quotedOpening hopen t n).mp hn
      have hbody := upTo_closing_dropReturns (t := w)
        (ht.of_isInfix (List.suffix_append o w).isInfix) (fits_quotedClosing hclose)
        (fun s hs hbare => commutes_quotedClosing hs hclose hbare) (by
          rintro a c v rfl hc hfirst
          apply hbare hline ⟨[], [], o, a, c⟩ v _ ⟨⟨rfl, rfl⟩, ho, hc⟩ hfirst
          simp [Enclosure.source])
      simp only [List.take_left, List.drop_left, Option.map_some, Option.bind_eq_bind,
        Option.bind_some, dropReturns_append, hbody]
      cases hr : (quotedClosing closeMark).upTo w with
      | none => rfl
      | some r =>
        obtain ⟨body, m⟩ := r
        obtain ⟨c, v, rfl, rfl, -⟩ :=
          (upTo_closing_eq_some_iff (fits_quotedClosing hclose)).mp hr
        simp [Enclosure.dropReturns, ← List.drop_drop, List.take_add, Nat.add_assoc]
  · rw [if_neg hline, if_neg hline]
    rfl

omit hp in
/-- A marker without the carriage returns. -/
theorem markerOf_dropReturns :
  markerOf (dropReturns t) = dropReturns (markerOf t)
  := by
  have hmark := ht.takeWhile_dropReturns (q := isMarkerChar) (by decide) (by decide)
  have hkeep := dropReturns_takeWhile (q := isMarkerChar) (by decide) t
  rw [markerOf, markerOf, hmark]
  cases hfront : t.takeWhile isMarkerChar with
  | nil => rfl
  | cons c m =>
    obtain ⟨v, rfl⟩ : c :: m <+: t := by
      rw [← hfront]
      exact t.takeWhile_prefix isMarkerChar
    rw [hfront] at hkeep
    dsimp only
    rw [dropReturns_append, dropReturns_append, hkeep, List.drop_left, List.drop_left,
      LineEnds.takeWhile_dropReturns (by decide)]

/-- A bracket block without the carriage returns, if none follows its closing line. -/
theorem readBracketBlock_dropReturns
    (hbare : p.atLineStart = true → ∀ e v, t = e.source ++ v → BlockForm e →
      IsFirst IsBlockClosing (e.body ++ (e.closing ++ v)) e.body.length → v.head? ≠ some '\r') :
  readBracketBlock p' (dropReturns t)
    = (readBracketBlock p t).map fun a => (a.1.dropReturns, (dropReturns (t.take a.2)).length)
  := by
  rw [readBracketBlock, readBracketBlock, hp]
  by_cases hline : p.atLineStart = true
  · rw [if_pos hline, if_pos hline]
    have hindent : IsSpaces (t.takeWhile isSpaceOrTab) := fun c hc => List.mem_takeWhile_imp hc
    have hspaces := ht.takeWhile_dropReturns (q := isSpaceOrTab) (by decide) (by decide)
    have hkeep := dropReturns_takeWhile (q := isSpaceOrTab) (by decide) t
    obtain ⟨y, hy⟩ := t.takeWhile_prefix isSpaceOrTab
    rw [hspaces]
    generalize t.takeWhile isSpaceOrTab = indent at hindent hkeep hy
    subst hy
    have hy := ht.of_isInfix (List.suffix_append indent y).isInfix
    have hmarker := isMarker_markerOf y
    have hmark := markerOf_dropReturns hy
    obtain ⟨z, hz⟩ := markerOf_isPrefix y
    simp only [dropReturns_append, hkeep, List.drop_left, ← List.drop_drop, hmark]
    generalize markerOf y = marker at hmarker hz
    subst hz
    have hz := hy.of_isInfix (List.suffix_append marker z).isInfix
    have hfront : blockOpening (dropReturns z) = _ := seesThrough_blockOpening z hz
    simp only [dropReturns_append, List.drop_left, hfront]
    cases hn : blockOpening z with
    | none => rfl
    | some n =>
      obtain ⟨o, w, rfl, rfl, ho⟩ := (fits_blockOpening z n).mp hn
      have hbody := upTo_closing_dropReturns (t := w)
        (hz.of_isInfix (List.suffix_append o w).isInfix) fits_blockClosing
        (fun s hs hbare => commutes_blockClosing hs hbare) (by
          rintro a c v rfl hc hfirst
          apply hbare hline ⟨indent, marker, o, a, c⟩ v _ ⟨hindent, hmarker, ho, hc⟩ hfirst
          simp [Enclosure.source])
      simp only [List.take_left, List.drop_left, Option.map_some, Option.bind_eq_bind,
        Option.bind_some, dropReturns_append, hbody]
      cases hr : blockClosing.upTo w with
      | none => rfl
      | some r =>
        obtain ⟨body, m⟩ := r
        obtain ⟨c, v, rfl, rfl, -⟩ := (upTo_closing_eq_some_iff fits_blockClosing).mp hr
        simp [Enclosure.dropReturns, List.take_add, Nat.add_assoc, hkeep]
  · rw [if_neg hline, if_neg hline]
    rfl

end Blocks

/-! ### Readers of other enclosures -/

/-- Inline mathematics does not start with a line feed. -/
theorem readInline_newline (p : Place) (cs : Text) :
  readInline p ('\\' :: '(' :: '\n' :: cs) = none
  := by
  rw [readInline, if_pos (by simp)]

/-- Inline mathematics does not start with a carriage return. -/
theorem readInline_return (p : Place) {cs : Text} (h : IsPaired ('\r' :: cs)) :
  readInline p ('\\' :: '(' :: '\r' :: cs) = none
  := by
  have hempty : Pattern.upTo (.literal ['\\', ')']) [] = none := by decide
  have hline : cs.takeWhile (· ≠ '\n') = [] := by
    cases cs with
    | nil => rfl
    | cons d ds => simp [(isPaired_cons.mp h).1 rfl d rfl]
  rw [readInline, hline, hempty, Option.map_none, ite_self]

section Escaped

variable {p p' : Place} {t : Text} (hp : p'.escaped = p.escaped) (ht : IsPaired t)
include hp ht

/-- A display without the carriage returns. -/
theorem readDisplay_dropReturns :
  readDisplay p' (dropReturns t)
    = (readDisplay p t).map fun a => (a.1.dropReturns, (dropReturns (t.take a.2)).length)
  := by
  have hnone : ∀ p t, ¬ ['\\', '['] <+: t → readDisplay p t = none := by
    intro p t h
    rw [readDisplay.eq_def]
    split
    · next cs => exact absurd ⟨cs, rfl⟩ h
    · rfl
  have hfront := ht.prefix_dropReturns_iff (w := ['\\', '[']) (by simp)
  by_cases h : ['\\', '['] <+: t
  · obtain ⟨cs, rfl⟩ := h
    have hcs := ht.of_isInfix (List.suffix_append ['\\', '['] cs).isInfix
    have hclose : Pattern.SeesThrough (.literal ['\\', ']']) :=
      Pattern.seesThrough_literal (by simp)
    rw [dropReturns_append, dropReturns_eq_self (by simp)]
    simp only [List.cons_append, List.nil_append, readDisplay, hp]
    split
    · rfl
    · rw [hclose.upTo_dropReturns hcs, Option.map_map, Option.map_map]
      apply Option.map_congr
      rintro ⟨body, n⟩ hr
      obtain ⟨rest, rfl, hrest⟩ := Pattern.exists_of_upTo_eq_some hr
      obtain ⟨rfl, rest, rfl⟩ := Pattern.literal_eq_some_iff.mp hrest
      simp [Enclosure.dropReturns, List.take_append, List.take_of_length_le, dropReturns_cons]
  · rw [hnone p t h, hnone p' _ (mt hfront.mp h)]
    rfl

/-- A formula in backslash parentheses without the carriage returns. -/
theorem readInline_dropReturns :
  readInline p' (dropReturns t)
    = (readInline p t).map fun a => (a.1.dropReturns, (dropReturns (t.take a.2)).length)
  := by
  have hnone : ∀ p t, (∀ c cs, t ≠ '\\' :: '(' :: c :: cs) → readInline p t = none := by
    intro p t h
    rw [readInline.eq_def]
    split
    · next c cs => exact absurd rfl (h c cs)
    · rfl
  have hfront := ht.prefix_dropReturns_iff (w := ['\\', '(']) (by simp)
  by_cases h : ['\\', '('] <+: t
  · obtain ⟨cs, rfl⟩ := h
    have hcs := ht.of_isInfix (List.suffix_append ['\\', '('] cs).isInfix
    have hclose : Pattern.SeesThrough (.literal ['\\', ')']) :=
      Pattern.seesThrough_literal (by simp)
    rw [dropReturns_append, dropReturns_eq_self (by simp)]
    simp only [List.cons_append, List.nil_append]
    cases cs with
    | nil => rfl
    | cons c cs =>
      by_cases hc : c = '\r'
      · subst hc
        rw [readInline_return p hcs, dropReturns_return]
        cases cs with
        | nil => rfl
        | cons d ds =>
          obtain rfl := (isPaired_cons.mp hcs).1 rfl d rfl
          rw [dropReturns_cons (by decide), readInline_newline]
          rfl
      · rw [dropReturns_cons hc]
        simp only [readInline, hp]
        split
        · rfl
        · have hline : IsPaired (cs.takeWhile (· ≠ '\n')) :=
            (isPaired_cons.mp hcs).2.of_isInfix (List.takeWhile_prefix _).isInfix
          rw [LineEnds.takeWhile_dropReturns (by decide), hclose.upTo_dropReturns hline,
            Option.map_map, Option.map_map]
          apply Option.map_congr
          rintro ⟨body, n⟩ hr
          obtain ⟨rest, hbody, hrest⟩ := Pattern.exists_of_upTo_eq_some hr
          obtain ⟨rfl, rest, rfl⟩ := Pattern.literal_eq_some_iff.mp hrest
          obtain ⟨tail, htail⟩ := cs.takeWhile_prefix (· ≠ '\n')
          rw [hbody] at htail
          subst htail
          simp [Enclosure.dropReturns, List.take_append, List.take_of_length_le, dropReturns_cons,
            hc]
  · rw [hnone p t, hnone p']
    · rfl
    · intro c cs heq
      apply h
      apply hfront.mp
      rw [heq]
      exact ⟨c :: cs, rfl⟩
    · rintro c cs rfl
      exact h ⟨c :: cs, rfl⟩

end Escaped

/-- A bracket without the carriage returns. -/
theorem readBracket_dropReturns (p p' : Place) {t : Text} (ht : IsPaired t) :
  readBracket p' (dropReturns t)
    = (readBracket p t).map fun a => (a.1.dropReturns, (dropReturns (t.take a.2)).length)
  := by
  have hnone : ∀ p t, ¬ ['['] <+: t → readBracket p t = none := by
    intro p t h
    rw [readBracket.eq_def]
    split
    · next cs => exact absurd ⟨cs, rfl⟩ h
    · rfl
  have hfront := ht.prefix_dropReturns_iff (w := ['[']) (by simp)
  by_cases h : ['['] <+: t
  · obtain ⟨cs, rfl⟩ := h
    have hcs := ht.of_isInfix (List.suffix_append ['['] cs).isInfix
    have hclose : Pattern.SeesThrough (.literal [']']) := Pattern.seesThrough_literal (by simp)
    rw [dropReturns_append, dropReturns_eq_self (by simp)]
    simp only [List.cons_append, List.nil_append, readBracket, hclose.upTo_dropReturns hcs]
    cases hr : Pattern.upTo (.literal [']']) cs with
    | none => rfl
    | some r =>
      obtain ⟨body, n⟩ := r
      obtain ⟨rest, rfl, hrest⟩ := Pattern.exists_of_upTo_eq_some hr
      obtain ⟨rfl, rest, rfl⟩ := Pattern.literal_eq_some_iff.mp hrest
      cases body with
      | nil => rfl
      | cons c body =>
        have hmixed : IsMixed (c :: body) := hcs.isMixed_of_append_cons (by decide)
        have hbody := hmixed.dropReturns_ne_nil (List.cons_ne_nil c body)
        obtain ⟨d, ds, hd⟩ := List.exists_cons_of_ne_nil hbody
        have hlength : (dropReturns (c :: body)).length = ds.length + 1 := by
          rw [hd, List.length_cons]
        have htake : ('[' :: (c :: body ++ ([']'] ++ rest))).take (body.length + 3)
            = ['['] ++ (c :: body) ++ [']'] := by
          simp [List.take_append, List.take_of_length_le]
        simp only [Option.map_some]
        rw [hd]
        dsimp only
        rw [htake, dropReturns_append, dropReturns_append, hd]
        simp [Enclosure.dropReturns, hd, dropReturns_cons]
  · rw [hnone p t h, hnone p' _ (mt hfront.mp h)]
    rfl

/-! ### All enclosures -/

/-- No enclosure starts where a line ends. -/
theorem reader_eq_none (d : Delimiter) {c : Char} (hc : c = '\r' ∨ c = '\n') (p : Place)
    (cs : Text) :
  d.reader p (c :: cs) = none
  := by
  cases d with
  | quotedDisplay | quotedBracket =>
    rcases hc with rfl | rfl <;>
      simp [reader, readQuoted, quotedOpening, Pattern.inOrder, Pattern.literal]
  | bracketBlock =>
    rcases hc with rfl | rfl <;>
      simp [reader, readBracketBlock, markerOf, isMarkerChar, isSpaceOrTab, blockOpening,
        Pattern.inOrder, Pattern.literal]
  | display | bracket | inline =>
    rcases hc with rfl | rfl <;> rfl

/-- The enclosures of a text without its carriage returns are those of the text, if no block of
whole lines stops before a carriage return. -/
theorem commutes_reader (d : Delimiter) {t : Text} (ht : IsMixed t)
    (hbare : d.IsBlock → d.EndsBare t) :
  Reader.Commutes Enclosure.dropReturns d.reader d.reader t
  where
  eq_none c hc p cs := by
    exact ⟨reader_eq_none d hc p cs, reader_eq_none d hc p cs⟩
  read u c cs heq hc hn := by
    subst heq
    have hu : u.getLast? ≠ some '\r' :=
      (isMixed_iff.mp (ht.isPaired.isMixed_of_append_cons hn)).2
    have hbefore := Place.before_after_dropReturns hu
    have hstart : (Place.start.after (LineEnds.dropReturns u)).atLineStart
        = (Place.start.after u).atLineStart := by rw [Place.atLineStart, Place.atLineStart, hbefore]
    have hescaped : (Place.start.after (LineEnds.dropReturns u)).escaped
        = (Place.start.after u).escaped := by rw [Place.escaped, Place.escaped, hbefore]
    have hpaired := ht.of_append_right.isPaired
    cases d with
    | quotedDisplay =>
      apply readQuoted_dropReturns hstart hpaired (by simp [IsMark]) (by simp [IsMark])
      intro hline e v heq he hfirst
      exact hbare trivial u e v (by rw [heq]) hline he hfirst
    | quotedBracket =>
      apply readQuoted_dropReturns hstart hpaired (by simp [IsMark]) (by simp [IsMark])
      intro hline e v heq he hfirst
      exact hbare trivial u e v (by rw [heq]) hline he hfirst
    | display => exact readDisplay_dropReturns hescaped hpaired
    | bracketBlock =>
      apply readBracketBlock_dropReturns hstart hpaired
      intro hline e v heq he hfirst
      exact hbare trivial u e v (by rw [heq]) hline he hfirst
    | bracket =>
      exact readBracket_dropReturns (Place.start.after u)
        (Place.start.after (LineEnds.dropReturns u)) hpaired
    | inline => exact readInline_dropReturns hescaped hpaired

/-! ### Parts with mixed line ends -/

/-- The line end of a closing may have a carriage return. -/
theorem hasClosing_return {d : Delimiter} (hd : d.IsBlock) {c : Text}
    (h : d.HasClosing ('\n' :: c)) :
  d.HasClosing ('\r' :: '\n' :: c)
  := by
  cases d with
  | quotedDisplay | quotedBracket | bracketBlock =>
    obtain ⟨n, s₁, s₂, heq, hn, hs₁, hs₂⟩ := h
    rcases hn with rfl | rfl
    · refine ⟨['\r', '\n'], s₁, s₂, ?_, .inr rfl, hs₁, hs₂⟩
      rw [heq]
      rfl
    · cases (List.cons.inj heq).1
  | display | bracket | inline => cases hd

variable {d : Delimiter} {t : Text} {m : Match Enclosure}

/-- The body of an enclosure has mixed line ends. -/
theorem isMixed_body (ht : IsMixed t) (hm : m ∈ d.reader.findAll t) :
  IsMixed m.value.body
  := by
  obtain ⟨hform, hsource⟩ := form_of_mem_findAll hm
  have hinside : m.value.body ++ m.value.closing <:+: t := by
    apply List.IsInfix.trans _ (Reader.source_isInfix_of_mem_findAll hm)
    rw [hsource, Enclosure.source, List.append_assoc]
    exact (List.suffix_append _ _).isInfix
  have hpaired := ht.isPaired.of_isInfix hinside
  have hplain : ∀ c cs, c ≠ '\n' → m.value.closing = c :: cs → IsMixed m.value.body := by
    intro c cs hc hclosing
    rw [hclosing] at hpaired
    exact hpaired.isMixed_of_append_cons hc
  have hblock : d.IsBlock → IsMixed m.value.body := by
    intro hd
    obtain ⟨u, n, -, -, hread⟩ := Reader.exists_isRead_of_mem_findAll hm
    obtain ⟨-, -, -, -, -, hstop, hfirst⟩ := (isRead_iff_of_isBlock hd).mp hread
    have hclosing := hasClosing_of_hasForm hd hform
    apply isMixed_iff.mpr
    refine ⟨hpaired.of_isInfix (List.prefix_append _ _).isInfix, ?_⟩
    intro hlast
    obtain ⟨b, hb⟩ := List.getLast?_eq_some_iff.mp hlast
    obtain ⟨e, l, hl, he, hne, -⟩ := newline_of_hasClosing hd hclosing
    rw [hb] at hpaired hfirst
    rcases he with rfl | rfl
    · rw [hl] at hclosing hfirst
      have hle := hfirst b ('\r' :: '\n' :: l) m.rest (by simp)
        (hasClosing_return hd hclosing) hstop
      rw [List.length_append, List.length_singleton] at hle
      exact Nat.not_succ_le_self _ hle
    · rw [hl, List.append_assoc] at hpaired
      have hpair := (List.isChain_append.mp hpaired).2.1
      cases (isPaired_cons.mp hpair).1 rfl '\r' rfl
  cases d with
  | quotedDisplay | quotedBracket | bracketBlock => exact hblock trivial
  | display =>
    rw [hform] at hplain
    exact hplain _ _ (by decide) rfl
  | bracket =>
    rw [hform.1] at hplain
    exact hplain _ _ (by decide) rfl
  | inline =>
    rw [hform.1] at hplain
    exact hplain _ _ (by decide) rfl

/-- The marker of a bracket block has mixed line ends. -/
theorem isMixed_marker (ht : IsMixed t) (hm : m ∈ bracketBlock.reader.findAll t) :
  IsMixed m.value.marker
  := by
  obtain ⟨hform, hsource⟩ := form_of_mem_findAll hm
  have hform : BlockForm m.value := hform
  obtain ⟨s, n, hopening, -⟩ := hform.opening
  have hinside : m.value.marker ++ '[' :: (s ++ n) <:+: t := by
    apply List.IsInfix.trans _ (Reader.source_isInfix_of_mem_findAll hm)
    rw [hsource, Enclosure.source, hopening]
    exact ⟨m.value.indent, m.value.body ++ m.value.closing, by simp⟩
  exact (ht.isPaired.of_isInfix hinside).isMixed_of_append_cons (by decide)

end Delimiter

end DollarMath
