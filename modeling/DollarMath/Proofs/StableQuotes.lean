import DollarMath.Proofs.Apart
import DollarMath.Proofs.Blocks
import DollarMath.Proofs.Settled

/-!
# Quoted blocks that are joined only once

A quoted block is joined to one line, and that line neither opens a block nor closes one.  An
opening that nothing closes has no block behind it, so all blocks that are left as they are
found again, and no others.
-/

namespace DollarMath

/-- What is written for a block depends on the block alone.  It is one line, and holds a
character that no opening holds. -/
structure Delimiter.Joins (openMark : Text) (f : Match Enclosure → Option Text) : Prop where
  /-- What is written for a block depends on the block alone. -/
  congr : ∀ m m', m.value = m'.value → f m = f m'
  /-- One line is written. -/
  newline_not_mem : ∀ m w, f m = some w → '\n' ∉ w
  /-- The line is not the front of an opening. -/
  exists_mem : ∀ m w, f m = some w → ∃ c ∈ w, ∀ o, Delimiter.IsQuotedOpening openMark o → c ∉ o

namespace Delimiter.IsQuoted

variable {d : Delimiter} {openMark closeMark : Text} (hd : d.IsQuoted openMark closeMark)
variable {f : Match Enclosure → Option Text}
include hd

/-- Nothing is read exactly where no line starts, or no opening has a closing behind it. -/
theorem passes_iff {p : Place} {t : Text} :
  d.reader.Passes p t
    ↔ (p.atLineStart = true → ∀ o y, t = o ++ y → IsQuotedOpening openMark o →
      ∀ a u v, y = a ++ (u ++ v) → d.HasClosing u → ¬ IsLineStop v)
  := by
  rw [passes_iff_of_isBlock hd.isBlock]
  apply imp_congr_right
  intro _
  constructor
  · rintro h o y rfl ho a u v rfl hu hv
    apply h ⟨[], [], o, a, u⟩ v (by simp [Enclosure.source]) _ hv
    apply (hd.hasForm_iff _).mpr
    exact ⟨⟨rfl, rfl⟩, ho, (hd.hasClosing_iff u).mp hu⟩
  · rintro h e v rfl he hv
    obtain ⟨⟨hindent, hmarker⟩, ho, -⟩ := (hd.hasForm_iff e).mp he
    apply h e.opening (e.body ++ (e.closing ++ v)) _ ho e.body e.closing v rfl _ hv
    · simp [Enclosure.source, hindent, hmarker]
    · exact hasClosing_of_hasForm hd.isBlock he

end Delimiter.IsQuoted

/-! ### Lines of a text whose blocks have been joined -/

namespace Delimiter

variable {d : Delimiter} (hd : d.IsBlock) (f : Match Enclosure → Option Text)
include hd

/-- A quoted block starts a line. -/
theorem passes_of_atLineStart_eq_false {p : Place} (hp : p.atLineStart = false) (t : Text) :
  d.reader.Passes p t
  := by
  apply (passes_iff_of_isBlock hd).mpr
  intro hline
  rw [hp] at hline
  cases hline

/-- Behind a place within a line, the rest of the line is kept. -/
theorem exists_line_of_writtenFrom
    {p : Place} (hp : p.atLineStart = false) {t x z : Text}
    (h : d.reader.writtenFrom f p t = x ++ '\n' :: z) (hx : '\n' ∉ x) :
  ∃ y, t = x ++ '\n' :: y
  := by
  induction x generalizing p t with
  | nil =>
    cases t with
    | nil => cases h
    | cons c cs =>
      rw [Reader.writtenFrom_of_passes f (passes_of_atLineStart_eq_false hd hp _)] at h
      obtain rfl : c = '\n' := (List.cons.inj h).1
      exact ⟨cs, rfl⟩
  | cons a x ih =>
    cases t with
    | nil => cases h
    | cons c cs =>
      rw [Reader.writtenFrom_of_passes f (passes_of_atLineStart_eq_false hd hp _)] at h
      rw [List.cons_append, List.cons.injEq] at h
      obtain ⟨rfl, h⟩ := h
      rw [List.mem_cons, not_or] at hx
      have hnext : (p.next c).atLineStart = false := by
        simpa [Place.atLineStart, Place.next] using Ne.symm hx.1
      obtain ⟨y, rfl⟩ := ih hnext h hx.2
      exact ⟨y, rfl⟩

/-- A line stops where it did. -/
theorem isLineStop_writtenFrom
    {p : Place} (hp : p.atLineStart = false) {t : Text} (ht : IsLineStop t) :
  IsLineStop (d.reader.writtenFrom f p t)
  := by
  cases t with
  | nil => exact ht
  | cons c cs =>
    rw [Reader.writtenFrom_of_passes f (passes_of_atLineStart_eq_false hd hp _)]
    exact ht

/-- Behind a quoted block no line starts. -/
theorem atLineStart_after_source
    {p q : Place} {m : Match Enclosure} {n : Nat} (hm : Reader.IsRead d.reader p m n) :
  (q.after m.source).atLineStart = false
  := by
  obtain ⟨-, -, hform, hsource, -⟩ := (isRead_iff_of_isBlock hd).mp hm
  obtain ⟨n, l, hclosing, -, hne, hl⟩ := newline_of_hasClosing hd (hasClosing_of_hasForm hd hform)
  rw [hsource, Enclosure.source, hclosing, ← List.append_assoc]
  by_contra hline
  exact hl (Place.newline_mem_of_atLineStart hne (Bool.of_not_eq_false hline))

end Delimiter

namespace Delimiter.IsQuoted

variable {d : Delimiter} {openMark closeMark : Text} (hd : d.IsQuoted openMark closeMark)
variable {f : Match Enclosure → Option Text}
include hd

/-- Behind an opening where nothing is read there is no block. -/
theorem not_found_of_passes
    {p : Place} {c : Char} {x y : Text} (hp : p.atLineStart = true)
    (hpass : d.reader.Passes p (c :: (x ++ '\n' :: y)))
    (ho : IsQuotedOpening openMark (c :: (x ++ ['\n']))) (hx : '\n' ∉ x) (m : Match Enclosure) :
  .found m ∉ d.reader.piecesFrom 0 (p.next c) (x ++ '\n' :: y)
  := by
  intro hmem
  obtain ⟨g, k, ht, -, hread, -⟩ := Reader.exists_of_mem_piecesFrom_zero hmem
  obtain ⟨-, hform, -, v, hv, hstop, -⟩ := (reader_eq_some_iff_of_isBlock hd.isBlock).mp hread
  obtain ⟨⟨hindent, hmarker⟩, ho', -⟩ := (hd.hasForm_iff _).mp hform
  obtain ⟨x', hopening, hx'⟩ := hd.opening_eq_concat ho'
  have hcut : x ++ '\n' :: y
      = (g ++ '>' :: x') ++ '\n' :: (m.value.body ++ (m.value.closing ++ v)) := by
    rw [ht, hv, Enclosure.source, hindent, hmarker, hopening]
    simp
  obtain ⟨z, hz⟩ : ∃ z, y = z ++ (m.value.closing ++ v) := by
    rcases List.append_eq_append_iff.mp hcut with ⟨b, hb, hy⟩ | ⟨b, rfl, hy⟩
    · cases b with
      | nil =>
        obtain rfl := (List.cons.inj hy).2
        exact ⟨m.value.body, rfl⟩
      | cons e b =>
        obtain ⟨-, rfl⟩ := List.cons.inj hy
        exact ⟨b ++ '\n' :: m.value.body, by simp⟩
    · cases b with
      | nil =>
        obtain rfl := (List.cons.inj hy).2
        exact ⟨m.value.body, rfl⟩
      | cons e b =>
        obtain ⟨rfl, -⟩ := List.cons.inj hy
        simp at hx
  apply hd.passes_iff.mp hpass hp _ y _ ho z m.value.closing v hz _ hstop
  · simp
  · exact hasClosing_of_hasForm hd.isBlock hform

/-- Where nothing is read, nothing is read either when the blocks behind have been joined. -/
theorem passes_writtenFrom
    {p q : Place} {c : Char} {cs : Text} (hpass : d.reader.Passes p (c :: cs))
    (hq : q.atLineStart = p.atLineStart) :
  d.reader.Passes q (c :: d.reader.writtenFrom f (p.next c) cs)
  := by
  rw [hd.passes_iff, hq]
  intro hp o z hcut ho a u v hz hu hv
  obtain ⟨x, rfl, hx⟩ := hd.opening_eq_concat ho
  rw [List.cons_append, List.append_assoc] at hcut
  obtain ⟨rfl, hcut⟩ := List.cons.inj hcut
  obtain ⟨y, rfl⟩ := exists_line_of_writtenFrom hd.isBlock f rfl hcut hx
  have hnone := hd.not_found_of_passes hp hpass ho hx
  rw [Reader.writtenFrom, Reader.flatMap_written_of_none f fun m hm => absurd hm (hnone m),
    Reader.flatMap_source_piecesFrom] at hcut
  obtain ⟨-, rfl⟩ := List.cons.inj (List.append_cancel_left hcut)
  apply hd.passes_iff.mp hpass hp _ y _ ho a u v hz hu hv
  simp

/-- Nothing is read from a line that is written for a block. -/
theorem passes_of_joins (hf : Joins openMark f) {m : Match Enclosure} {u v : Text} {c : Char}
    (hw : f m = some (u ++ c :: v)) (q : Place) (z : Text) :
  d.reader.Passes (q.after u) (c :: (v ++ z))
  := by
  have hline := hf.newline_not_mem m _ hw
  apply hd.passes_iff.mpr
  intro hu o y hcut ho
  exfalso
  obtain rfl : u = [] := by
    by_contra hne
    exact hline (List.mem_append_left _ (Place.newline_mem_of_atLineStart (s := []) hne hu))
  obtain ⟨e, he, hopening⟩ := hf.exists_mem m _ hw
  obtain ⟨x, rfl, -⟩ := hd.opening_eq_concat ho
  rw [← List.cons_append, List.append_eq_append_iff] at hcut
  rcases hcut with ⟨b, hb, -⟩ | ⟨b, hb, -⟩
  · apply hopening _ ho
    rw [hb]
    exact List.mem_append_left _ he
  · apply hline
    rw [List.nil_append, hb]
    simp

/-- The quoted blocks of a text whose blocks have been joined are those that were left. -/
theorem values_writtenFrom (hf : Joins openMark f) {p q : Place}
    (hq : q.atLineStart = p.atLineStart) (t : Text) :
  d.reader.values q (d.reader.writtenFrom f p t)
    = (((d.reader.piecesFrom 0 p t).filterMap Piece.match?).filter fun m => (f m).isNone).map
        Match.value
  := by
  revert q
  apply d.reader.piecesFrom_induction fun p t ps => ∀ {q : Place}, q.atLineStart = p.atLineStart →
    d.reader.values q (ps.flatMap (Piece.written f))
      = ((ps.filterMap Piece.match?).filter fun m => (f m).isNone).map Match.value
  · intro p q _
    rfl
  · intro p c cs hpass ih q hq
    apply (Reader.values_of_passes (hd.passes_writtenFrom hpass hq)).trans
    apply ih (q := q.next c) rfl
  · intro p m n hm ih q hq
    have hline := fun q => atLineStart_after_source hd.isBlock (q := q) hm
    have hmatch : (Piece.found m).match? = some m := rfl
    rw [List.flatMap_cons, List.filterMap_cons_some hmatch, Piece.written]
    cases hfm : f m with
    | none =>
      obtain ⟨hstart, hp, hform, hsource, hlength, hrest, hfirst⟩ :=
        (isRead_iff_of_isBlock hd.isBlock).mp hm
      have hrest' := isLineStop_writtenFrom hd.isBlock f (hline p) hrest
      have hread : Reader.IsRead d.reader q
          ⟨q.offset, m.source, m.value, d.reader.writtenFrom f (p.after m.source) m.rest⟩ n :=
        (isRead_iff_of_isBlock hd.isBlock).mpr ⟨rfl, hq.trans hp, hform, hsource, hlength, hrest',
          hfirst.congr_rest hd.isBlock (hasClosing_of_hasForm hd.isBlock hform) hrest hrest'⟩
      rw [List.filter_cons_of_pos (by simp [hfm]), List.map_cons,
        ← ih ((hline q).trans (hline p).symm)]
      exact hread.values_eq
    | some w =>
      rw [List.filter_cons_of_neg (by simp [hfm])]
      apply (Reader.values_append_of_forall_passes _).trans
      · apply ih
        rw [hline, Bool.eq_false_iff]
        obtain ⟨e, he, -⟩ := hf.exists_mem m w hfm
        exact fun hlast => hf.newline_not_mem m w hfm
          (Place.newline_mem_of_atLineStart (s := []) (List.ne_nil_of_mem he) hlast)
      · rintro u c v rfl
        exact hd.passes_of_joins hf hfm q _

/-- The quoted blocks that are found when the blocks of a text have been joined are left. -/
theorem eq_none_of_mem_findAll_replace (hf : Joins openMark f) {t : Text} {m : Match Enclosure}
    (h : m ∈ d.reader.findAll (d.reader.replace f t).text) :
  f m = none
  := by
  have hvalue := List.mem_map_of_mem (f := Match.value) h
  rw [← Reader.values_start, Reader.text_replace] at hvalue
  change m.value ∈ d.reader.values .start (d.reader.writtenFrom f .start t) at hvalue
  rw [hd.values_writtenFrom hf rfl] at hvalue
  obtain ⟨m', hm', hvalue⟩ := List.mem_map.mp hvalue
  obtain ⟨-, hnone⟩ := List.mem_filter.mp hm'
  rw [Option.isNone_iff_eq_none] at hnone
  exact (hf.congr m' m hvalue).symm.trans hnone

end Delimiter.IsQuoted

/-! ### The two passes -/

/-- An opening holds a quote mark, blank characters and its delimiter. -/
theorem Delimiter.IsQuotedOpening.mem {mark o : Text} (h : IsQuotedOpening mark o) {c : Char}
    (hc : c ∈ o) :
  c = '>' ∨ isBlank c = true ∨ c ∈ mark
  := by
  obtain ⟨s₁, s₂, n, rfl, hs₁, hs₂, hn⟩ := h
  simp only [List.mem_append, List.mem_singleton] at hc
  rcases hc with hc | hc | hc | hc | hc
  · left
    exact hc
  · right; left
    exact isBlank_of_isSpaceOrTab (hs₁ c hc)
  · right; right
    exact hc
  · right; left
    exact isBlank_of_isSpaceOrTab (hs₂ c hc)
  · right; left
    simpa using hn.avoids (p := fun a => !isBlank a) (by simp) c hc

/-- A quoted display is joined to one line. -/
theorem joins_display :
  Delimiter.Joins ['\\', '['] fun m =>
    some (['>', ' ', '$', '$', ' '] ++ Quote.unquote m.value.body ++ [' ', '$', '$'])
  := by
  constructor
  · intro m m' h
    rw [h]
  · intro m w hw
    obtain rfl := Option.some.inj hw
    simp [Quote.newline_not_mem_unquote]
  · intro m w hw
    obtain rfl := Option.some.inj hw
    refine ⟨'$', by simp, ?_⟩
    intro o ho hmem
    have hc := ho.mem hmem
    revert hc
    decide

/-- So is a collapsible block. -/
theorem joins_collapsedLine :
  Delimiter.Joins ['['] fun m => if isCollapsible m then some (collapsedLine m) else none
  := by
  constructor
  · intro m m' h
    rw [isCollapsible, isCollapsible, collapsedLine, collapsedLine, h]
  · intro m w hw
    obtain ⟨-, hw⟩ := Option.ite_none_right_eq_some.mp hw
    obtain rfl := Option.some.inj hw
    simp [collapsedLine, Quote.newline_not_mem_unquote]
  · intro m w hw
    obtain ⟨-, hw⟩ := Option.ite_none_right_eq_some.mp hw
    obtain rfl := Option.some.inj hw
    refine ⟨']', by simp [collapsedLine], ?_⟩
    intro o ho hmem
    have hc := ho.mem hmem
    revert hc
    decide

/-- Joined quoted displays leave no block between backslash brackets. -/
theorem findAll_convertQuotedDisplays (t : Text) :
  Delimiter.quotedDisplay.reader.findAll (convertQuotedDisplays t).text = []
  := by
  rw [List.eq_nil_iff_forall_not_mem]
  intro m hm
  have hnone := Delimiter.IsQuoted.display.eq_none_of_mem_findAll_replace joins_display hm
  cases hnone

/-- Joined quoted brackets leave no block that would be joined. -/
theorem not_isCollapsible_collapsed (t : Text) :
  ∀ m ∈ Delimiter.quotedBracket.reader.findAll (collapsed t), isCollapsible m = false
  := by
  intro m hm
  rw [collapsed_eq_replace] at hm
  have hnone := Delimiter.IsQuoted.bracket.eq_none_of_mem_findAll_replace joins_collapsedLine hm
  by_contra hmath
  rw [if_pos (Bool.of_not_eq_false hmath)] at hnone
  cases hnone

/-- Either pass over the quoted blocks changes nothing the second time, and the first one leaves
no block between backslash brackets. -/
theorem quotedBlocks_once (t : Text) :
  convertQuotedDisplays (convertQuotedDisplays t).text
      = .unchanged (convertQuotedDisplays t).text
    ∧ collapseQuotedBrackets (collapseQuotedBrackets t).text
      = .unchanged (collapseQuotedBrackets t).text
    ∧ Delimiter.quotedDisplay.reader.findAll (convertQuotedDisplays t).text = []
  := by
  have hnone := findAll_convertQuotedDisplays t
  refine ⟨?_, ?_, hnone⟩
  · have htotal := (total_convertQuotedDisplays_eq_zero_iff _).mpr hnone
    obtain ⟨hnonneg, htext⟩ := convertQuotedDisplays_isTallied (convertQuotedDisplays t).text
    calc convertQuotedDisplays (convertQuotedDisplays t).text
      _ = ⟨(convertQuotedDisplays (convertQuotedDisplays t).text).text,
            (convertQuotedDisplays (convertQuotedDisplays t).text).tally⟩ := rfl
      _ = .unchanged (convertQuotedDisplays t).text := by
        rw [htext htotal, hnonneg.tally_eq_zero htotal]
        rfl
  · change Converted.unchanged (collapsed (collapsed t)) = .unchanged (collapsed t)
    rw [collapsed_eq_self (not_isCollapsible_collapsed t)]

end DollarMath
