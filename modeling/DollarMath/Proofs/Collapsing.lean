import DollarMath.Proofs.LineEdits
import DollarMath.Proofs.Spared

/-!
# Collapsing within dollar mathematics

Quoted brackets are collapsed wherever they stand.  A block that is collapsed holds no dollar, so
it stands apart from the dollar mathematics of the text or within it.  Apart from all collapsed
blocks dollar mathematics is kept; a block within it is collapsed there, and takes its line feeds
away.
-/

namespace DollarMath

/-! ### Collapsed blocks -/

/-- The edits that collapse the blocks of a text. -/
def collapses (t : Text) : Edits t :=
  Delimiter.quotedBracket.reader.edits
    (fun m => if isCollapsible m then some (collapsedLine m) else none) t

variable {t : Text}

/-- The edits are those of the collapsible blocks. -/
theorem mem_collapses_iff {e : Edit} :
  e ∈ (collapses t).list
    ↔ ∃ m ∈ Delimiter.quotedBracket.reader.findAll t, e.span = m.span ∧ isCollapsible m = true
        ∧ e.text = collapsedLine m
  := by
  rw [collapses, Reader.mem_edits_iff]
  apply exists_congr
  intro m
  rw [Option.ite_none_right_eq_some, Option.some_inj, @eq_comm _ (collapsedLine m)]

/-- They make the collapsed text. -/
theorem text_collapses (t : Text) :
  (collapses t).text = collapsed t
  := by
  rw [collapsed_eq_replace, collapses, Reader.text_edits]

/-- A collapsible block holds no dollar. -/
theorem dollar_not_mem_of_isCollapsible {m : Match Enclosure}
    (hform : Delimiter.quotedBracket.HasForm m.value) (h : isCollapsible m = true) :
  '$' ∉ m.value.source
  := by
  simp only [isCollapsible, Bool.and_eq_true, Bool.not_eq_true'] at h
  have hbody : '$' ∉ Quote.unquote m.value.body := by simpa using h.1.2
  rw [← List.count_eq_zero, QuotedForm.count_dollar hform (by decide) (by decide),
    ← Quote.count_unquote (by decide) (by decide), List.count_eq_zero]
  exact hbody

/-- Every block is collapsed by an edit of its lines. -/
theorem isLine_of_mem_collapses {e : Edit} (h : e ∈ (collapses t).list) :
  e.IsLine t
  := by
  obtain ⟨hlt, hle⟩ := (collapses t).within e h
  obtain ⟨m, hm, hspan, hcollapsible, htext⟩ := mem_collapses_iff.mp h
  obtain ⟨u, n, ht, hstart, hread⟩ := Reader.exists_isRead_of_mem_findAll hm
  obtain ⟨hline, hends⟩ := Delimiter.lines_of_isRead_quoted hread
  obtain ⟨hform, hsource⟩ := Delimiter.form_of_mem_findAll hm
  have hstart' : e.span.start = u.length := by rw [hspan, ← hstart]; rfl
  have hstop : e.span.stop = u.length + m.source.length := by rw [hspan, ← hstart]; rfl
  have hextract : t.extract e.span.start e.span.stop = m.source := by
    rw [hspan]
    exact Reader.extract_of_mem_findAll hm
  constructor
  · exact hlt
  · exact hle
  · rw [hextract, hsource]
    exact dollar_not_mem_of_isCollapsible hform hcollapsible
  · rw [htext]
    exact dollar_not_mem_collapsedLine hcollapsible
  · rw [htext, collapsedLine]
    apply List.cons_ne_nil
  · intro k hk
    rw [hstart'] at hk
    have hlast : u.getLast? = some '\n' := by
      rw [Place.atLineStart, Place.before_start_after] at hline
      rcases List.eq_nil_or_concat' u with rfl | ⟨v, c, rfl⟩
      · cases hk
      · simpa using hline
    rw [ht, List.getElem?_append_left (by omega), ← hlast, List.getLast?_eq_getElem?, ← hk,
      Nat.add_sub_cancel]
  · obtain ⟨s₁, s₂, l, hopening, -⟩ := QuotedForm.opening hform
    rw [hspan, Match.span, Reader.getElem?_start_of_mem_findAll hm, hsource, Enclosure.source,
      (QuotedForm.before hform).1, (QuotedForm.before hform).2, hopening]
    simp
  · intro c hc
    rw [hstop, ht, List.getElem?_append_right (Nat.le_add_right _ _), Nat.add_sub_cancel_left,
      List.getElem?_append_right (Nat.le_refl _), Nat.sub_self, ← List.head?_eq_getElem?] at hc
    cases hrest : m.rest with
    | nil =>
      rw [hrest] at hc
      cases hc
    | cons d v =>
      rw [hrest] at hc hends
      obtain rfl := Option.some.inj hc
      simpa using hends
  · rw [htext, hextract]
    exact count_newline_collapsedLine_lt hm

/-- A span that shares no character with a block that is collapsed. -/
def Span.IsUncollapsed (s : Span) (t : Text) : Prop :=
  ∀ m ∈ Delimiter.quotedBracket.reader.findAll t, isCollapsible m = true → m.span.Apart s

instance (s : Span) (t : Text) : Decidable (s.IsUncollapsed t) :=
  inferInstanceAs (Decidable (∀ m ∈ _, _))

/-- Collapsing keeps the dollar mathematics apart from the collapsed blocks.  It keeps all dollar
mathematics exactly when no block within any is collapsed. -/
theorem dollarTexts_collapsed_iff (scope : Dollars.Scope) (t : Text) :
  HoldsInOrder
      (((dollarSpans scope t).filter fun s => s.IsUncollapsed t).map
        fun s => t.extract s.start s.stop)
      (collapsed t)
    ∧ (dollarTexts scope (collapsed t) = dollarTexts scope t
      ↔ ∀ s ∈ dollarSpans scope t, s.IsUncollapsed t)
  := by
  constructor
  · rw [← text_collapses]
    apply Edits.holdsInOrder_text
    · exact (pairwise_dollarSpans scope t).filter _
    · intro s hs
      obtain ⟨m, -, rfl⟩ := List.mem_map.mp (List.mem_filter.mp hs).1
      apply Nat.le_add_right
    · intro e he s hs
      obtain ⟨m, hm, hspan, hcollapsible, -⟩ := mem_collapses_iff.mp he
      have hs : s.IsUncollapsed t := of_decide_eq_true (List.mem_filter.mp hs).2
      rw [hspan]
      exact hs m hm hcollapsible
  · rw [← text_collapses, Edits.dollarTexts_text_iff _ fun e => isLine_of_mem_collapses]
    constructor
    · intro h s hs m hm hcollapsible
      exact h ⟨m.span, collapsedLine m⟩
        (mem_collapses_iff.mpr ⟨m, hm, rfl, hcollapsible, rfl⟩) s hs
    · intro h e he s hs
      obtain ⟨m, hm, hspan, hcollapsible, -⟩ := mem_collapses_iff.mp he
      rw [hspan]
      exact h s hs m hm hcollapsible

/-- A block within a display is collapsed. -/
theorem not_holdsInOrder_collapsed :
  let t := ['$', '$', '\n', '>', ' ', '[', '\n', '>', ' ', '1', '+', '1', '\n', '>', ' ', ']', '\n',
    '$', '$']
  ¬ HoldsInOrder (dollarTexts .all t) (collapseQuotedBrackets t).text
  := by
  decide

end DollarMath
