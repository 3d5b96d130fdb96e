import DollarMath.Proofs.Balance
import DollarMath.Proofs.Settled

/-!
# Documents that stay as they are

When the conversion of a document changes nothing, and when it tallies nothing.
-/

namespace DollarMath

open LineEnds

/-- The counts of a segment are not negative. -/
theorem Segment.convert_isNonneg (s : Segment) :
  IsNonneg s.content s.convert
  := by
  rw [convert]
  split
  · apply isNonneg_law.unchanged s.content
  · have h := isNonneg_law.convertMath steps_isNonneg (unified s.content)
    rw [IsNonneg, tally_convertProse]
    apply h

/-- Nor are those of a document. -/
theorem convertDocument_isNonneg (d : Text) :
  IsNonneg d (convertDocument d)
  := by
  have h := isNonneg_law.concat (segments d) Segment.content Segment.convert
    fun s _ => s.convert_isNonneg
  apply h

/-- Nothing is tallied exactly in the documents whose prose is free of formulas. -/
theorem total_convertDocument_eq_zero_iff (d : Text) :
  (convertDocument d).tally.total = 0 ↔ AllProse FormulaFree d
  := by
  rw [convertDocument, total_concat_eq_zero_iff (segments d) Segment.content
    Segment.convert fun s _ => s.convert_isNonneg]
  apply forall₂_congr
  intro s _
  rw [Segment.convert, ← total_convertMath_eq_zero_iff, ← tally_convertProse]
  cases s.kind with
  | code => simp [total_unchanged]
  | prose => simp

/-- Prose that is free of formulas loses line feeds only, and keeps them all only if it is
settled. -/
theorem Segment.count_newline_convert
    {s : Segment} (h : s.kind = .prose → FormulaFree (unified s.content)) :
  s.convert.text.count '\n' ≤ s.content.count '\n'
    ∧ (s.convert.text.count '\n' = s.content.count '\n' → s.kind = .prose →
      Settled (unified s.content))
  := by
  rw [convert]
  cases hkind : s.kind with
  | code => exact ⟨le_rfl, fun _ h => by cases h⟩
  | prose =>
    have hfree := h hkind
    dsimp only
    rw [count_text_convertProse (by decide), text_convertMath_of_formulaFree hfree,
      ← count_unified (c := '\n') (by decide) s.content]
    constructor
    · apply count_newline_collapsed_le _
    · intro heq _
      exact ⟨hfree, not_isCollapsible_of_count_newline heq⟩

/-- A kept document whose prose is free of formulas has settled prose. -/
theorem settled_of_text_eq
    {d : Text} (hfree : AllProse FormulaFree d) (htext : (convertDocument d).text = d) :
  AllProse Settled d
  := by
  have hcount : ((segments d).flatMap fun s => s.convert.text).count '\n'
      = ((segments d).flatMap Segment.content).count '\n' := by
    rw [← text_convertDocument, htext, flatMap_content_segments]
  suffices ∀ ss : List Segment,
      (∀ s ∈ ss, s.kind = .prose → FormulaFree (unified s.content)) →
      (ss.flatMap Segment.content).count '\n'
        ≤ (ss.flatMap fun s => s.convert.text).count '\n' →
      ∀ s ∈ ss, s.kind = .prose → Settled (unified s.content) from
    this (segments d) hfree hcount.ge
  have hle : ∀ ss : List Segment,
      (∀ s ∈ ss, s.kind = .prose → FormulaFree (unified s.content)) →
      (ss.flatMap fun s => s.convert.text).count '\n'
        ≤ (ss.flatMap Segment.content).count '\n' := by
    intro ss
    induction ss with
    | nil => simp
    | cons s ss ih =>
      intro hss
      have hs := (Segment.count_newline_convert (hss s List.mem_cons_self)).1
      have ih := ih fun s' hs' => hss s' (List.mem_cons_of_mem _ hs')
      rw [List.flatMap_cons, List.flatMap_cons, List.count_append, List.count_append]
      omega
  intro ss
  induction ss with
  | nil => simp
  | cons s ss ih =>
    intro hss hge
    have hs := Segment.count_newline_convert (hss s List.mem_cons_self)
    have hss' := fun s' hs' => hss s' (List.mem_cons_of_mem _ hs')
    have hrest := hle ss hss'
    rw [List.flatMap_cons, List.flatMap_cons, List.count_append, List.count_append] at hge
    rw [List.forall_mem_cons]
    constructor
    · apply hs.2
      omega
    · apply ih hss'
      omega

/-- Settled prose keeps the document as it is. -/
theorem text_convertDocument_of_settled {d : Text} (h : AllProse Settled d) :
  (convertDocument d).text = d
  := by
  rw [text_convertDocument]
  conv_rhs => rw [← flatMap_content_segments d]
  apply List.flatMap_congr
  intro s hs
  rw [Segment.convert]
  cases hkind : s.kind with
  | code => rfl
  | prose =>
    apply text_convertProse_eq_self
    apply ((convertMath_eq_self_iff _).mpr (h s hs hkind)).2

/-- Settled prose is free of formulas. -/
theorem AllProse.formulaFree {d : Text} (h : AllProse Settled d) :
  AllProse FormulaFree d
  := fun s hs hkind => (h s hs hkind).toFormulaFree

/-- A document is kept, with nothing tallied, exactly when its prose is settled. -/
theorem convertDocument_eq_self_iff (d : Text) :
  convertDocument d = ⟨d, 0⟩ ↔ AllProse Settled d
  := by
  constructor
  · intro h
    have htotal : (convertDocument d).tally.total = 0 := by
      rw [h]
      rfl
    apply settled_of_text_eq
    · apply (total_convertDocument_eq_zero_iff d).mp htotal
    · rw [h]
  · intro h
    have htotal := (total_convertDocument_eq_zero_iff d).mpr h.formulaFree
    have htally := (convertDocument_isNonneg d).tally_eq_zero htotal
    calc
      convertDocument d = ⟨(convertDocument d).text, (convertDocument d).tally⟩ := rfl
      _ = ⟨d, 0⟩ := by rw [text_convertDocument_of_settled h, htally]

/-- A document that is kept tallies nothing. -/
theorem total_eq_zero_of_text_eq {d : Text} (h : (convertDocument d).text = d) :
  (convertDocument d).tally.total = 0
  := by
  have hbalanced := convertDocument_isBalanced d
  obtain ⟨hinline, hblock⟩ := convertDocument_isNonneg d
  rw [IsBalanced, h, Tally.dollars] at hbalanced
  rw [Tally.total]
  omega

end DollarMath
