import DollarMath.Proofs.MixedPasses

/-!
# Split numbers

A number split by a carriage return and a line feed is found by no conversion that was not in the
text before: what a conversion writes starts and ends with characters that no such number holds.
-/

namespace DollarMath

open LineEnds

/-- A character that no split number holds. -/
def IsOutsideNumbers (c : Char) : Prop :=
  isDigit c = false ∧ c ∉ ['\x7b', '\r', '\n', '\x7d']

namespace HasSplitNumber

variable {t u v : Text} {c : Char}

/-- A number is split by a carriage return. -/
theorem return_mem (h : HasSplitNumber t) :
  '\r' ∈ t
  := by
  obtain ⟨a, b, -, -, hinside⟩ := h
  exact hinside.subset (by simp)

/-- A split number starts with a digit. -/
theorem of_cons (hc : isDigit c = false) (h : HasSplitNumber (c :: t)) :
  HasSplitNumber t
  := by
  obtain ⟨a, b, ha, hb, hinside⟩ := h
  rcases List.infix_cons_iff.mp hinside with hfront | hinside
  · rw [List.cons_prefix_cons] at hfront
    rw [hfront.1, hc] at ha
    cases ha
  · exact ⟨a, b, ha, hb, hinside⟩

/-- A split number ends with a digit. -/
theorem of_concat (hc : isDigit c = false) (h : HasSplitNumber (t ++ [c])) :
  HasSplitNumber t
  := by
  obtain ⟨a, b, ha, hb, hinside⟩ := h
  rcases List.infix_concat_iff.mp hinside with hend | hinside
  · obtain ⟨s, hs⟩ := hend
    have hlast := congrArg List.getLast? hs
    rw [List.getLast?_concat, List.getLast?_append_of_ne_nil _ (List.cons_ne_nil _ _)] at hlast
    obtain rfl : b = c := by simpa using hlast
    rw [hc] at hb
    cases hb
  · exact ⟨a, b, ha, hb, hinside⟩

/-- A split number stands on one side of a character outside numbers. -/
theorem of_append_cons (hc : IsOutsideNumbers c) (h : HasSplitNumber (u ++ c :: v)) :
  HasSplitNumber u ∨ HasSplitNumber v
  := by
  obtain ⟨a, b, ha, hb, hinside⟩ := h
  rcases List.infix_append_iff.mp hinside with hu | hv | ⟨x, y, hxy, hx, hy⟩
  · exact .inl ⟨a, b, ha, hb, hu⟩
  · right
    exact of_cons hc.1 ⟨a, b, ha, hb, hv⟩
  · cases y with
    | nil =>
      rw [List.append_nil] at hxy
      left
      exact ⟨a, b, ha, hb, by rw [hxy]; exact hx.isInfix⟩
    | cons d y =>
      exfalso
      obtain rfl := (List.cons_prefix_cons.mp hy).1
      have hmem : d ∈ [a, '\x7b', '\r', '\n', '\x7d', b] := by
        rw [hxy]
        simp
      have hnot := hc.2
      simp only [List.mem_cons, List.not_mem_nil, or_false, not_or] at hmem hnot
      rcases hmem with rfl | hmem | hmem | hmem | hmem | rfl
      · rw [hc.1] at ha
        cases ha
      · exact hnot.1 hmem
      · exact hnot.2.1 hmem
      · exact hnot.2.2.1 hmem
      · exact hnot.2.2.2 hmem
      · rw [hc.1] at hb
        cases hb

/-- At the start of a line a marker completes no number. -/
theorem of_append_marker {g marker : Text} (hg : ∀ c ∈ g.getLast?, c = '\n')
    (hmarker : IsMarker marker) (h : HasSplitNumber (g ++ marker)) :
  HasSplitNumber g ∨ HasSplitNumber marker
  := by
  obtain ⟨a, b, ha, hb, hinside⟩ := h
  rcases List.infix_append_iff.mp hinside with hg | hm | ⟨x, y, hxy, hx, hy⟩
  · exact .inl ⟨a, b, ha, hb, hg⟩
  · exact .inr ⟨a, b, ha, hb, hm⟩
  · rcases List.eq_nil_or_concat' x with rfl | ⟨x, c, rfl⟩
    · right
      exact ⟨a, b, ha, hb, by rw [hxy]; exact hy.isInfix⟩
    · exfalso
      obtain rfl : c = '\n' := by
        obtain ⟨s, rfl⟩ := hx
        apply hg
        rw [← List.append_assoc, List.getLast?_concat]
        rfl
      have hcut : [a, '\x7b', '\r'] ++ '\n' :: ['\x7d', b] = x ++ '\n' :: y := by
        rw [List.append_assoc] at hxy
        exact hxy
      have hnot : '\n' ∉ [a, '\x7b', '\r'] ∧ '\n' ∉ ['\x7d', b] := by
        simp [(isDigit_ne ha).2.symm, (isDigit_ne hb).2.symm]
      obtain ⟨-, -, rfl⟩ := (List.append_cons_inj_of_notMem hnot.1 hnot.2).mp hcut
      obtain ⟨z, rfl⟩ := hy
      rcases hmarker with hnil | ⟨m, blanks, hm, hne, hmark, -⟩
      · cases hnil
      · obtain ⟨d, m, rfl⟩ := List.exists_cons_of_ne_nil hne
        have hd := hmark d List.mem_cons_self
        rw [← (List.cons.inj hm).1] at hd
        revert hd
        decide

end HasSplitNumber

/-! ### Replacements -/

/-- What is written for a match has characters outside numbers at both ends, perhaps behind a text
`front`, and between them a text that splits no number unless the match does. -/
structure Reader.WritesApart {α : Type} (m : Match α) (front core w : Text) : Prop where
  /-- The ends. -/
  written : ∃ x y, w = front ++ x :: (core ++ [y]) ∧ IsOutsideNumbers x ∧ IsOutsideNumbers y
  /-- The text between the ends. -/
  core : HasSplitNumber core → HasSplitNumber m.source

/-- A replacement splits no number. -/
theorem Reader.hasSplitNumber_of_replace {α : Type} {r : Reader α} {f : Match α → Option Text}
    {t : Text}
    (hf : ∀ m ∈ r.findAll t, ∀ w, f m = some w → ∃ front core, WritesApart m front core w
      ∧ ∀ (p : Place) g n, IsRead r (p.after g) m n → HasSplitNumber (g ++ front) →
        HasSplitNumber g ∨ HasSplitNumber m.source)
    (h : HasSplitNumber (r.replace f t).text) :
  HasSplitNumber t
  := by
  revert h
  apply r.replace_gap_induction f fun _ u u' => HasSplitNumber u' → HasSplitNumber u
  · exact fun _ _ h => h
  · intro p g m w n u' hm hw hread ih h
    obtain ⟨front, core, ⟨⟨x, y, rfl, hx, hy⟩, hcore⟩, hfront⟩ := hf m hm w hw
    have hg : g <:+: g ++ (m.source ++ m.rest) := (List.prefix_append _ _).isInfix
    have hsource : m.source <:+: g ++ (m.source ++ m.rest) := ⟨g, m.rest, by simp⟩
    have hrest : m.rest <:+: g ++ (m.source ++ m.rest) := ⟨g ++ m.source, [], by simp⟩
    have hcut : g ++ (front ++ x :: (core ++ [y]) ++ u')
        = (g ++ front) ++ x :: (core ++ y :: u') := by simp
    rw [hcut] at h
    rcases h.of_append_cons hx with h | h
    · rcases hfront p g n hread h with h | h
      · exact h.of_isInfix hg
      · exact h.of_isInfix hsource
    · rcases h.of_append_cons hy with h | h
      · exact (hcore h).of_isInfix hsource
      · exact (ih h).of_isInfix hrest

/-- A replacement that keeps a part of each match, between marks that stand outside of numbers,
splits no number. -/
theorem Reader.hasSplitNumber_of_replace_plain {α : Type} {r : Reader α}
    {f : Match α → Option Text} {t : Text}
    (hf : ∀ m ∈ r.findAll t, ∀ w, f m = some w → ∃ core, WritesApart m [] core w)
    (h : HasSplitNumber (r.replace f t).text) :
  HasSplitNumber t
  := by
  apply hasSplitNumber_of_replace _ h
  intro m hm w hw
  obtain ⟨core, hcore⟩ := hf m hm w hw
  refine ⟨[], core, hcore, ?_⟩
  intro p g n _ hg
  left
  rwa [List.append_nil] at hg

/-- Marks stand outside of numbers. -/
theorem isOutsideNumbers_of_mem {c : Char} (hc : c ∈ ['$', '>', ']']) :
  IsOutsideNumbers c
  := by
  simp only [List.mem_cons, List.not_mem_nil, or_false] at hc
  rcases hc with rfl | rfl | rfl <;> exact ⟨by decide, by simp⟩

/-- A text without carriage returns splits no number. -/
theorem Reader.writesApart_of_not_mem {α : Type} (m : Match α) {x y : Char} (core : Text)
    (hx : x ∈ ['$', '>', ']']) (hy : y ∈ ['$', '>', ']']) (hcore : '\r' ∉ core) :
  WritesApart m [] core (x :: (core ++ [y]))
  := by
  constructor
  · exact ⟨x, y, rfl, isOutsideNumbers_of_mem hx, isOutsideNumbers_of_mem hy⟩
  · exact fun h => absurd h.return_mem hcore

namespace Delimiter

variable {d : Delimiter} {t : Text}

/-- A display splits no number unless its body does. -/
theorem writesApart_displayOf {m : Match Enclosure} (hm : m ∈ d.reader.findAll t) (front : Text) :
  Reader.WritesApart m front (['$', '\n'] ++ trim m.value.body ++ ['\n', '$'])
    (front ++ displayOf m.value.body)
  := by
  constructor
  · exact ⟨'$', '$', by simp [displayOf], isOutsideNumbers_of_mem (by simp),
      isOutsideNumbers_of_mem (by simp)⟩
  · intro h
    have hbody : HasSplitNumber (trim m.value.body) := by
      have hlast : ['$', '\n'] ++ trim m.value.body ++ ['\n', '$']
          = '$' :: '\n' :: (trim m.value.body ++ ['\n'] ++ ['$']) := by simp
      rw [hlast] at h
      exact ((((h.of_cons (by decide)).of_cons (by decide)).of_concat (by decide)).of_concat
        (by decide))
    exact hbody.of_isInfix ((trim_isInfix _).trans (body_isInfix_source hm))

end Delimiter

/-! ### Conversions -/

section Conversions

open Delimiter

variable {t : Text}

/-- The conversion of quoted displays splits no number. -/
theorem hasSplitNumber_of_convertQuotedDisplays (ht : IsMixed t)
    (h : HasSplitNumber (convertQuotedDisplays t).text) :
  HasSplitNumber t
  := by
  apply Reader.hasSplitNumber_of_replace_plain _ h
  intro m hm w hw
  have hnone := (isMixed_body ht hm).return_not_mem_unquote
  use [' ', '$', '$', ' '] ++ Quote.unquote m.value.body ++ [' ', '$']
  rw [← Option.some.inj hw]
  have hwritten := Reader.writesApart_of_not_mem (x := '>') (y := '$') m
    ([' ', '$', '$', ' '] ++ Quote.unquote m.value.body ++ [' ', '$']) (by simp) (by simp)
    (by simp [hnone])
  simpa using hwritten

/-- Nor does the collapsing of quoted brackets. -/
theorem hasSplitNumber_of_collapseQuotedBrackets (ht : IsMixed t)
    (h : HasSplitNumber (collapseQuotedBrackets t).text) :
  HasSplitNumber t
  := by
  apply Reader.hasSplitNumber_of_replace_plain _ h
  intro m hm w hw
  have hnone := (isMixed_body ht hm).return_not_mem_unquote
  use [' ', '[', ' '] ++ Quote.unquote m.value.body ++ [' ']
  rw [eq_of_ite_none_eq_some hw]
  have hwritten := Reader.writesApart_of_not_mem (x := '>') (y := ']') m
    ([' ', '[', ' '] ++ Quote.unquote m.value.body ++ [' ']) (by simp) (by simp)
    (by simp [hnone])
  simpa using hwritten

/-- Nor does the conversion of displays. -/
theorem hasSplitNumber_of_convertDisplays (h : HasSplitNumber (convertDisplays t).text) :
  HasSplitNumber t
  := by
  apply Reader.hasSplitNumber_of_replace_plain _ h
  intro m hm w hw
  rw [← Option.some.inj hw]
  exact ⟨_, writesApart_displayOf hm []⟩

/-- Nor does that of bracket blocks. -/
theorem hasSplitNumber_of_convertBracketBlocks (h : HasSplitNumber (convertBracketBlocks t).text) :
  HasSplitNumber t
  := by
  apply Reader.hasSplitNumber_of_replace _ h
  intro m hm w hw
  obtain ⟨hform, hsource⟩ := form_of_mem_findAll hm
  have hform : BlockForm m.value := hform
  rw [eq_of_ite_none_ite_eq_some hw]
  refine ⟨m.value.marker, _, writesApart_displayOf hm _, ?_⟩
  intro p g n hread hg
  have hline := ((isRead_iff_of_isBlock (d := bracketBlock) trivial).mp hread).2.1
  have hmarker : m.value.marker <:+: m.source := by
    rw [hsource, Enclosure.source]
    exact ⟨m.value.indent, m.value.opening ++ m.value.body ++ m.value.closing, by simp⟩
  apply (hg.of_append_marker _ hform.marker).imp_right fun h => h.of_isInfix hmarker
  intro c hc
  obtain ⟨g, rfl⟩ := List.getLast?_eq_some_iff.mp hc
  rw [Place.atLineStart, Place.before_after_concat] at hline
  simpa using hline

/-- Nor does that of brackets. -/
theorem hasSplitNumber_of_convertBrackets (h : HasSplitNumber (convertBrackets t).text) :
  HasSplitNumber t
  := by
  apply Reader.hasSplitNumber_of_replace_plain _ h
  intro m hm w hw
  rw [eq_of_ite_none_ite_eq_some hw]
  exact ⟨_, writesApart_displayOf hm []⟩

end Conversions

end DollarMath
