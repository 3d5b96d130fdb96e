import DollarMath.Proofs.Code
import DollarMath.Proofs.Decomposition
import DollarMath.Proofs.DisplayMarks
import DollarMath.Proofs.InlinesOnce
import DollarMath.Proofs.Kept
import DollarMath.Proofs.StableDisplays

/-!
# Documents converted once and for all

Conditions on a text under which its conversion leaves nothing to convert: the displays and the
inline formulas that have been written are dollar mathematics, which the second conversion keeps,
and the text around them has not come to hold any formula.  In a document whose prose meets them,
or has nothing to convert in the first place, the new segments are the converted ones, and a second
conversion changes nothing.
-/

namespace DollarMath

open Entries LineEnds

/-- A text is converted once and for all. -/
@[mk_iff]
structure ConvertsOnce (t : Text) : Prop where
  /-- If its line ends are mixed, they stay so: not all line feeds without a carriage return are
  trimmed off. -/
  lineEnds : unified t = t → unified (convertMath t).text = (convertMath t).text
  /-- No display is written whose body opens with a fence. -/
  fences : ∀ b ∈ displayBodies t, Fence.opens b = false
  /-- No display between backslash brackets holds an opening bracket behind a single backslash. -/
  openings : ∀ m ∈ Delimiter.display.reader.findAll (collapsed (displayQuoted t)),
    true ∉ displayMarks 0 m.value.body
  /-- Bracket blocks and brackets are converted once and for all. -/
  displays : DisplaysOnce (displayed (displayQuoted t))
  /-- Inline formulas are. -/
  groups : GroupsOnce (chunks .displays (convertAllDisplays t).text)

instance (t : Text) : Decidable (ConvertsOnce t) :=
  decidable_of_iff _ (convertsOnce_iff t).symm

/-! ### Texts -/

/-- A bare text holds nothing to collapse. -/
theorem IsBare.isCollapsible {t : Text} (h : IsBare t) :
  ∀ m ∈ Delimiter.quotedBracket.reader.findAll t, isCollapsible m = false
  := by
  intro m hm
  rw [Bool.eq_false_iff]
  exact fun hcollapsible => h.collapsible ⟨m, Reader.standsIn_of_mem_findAll hm, hcollapsible⟩

/-- A bare text without displays between backslash brackets is settled, if nothing is left to
convert in its groups. -/
theorem IsBare.settled {t : Text} (h : IsBare t)
    (hdisplays : Delimiter.display.reader.findAll t = [])
    (hgroups : ∀ k ∈ chunks .displays t, k.isMath = false →
      (convertAllInlines k.text).tally.total = 0) :
  Settled t
  := by
  have hcollapsed : collapsed t = t := collapsed_eq_self h.isCollapsible
  refine ⟨⟨findAll_quotedDisplay_eq_nil hdisplays, ?_, ?_, ?_, ?_, ?_⟩, h.isCollapsible⟩
  · rwa [hcollapsed]
  · rw [hcollapsed]
    intro m hm hmath
    rw [← Bool.not_eq_false]
    exact fun htouches => h.blocks ⟨m, Reader.standsIn_of_mem_findAll hm, hmath, htouches⟩
  · rw [hcollapsed]
    intro m hm hmath
    rw [← Bool.not_eq_false]
    intro htouches
    apply h.brackets
    refine ⟨m, hm, ?_⟩
    rw [isRewritten, htouches, hmath]
    rfl
  · rw [hcollapsed]
    intro k hk hprose
    exact ((total_convertAllInlines_eq_zero_iff _).mp (hgroups k hk hprose)).1
  · rw [hcollapsed]
    intro k hk hprose
    exact ((total_convertAllInlines_eq_zero_iff _).mp (hgroups k hk hprose)).2

/-- A collapsible block stands on more than one line. -/
theorem not_holdsCollapsible_of_newline {t : Text} (h : '\n' ∉ t) :
  ¬ HoldsCollapsible t
  := by
  rintro ⟨m, ⟨x, n, rfl, hread⟩, -⟩
  have hd : Delimiter.quotedBracket.IsBlock := trivial
  obtain ⟨-, -, hform, hsource, -⟩ := (Delimiter.isRead_iff_of_isBlock hd).mp hread
  apply h
  rw [hsource]
  simp [QuotedForm.newline_mem_source hform]

/-- A text that is converted once and for all leaves a settled text. -/
theorem ConvertsOnce.settled {t : Text} (h : ConvertsOnce t) :
  Settled (convertMath t).text
  := by
  have hdisplays : (convertAllDisplays t).text
      = (convertBrackets (convertBracketBlocks (displayed (displayQuoted t))).text).text := rfl
  have hmath : (convertMath t).text
      = ((convertAllInlines.between .displays) (convertAllDisplays t).text).text := by
    rw [convertMath_eq_andThen, Converted.text_andThen]
  obtain ⟨es, htext, hread, hbare⟩ := h.displays.exists_brackets
  have hgroups := h.groups
  rw [hdisplays, ← htext] at hgroups
  obtain ⟨es', htext', hread', hrewrites, htotal⟩ := hgroups.exists_rewrites hread
  rw [htext, ← hdisplays, ← hmath] at htext'
  rw [← htext']
  apply IsBare.settled _ _ htotal
  · apply hrewrites.isBare groupRules_keepsBrackets hread hread' _ hbare
    rintro x s m d y ⟨-, -, -, -, -, hline⟩
    exact not_holdsCollapsible_of_newline hline
  · rw [htext', hmath, hdisplays, displayed]
    exact findAll_display_convertMath h.openings

/-! ### Documents -/

/-- A text of one unended line has no line end to return. -/
theorem toCrlf_eq_self {t : Text} (h : '\n' ∉ t) :
  toCrlf t = t
  := by
  induction t with
  | nil => rfl
  | cons c cs ih =>
    rw [List.mem_cons, not_or] at h
    rw [toCrlf_cons, if_neg (Ne.symm h.1), ih h.2]
    rfl

/-- Returned line ends are unified again. -/
theorem unified_toCrlf (t : Text) :
  unified (toCrlf t) = t
  := by
  rw [unified, allCrlf_toCrlf, Bool.and_true]
  by_cases hline : '\n' ∈ t
  · rw [if_pos, toLf_toCrlf]
    apply List.contains_iff_mem.mpr
    apply List.count_pos_iff.mp
    rw [count_toCrlf (by decide)]
    exact List.count_pos_iff.mpr hline
  · rw [toCrlf_eq_self hline, if_neg]
    simp [hline]

/-- The line ends of converted prose are unified to those of the converted text, if mixed line ends
stay so. -/
theorem unified_convertProse {t : Text}
    (h : unified t = t → unified (convertMath t).text = (convertMath t).text) :
  unified (convertProse t).text = (convertMath (unified t)).text
  := by
  rcases convertProse_cases t with ⟨hunified, hprose⟩ | ⟨-, hprose⟩
  · rw [hprose, hunified]
    exact h hunified
  · rw [hprose]
    dsimp only
    exact unified_toCrlf _

/-- A segment with its content converted. -/
def Segment.converted (s : Segment) : Segment :=
  { s with content := s.convert.text }

/-- Code stays as it is. -/
theorem Segment.converted_of_code {s : Segment} (h : s.kind = .code) :
  s.converted = s
  := by
  obtain ⟨_, t⟩ := s
  obtain rfl := h
  rfl

/-- The segments of a converted document are the converted segments, if no fence is written in
prose. -/
theorem segments_convertDocument {d : Text}
    (h : ∀ s ∈ segments d, s.kind = .prose → fences s.convert.text = 0) :
  segments (convertDocument d).text = (segments d).map Segment.converted
  := by
  have hsegments := isDecomposition_segments d
  symm
  apply IsDecomposition.eq_segments
  constructor
  · rw [text_convertDocument, List.flatMap_map]
    rfl
  · rw [List.forall_mem_map]
    intro s hs hnil
    exact hsegments.ne_nil s hs (s.convert_keepsEnd.1.mp hnil)
  · rw [List.map_map]
    exact hsegments.cut.map fun s _ => s.convert_keepsEnd.2
  · rw [List.forall_mem_map]
    intro s hs hkind l hl
    apply Fence.opens_eq_false_iff.mp
    exact not_opens_of_fences (h s hs hkind) l hl
  · rw [List.isChain_map]
    exact hsegments.alternate
  · rw [List.forall_mem_map]
    intro s hs hkind
    rw [Segment.converted_of_code (s := s) hkind]
    exact hsegments.code s hs hkind
  · rw [← List.map_dropLast, List.forall_mem_map]
    intro s hs hkind
    rw [Segment.converted_of_code (s := s) hkind]
    exact hsegments.closed s hs hkind

/-- Prose that is settled or converted once and for all leaves settled prose without fences. -/
theorem Segment.settled_convert {s : Segment} (hkind : s.kind = .prose)
    (hfences : fences s.content = 0)
    (h : Settled (unified s.content) ∨ ConvertsOnce (unified s.content)) :
  Settled (unified s.convert.text) ∧ fences s.convert.text = 0
  := by
  rw [Segment.convert, hkind]
  dsimp only
  rcases h with h | h
  · have hkept := ((convertMath_eq_self_iff _).mpr h).2
    rw [text_convertProse_eq_self hkept]
    exact ⟨h, hfences⟩
  · constructor
    · rw [unified_convertProse]
      · exact h.settled
      · intro hunified
        have hends := h.lineEnds
        rw [hunified] at hends
        exact hends hunified
    · exact (fences_convertProse_eq_zero_iff hfences).mpr h.fences

/-- A document whose prose is settled or converted once and for all is not changed by a second
conversion, which tallies nothing. -/
theorem convertDocument_convertDocument_of_convertsOnce
    {d : Text} (h : AllProse (fun t => Settled t ∨ ConvertsOnce t) d) :
  convertDocument (convertDocument d).text = ⟨(convertDocument d).text, 0⟩
  := by
  have hsettled := fun s hs hkind =>
    Segment.settled_convert hkind (fences_prose s hs hkind) (h s hs hkind)
  apply (convertDocument_eq_self_iff _).mpr
  intro s hs hkind
  rw [segments_convertDocument fun s hs hkind => (hsettled s hs hkind).2] at hs
  obtain ⟨s, hmem, rfl⟩ := List.mem_map.mp hs
  exact (hsettled s hmem hkind).1

/-- A stray dollar before the code, and formulas of four kinds behind it. -/
theorem convertDocument_convertDocument_fenced :
  let d := ['$', '5', '\n', '\x60', '\x60', '\x60', '\n', '\x60', '\x60', '\x60', '\n',
    '\\', '[', 'a', '\\', ']', ' ', '[', '1', ']', ' ', '(', 'x', '=', '2', ')', ' ',
    '\\', '(', 'y', '\\', ')']
  AllProse (fun t => Settled t ∨ ConvertsOnce t) d
    ∧ convertDocument (convertDocument d).text = ⟨(convertDocument d).text, 0⟩
  := ⟨by decide +kernel, convertDocument_convertDocument_of_convertsOnce (by decide +kernel)⟩

/-- A parenthesis just after a formula in backslash parentheses is read as a formula in the
second conversion only. -/
theorem convertDocument_convertDocument_ne :
  let d := ['\\', '(', 'x', '\\', ')', '(', '1', ')']
  convertDocument (convertDocument d).text ≠ ⟨(convertDocument d).text, 0⟩
  := by
  decide

end DollarMath
