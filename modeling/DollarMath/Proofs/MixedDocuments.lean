import DollarMath.Proofs.Returns
import DollarMath.Proofs.SplitNumbers

/-!
# Documents with mixed line ends

A document may end some of its lines with a carriage return and a line feed and others with a line
feed.  Its segments are those of the document without carriage returns.  They are converted in the
same way, but for prose that mixes line ends and has a carriage return where the patterns do not
look for one.
-/

namespace DollarMath

open LineEnds

/-! ### Prose -/

/-- A text that splits no number has no chunk that does. -/
theorem not_hasSplitNumber_text {scope : Dollars.Scope} {t : Text} (h : ¬ HasSplitNumber t)
    {k : Chunk} (hk : k ∈ chunks scope t) :
  ¬ HasSplitNumber k.text
  := by
  intro hsplit
  apply h
  apply hsplit.of_isInfix
  rw [← flatMap_text_chunks scope t, List.flatMap_def]
  exact List.infix_of_mem_flatten (List.mem_map_of_mem hk)

/-- Inline formulas are converted alike, if no number is split. -/
theorem commutes_convertAllInlines {t : Text} (ht : IsMixed t) (hsplit : ¬ HasSplitNumber t) :
  convertAllInlines.Commutes t
  := by
  have hparens : (convertParens.between .all).Commutes t := by
    apply Conversion.Commutes.between ht
    intro k hk _
    exact commutes_convertParens (Chunk.isMixed_text ht hk) (not_hasSplitNumber_text hsplit hk)
  exact hparens.inOrder_cons (commutes_convertInlines hparens.isMixed).inOrder_singleton

/-- No carriage return breaks a construct of a text: none stands behind a block of whole lines, in
the text that the conversion of these blocks gets, and none splits a number. -/
structure IsUnbroken (t : Text) : Prop where
  /-- Quoted displays. -/
  displays : Delimiter.quotedDisplay.EndsBare t
  /-- Quoted brackets. -/
  brackets : Delimiter.quotedBracket.EndsBare (convertQuotedDisplays t).text
  /-- Bracket blocks. -/
  blocks : Delimiter.bracketBlock.EndsBare
    (convertDisplays (collapseQuotedBrackets (convertQuotedDisplays t).text).text).text
  /-- Numbers. -/
  numbers : ¬ HasSplitNumber t

namespace IsUnbroken

variable {t : Text} (h : IsUnbroken t) (ht : IsMixed t)
include h ht

/-- Displays are converted alike, and no number comes to be split. -/
theorem commutes_convertAllDisplays :
  convertAllDisplays.Commutes t ∧ ¬ HasSplitNumber (convertAllDisplays t).text
  := by
  have h₁ := commutes_convertQuotedDisplays ht h.displays
  have h₂ := commutes_collapseQuotedBrackets h₁.isMixed h.brackets
  have h₃ := commutes_convertDisplays h₂.isMixed
  have n₁ := mt (hasSplitNumber_of_convertQuotedDisplays ht) h.numbers
  have n₂ := mt (hasSplitNumber_of_collapseQuotedBrackets h₁.isMixed) n₁
  have n₃ := mt hasSplitNumber_of_convertDisplays n₂
  have h₄ := commutes_convertBracketBlocks h₃.isMixed n₃ h.blocks
  have n₄ := mt hasSplitNumber_of_convertBracketBlocks n₃
  have h₅ := commutes_convertBrackets h₄.isMixed n₄
  constructor
  · exact h₁.inOrder_cons (h₂.inOrder_cons (h₃.inOrder_cons (h₄.inOrder_cons h₅.inOrder_singleton)))
  · rw [text_convertAllDisplays]
    exact mt hasSplitNumber_of_convertBrackets n₄

/-- Prose is converted in the same way with its carriage returns and without. -/
theorem commutes_convertMath :
  convertMath.Commutes t
  := by
  obtain ⟨hdisplays, hsplit⟩ := h.commutes_convertAllDisplays ht
  apply hdisplays.inOrder_cons
  apply Conversion.Commutes.inOrder_singleton
  apply Conversion.Commutes.between hdisplays.isMixed
  intro k hk _
  exact commutes_convertAllInlines (Chunk.isMixed_text hdisplays.isMixed hk)
    (not_hasSplitNumber_text hsplit hk)

end IsUnbroken

namespace LineEnds

/-- A text with carriage returns that does not have one before every line feed. -/
def MixesEnds (t : Text) : Prop :=
  '\r' ∈ t ∧ allCrlf false t = false

/-- Mixed line ends become line feeds when the carriage returns are left out. -/
theorem IsMixed.toLf_eq {t : Text} (h : IsMixed t) :
  toLf t = dropReturns t
  := by
  induction t using toLf.induct with
  | case1 => rfl
  | case2 cs ih =>
    rw [toLf, dropReturns_return, dropReturns_cons (by decide),
      ih (isMixed_cons.mp (isMixed_cons.mp h).2).2]
  | case3 c cs hcrlf ih =>
    obtain ⟨hnext, hcs⟩ := isMixed_cons.mp h
    have hc : c ≠ '\r' := by
      intro hc
      obtain ⟨ds, hds⟩ := List.head?_eq_some_iff.mp (hnext hc)
      exact hcrlf ds hc hds
    rw [toLf, dropReturns_cons hc, ih hcs]
    exact hcrlf

/-- Returned line ends lose what they have got. -/
theorem dropReturns_toCrlf (t : Text) :
  dropReturns (toCrlf t) = dropReturns t
  := by
  induction t with
  | nil => rfl
  | cons c cs ih =>
    rw [toCrlf_cons, dropReturns_append, ih]
    by_cases hc : c = '\n'
    · rw [if_pos hc, hc]
      rfl
    · rw [if_neg hc, ← dropReturns_append]
      rfl

end LineEnds

/-- No carriage return is written. -/
theorem return_not_mem_convertMath {t : Text} (h : '\r' ∉ t) :
  '\r' ∉ (convertMath t).text
  := by
  intro hmem
  rcases mem_of_mem_convertMath hmem with hmem | hmem
  · exact h hmem
  · simp [stepMarks] at hmem

/-- Prose is converted in the same way without its carriage returns, unless it mixes line ends and
a carriage return breaks a construct. -/
theorem convertProse_dropReturns {t : Text} (ht : IsMixed t) (h : MixesEnds t → IsUnbroken t) :
  convertProse (dropReturns t) = (convertProse t).dropReturns
  := by
  have hplain : ∀ u, '\r' ∉ u → convertProse u = convertMath u := by
    intro u hu
    rw [convertProse, if_neg]
    rw [Bool.and_eq_true, List.contains_iff_mem]
    rintro ⟨hn, hcrlf⟩
    rw [allCrlf_eq_false hu hn] at hcrlf
    cases hcrlf
  have hkept : ∀ u, '\r' ∉ u → dropReturns (convertMath u).text = (convertMath u).text :=
    fun u hu => dropReturns_eq_self (return_not_mem_convertMath hu)
  have hnone := return_not_mem_dropReturns t
  by_cases hcr : '\r' ∈ t
  · have hn : t.contains '\n' = true := List.contains_iff_mem.mpr (ht.newline_mem hcr)
    rw [hplain _ hnone, convertProse, hn, Bool.true_and, ht.toLf_eq]
    cases hcrlf : allCrlf false t with
    | true =>
      rw [if_pos rfl, Converted.dropReturns, dropReturns_toCrlf, hkept _ hnone]
    | false =>
      rw [if_neg Bool.false_ne_true]
      exact ((h ⟨hcr, hcrlf⟩).commutes_convertMath ht).eq
  · rw [dropReturns_eq_self hcr, hplain t hcr, Converted.dropReturns, hkept t hcr]

/-! ### Lines and segments -/

/-- The lines of a text with mixed line ends have such line ends, too. -/
theorem isMixed_of_mem_lines {t : Text} (ht : IsMixed t) :
  ∀ l ∈ lines t, IsMixed l
  := by
  induction t with
  | nil => simp [lines]
  | cons c cs ih =>
    obtain ⟨hnext, hcs⟩ := isMixed_cons.mp ht
    have ih := ih hcs
    rw [lines]
    split
    · next hn =>
      rw [List.forall_mem_cons]
      exact ⟨.of_not_mem (by simp), ih⟩
    · split
      · next hnil =>
        have hc : c ≠ '\r' := by
          intro hc
          obtain ⟨ds, rfl⟩ := List.head?_eq_some_iff.mp (hnext hc)
          simp [lines] at hnil
        rw [List.forall_mem_singleton]
        exact .of_not_mem (by simpa using hc.symm)
      · next l ls hcons =>
        rw [hcons, List.forall_mem_cons] at ih
        rw [List.forall_mem_cons, isMixed_cons]
        refine ⟨⟨?_, ih.1⟩, ih.2⟩
        intro hc
        obtain ⟨ds, rfl⟩ := List.head?_eq_some_iff.mp (hnext hc)
        rw [lines, if_pos rfl] at hcons
        rw [← (List.cons.inj hcons).1]
        rfl

/-- The lines of a text without its carriage returns are its lines without them. -/
theorem lines_dropReturns {t : Text} (ht : IsMixed t) :
  lines (dropReturns t) = (lines t).map dropReturns
  := by
  induction t with
  | nil => rfl
  | cons c cs ih =>
    obtain ⟨hnext, hcs⟩ := isMixed_cons.mp ht
    have ih := ih hcs
    by_cases hc : c = '\r'
    · subst hc
      obtain ⟨ds, rfl⟩ := List.head?_eq_some_iff.mp (hnext rfl)
      rw [dropReturns_return, ih]
      rfl
    · rw [dropReturns_cons hc, lines, lines, ih]
      by_cases hn : c = '\n'
      · rw [if_pos hn, if_pos hn]
        rfl
      · rw [if_neg hn, if_neg hn]
        cases lines cs with
        | nil => simp [dropReturns_cons hc]
        | cons l ls => simp [dropReturns_cons hc]

namespace Fence

/-- A line is a fence with its carriage return and without. -/
theorem ofLine?_dropReturns {l : Text} (hl : IsPaired l) :
  ofLine? (dropReturns l) = ofLine? l
  := by
  rw [ofLine?, ofLine?, LineEnds.dropWhile_dropReturns (by decide)]
  cases hdrop : l.dropWhile isBlank with
  | nil => rfl
  | cons c cs =>
    have hblank : isBlank c = false := by
      have hhead := List.head?_dropWhile_not isBlank l
      rw [hdrop] at hhead
      simpa using hhead
    have hne : ∀ d, isBlank d = true → decide (d = c) = false := by
      intro d hd
      rw [decide_eq_false_iff_not]
      rintro rfl
      rw [hd] at hblank
      cases hblank
    have hrest : IsPaired (c :: cs) := by
      rw [← hdrop]
      exact hl.of_isInfix (List.dropWhile_suffix _).isInfix
    have hrun := hrest.takeWhile_dropReturns (q := (· = c)) (hne '\r' (by decide))
      (hne '\n' (by decide))
    have hcr : c ≠ '\r' := by
      rintro rfl
      cases hblank
    rw [dropReturns_cons hcr] at hrun ⊢
    dsimp only
    rw [hrun]

/-- It closes a fence with its carriage return and without. -/
theorem closedBy_dropReturns (f : Fence) {l : Text} (hl : IsPaired l) :
  f.closedBy (dropReturns l) = f.closedBy l
  := by
  rw [closedBy, closedBy, ofLine?_dropReturns hl]

end Fence

namespace Segment

/-- A segment without its carriage returns. -/
def dropReturns (s : Segment) : Segment :=
  ⟨s.kind, LineEnds.dropReturns s.content⟩

/-- Prose in front of segments without their carriage returns. -/
theorem consProse_dropReturns {t : Text} (ht : IsMixed t) (ss : List Segment) :
  consProse (LineEnds.dropReturns t) (ss.map dropReturns) = (consProse t ss).map dropReturns
  := by
  by_cases hnil : t = []
  · rw [hnil]
    rfl
  · have hne := ht.dropReturns_ne_nil hnil
    simp [consProse, hnil, hne, dropReturns]

/-- The segments with prose in front have mixed line ends if the prose has. -/
theorem isMixed_content_consProse {t : Text} {ss : List Segment} (ht : IsMixed t)
    (hss : ∀ s ∈ ss, IsMixed s.content) :
  ∀ s ∈ consProse t ss, IsMixed s.content
  := by
  rw [consProse]
  split
  · exact hss
  · rw [List.forall_mem_cons]
    exact ⟨ht, hss⟩

/-- The segments of lines with mixed line ends, each of them with mixed line ends itself. -/
theorem ofLines_dropReturns (opened : Option Fence) (ls : List Text) :
  (∀ l ∈ ls, IsMixed l) →
    ofLines opened (ls.map LineEnds.dropReturns)
        = (LineEnds.dropReturns (ofLines opened ls).1, (ofLines opened ls).2.map dropReturns)
      ∧ IsMixed (ofLines opened ls).1
      ∧ ∀ s ∈ (ofLines opened ls).2, IsMixed s.content
  := by
  apply ofLines_induction fun opened ls r => (∀ l ∈ ls, IsMixed l) →
    ofLines opened (ls.map LineEnds.dropReturns)
        = (LineEnds.dropReturns r.1, r.2.map dropReturns)
      ∧ IsMixed r.1 ∧ ∀ s ∈ r.2, IsMixed s.content
  · intro opened _
    exact ⟨rfl, isMixed_nil, by simp⟩
  · intro l ls hl ih hls
    obtain ⟨hmixed, hls⟩ := List.forall_mem_cons.mp hls
    obtain ⟨heq, hprose, hss⟩ := ih hls
    refine ⟨?_, hmixed.append hprose, hss⟩
    rw [List.map_cons, ofLines_of_not_opens, heq, dropReturns_append]
    rw [Fence.opens, Fence.ofLine?_dropReturns hmixed.isPaired]
    exact hl
  · intro f l ls hl ih hls
    obtain ⟨hmixed, hls⟩ := List.forall_mem_cons.mp hls
    obtain ⟨heq, hcode, hss⟩ := ih hls
    refine ⟨?_, isMixed_nil, ?_⟩
    · rw [List.map_cons, ofLines_of_fence (f := f), heq, ← dropReturns_append]
      · rfl
      · rw [Fence.ofLine?_dropReturns hmixed.isPaired, hl]
    · rw [List.forall_mem_cons]
      exact ⟨hmixed.append hcode, hss⟩
  · intro f l ls hl ih hls
    obtain ⟨hmixed, hls⟩ := List.forall_mem_cons.mp hls
    obtain ⟨heq, hprose, hss⟩ := ih hls
    refine ⟨?_, hmixed, isMixed_content_consProse hprose hss⟩
    rw [List.map_cons, ofLines_of_closedBy, heq, consProse_dropReturns hprose]
    rw [Fence.closedBy_dropReturns f hmixed.isPaired, hl]
  · intro f l ls hl ih hls
    obtain ⟨hmixed, hls⟩ := List.forall_mem_cons.mp hls
    obtain ⟨heq, hcode, hss⟩ := ih hls
    refine ⟨?_, hmixed.append hcode, hss⟩
    rw [List.map_cons, ofLines_of_not_closedBy, heq, dropReturns_append]
    rw [Fence.closedBy_dropReturns f hmixed.isPaired, hl]

/-- A segment is converted in the same way without its carriage returns. -/
theorem convert_dropReturns {s : Segment} (hs : IsMixed s.content)
    (h : s.kind = .prose → MixesEnds s.content → IsUnbroken s.content) :
  s.dropReturns.convert = s.convert.dropReturns
  := by
  obtain ⟨kind, t⟩ := s
  cases kind with
  | code => rfl
  | prose => exact convertProse_dropReturns hs (h rfl)

end Segment

section Segments

variable {d : Text} (hd : IsMixed d)
include hd

/-- The segments of a document without its carriage returns are its segments without them. -/
theorem segments_dropReturns :
  segments (dropReturns d) = (segments d).map Segment.dropReturns
  := by
  obtain ⟨heq, hprose, -⟩ := Segment.ofLines_dropReturns none (lines d) (isMixed_of_mem_lines hd)
  rw [segments_eq, segments_eq, lines_dropReturns hd, heq, Segment.consProse_dropReturns hprose]

/-- The segments of a document with mixed line ends have mixed line ends. -/
theorem isMixed_content :
  ∀ s ∈ segments d, IsMixed s.content
  := by
  obtain ⟨-, hprose, hss⟩ := Segment.ofLines_dropReturns none (lines d) (isMixed_of_mem_lines hd)
  exact Segment.isMixed_content_consProse hprose hss

end Segments

/-- A document without its carriage returns is converted in the same way, unless a carriage return
breaks a construct of a prose segment that mixes line ends: the tally is the same, and the text is
the converted text without its carriage returns. -/
theorem convertDocument_dropReturns {d : Text} (hd : IsMixed d)
    (h : ∀ s ∈ segments d, s.kind = .prose → MixesEnds s.content → IsUnbroken s.content) :
  (convertDocument d).tally = (convertDocument (dropReturns d)).tally
    ∧ dropReturns (convertDocument d).text = (convertDocument (dropReturns d)).text
  := by
  have hsegments : ((segments d).map Segment.dropReturns).map Segment.convert
      = ((segments d).map Segment.convert).map Converted.dropReturns := by
    rw [List.map_map, List.map_map]
    apply List.map_congr_left
    intro s hs
    exact Segment.convert_dropReturns (isMixed_content hd s hs) (h s hs)
  have hall : convertDocument (dropReturns d) = (convertDocument d).dropReturns := by
    rw [convertDocument, segments_dropReturns hd, hsegments, Converted.concat_dropReturns]
    rfl
  rw [hall]
  exact ⟨rfl, rfl⟩

/-- A quoted block with carriage returns in it, and none behind it. -/
theorem convertDocument_dropReturns_block :
  let d := ['>', ' ', '\\', '[', '\r', '\n', '>', ' ', 'x', '\r', '\n', '>', ' ', '\\', ']', '\n']
  (IsMixed d
      ∧ ∀ s ∈ segments d, s.kind = .prose → MixesEnds s.content → IsUnbroken s.content)
    ∧ (convertDocument d).tally = (convertDocument (dropReturns d)).tally
    ∧ dropReturns (convertDocument d).text = (convertDocument (dropReturns d)).text
  := by
  intro d
  have hd : IsMixed d := by simp [d, isMixed_cons, isMixed_nil]
  let c := ['>', ' ', '$', '$', ' ', 'x', ' ', '$', '$', '\n']
  have hquoted : (convertQuotedDisplays d).text = c := by decide
  have hcollapsed :
      (convertDisplays (collapseQuotedBrackets (convertQuotedDisplays d).text).text).text = c := by
    decide
  have hplain : ∀ k : Delimiter, k.IsBlock → k.EndsBare c := by
    intro k hk
    exact Delimiter.EndsBare.of_append (u := c) (v := []) hk (by decide) (by decide)
  have hunbroken : IsUnbroken d := by
    constructor
    · exact Delimiter.EndsBare.of_append (d := .quotedDisplay) (v := [']', '\n'])
        (u := ['>', ' ', '\\', '[', '\r', '\n', '>', ' ', 'x', '\r', '\n', '>', ' ', '\\'])
        trivial (by decide) (by decide)
    · rw [hquoted]
      exact hplain .quotedBracket trivial
    · rw [hcollapsed]
      exact hplain .bracketBlock trivial
    · rintro ⟨a, b, -, -, hinside⟩
      have hbrace : '\x7b' ∈ d := hinside.subset (by simp)
      revert hbrace
      decide
  have hsegments : ∀ s ∈ segments d, s.kind = .prose → MixesEnds s.content →
      IsUnbroken s.content := by
    have hone : segments d = [⟨.prose, d⟩] := by decide
    rw [hone, List.forall_mem_singleton]
    exact fun _ _ => hunbroken
  exact ⟨⟨hd, hsegments⟩, convertDocument_dropReturns hd hsegments⟩

/-- A carriage return behind a quoted block: the display in it is found, and its lines are not
joined. -/
theorem not_dropReturns_convertDocument :
  let d := ['>', ' ', '\\', '[', '\n', '>', ' ', 'x', '\n', '>', ' ', '\\', ']', '\r', '\n']
  IsMixed d
    ∧ dropReturns (convertDocument d).text ≠ (convertDocument (dropReturns d)).text
    ∧ convertDocument d
      = ⟨['>', ' ', '$', '$', '\n', '>', ' ', 'x', '\n', '>', '\n', '$', '$', '\r', '\n'], ⟨0, 1⟩⟩
    ∧ convertDocument (dropReturns d)
      = ⟨['>', ' ', '$', '$', ' ', 'x', ' ', '$', '$', '\n'], ⟨0, 1⟩⟩
  := by
  refine ⟨by simp [isMixed_cons, isMixed_nil], ?_⟩
  decide

/-- A split number. -/
example :
  (convertDocument ['(', '1', '\x7b', '\r', '\n', '\x7d', '2', ')', '\n']).tally = ⟨0, 0⟩
    ∧ (convertDocument ['(', '1', '\x7b', '\n', '\x7d', '2', ')', '\n']).tally = ⟨1, 0⟩
  := by decide

end DollarMath
