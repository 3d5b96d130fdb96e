import DollarMath.Proofs.Adjacent
import DollarMath.Proofs.Code

/-!
# Carriage returns

A document may end its lines with a carriage return before every line feed.  Its lines, its
fences and its segments are those of the document without carriage returns, and so are its
formulas.
-/

namespace DollarMath

open LineEnds

/-! ### Lines and fences -/

/-- The lines of a returned text are the returned lines. -/
theorem lines_toCrlf (t : Text) :
  lines (toCrlf t) = (lines t).map toCrlf
  := by
  induction t with
  | nil => rfl
  | cons c cs ih =>
    rw [toCrlf_cons]
    by_cases hc : c = '\n'
    · rw [if_pos hc, hc]
      simp [lines, ih]
    · rw [if_neg hc, List.cons_append, List.nil_append, lines, if_neg hc, lines, if_neg hc, ih]
      cases lines cs with
      | nil => simp [hc]
      | cons l ls => simp [hc]

/-- Both characters of a line end are blank. -/
theorem dropWhile_isBlank_toCrlf (t : Text) :
  (toCrlf t).dropWhile isBlank = toCrlf (t.dropWhile isBlank)
  := by
  have hcr : isBlank '\r' = true := by decide
  have hlf : isBlank '\n' = true := by decide
  induction t with
  | nil => rfl
  | cons c cs ih =>
    by_cases hc : c = '\n'
    · simp [hc, hcr, hlf, ih]
    · by_cases hblank : isBlank c = true
      · simp [hc, hblank, ih]
      · simp [hc, hblank]

/-- A run of a character that is not blank ends where the line ends. -/
theorem takeWhile_eq_toCrlf {c : Char} (hc : isBlank c = false) (t : Text) :
  (toCrlf t).takeWhile (· = c) = t.takeWhile (· = c)
  := by
  have hcr : '\r' ≠ c := by
    rintro rfl
    cases hc
  have hlf : '\n' ≠ c := by
    rintro rfl
    cases hc
  induction t with
  | nil => rfl
  | cons d ds ih =>
    by_cases hd : d = '\n'
    · simp [hd, hcr, hlf]
    · by_cases hdc : d = c
      · simp [hdc, hlf.symm, ih]
      · simp [hd, hdc]

namespace Fence

/-- A carriage return changes no fence. -/
theorem ofLine?_toCrlf (l : Text) :
  ofLine? (toCrlf l) = ofLine? l
  := by
  rw [ofLine?, ofLine?, dropWhile_isBlank_toCrlf]
  cases hdrop : l.dropWhile isBlank with
  | nil => rfl
  | cons c cs =>
    have hc : isBlank c = false := by
      have hhead := List.head?_dropWhile_not isBlank l
      rw [hdrop] at hhead
      simpa using hhead
    have hlf : c ≠ '\n' := by
      rintro rfl
      cases hc
    have hcons : toCrlf (c :: cs) = c :: toCrlf cs := by
      rw [toCrlf_cons, if_neg hlf]
      rfl
    have hrun := takeWhile_eq_toCrlf hc (c :: cs)
    rw [hcons] at hrun ⊢
    dsimp only
    rw [hrun]

/-- A returned line closes a fence if the line does. -/
theorem closedBy_toCrlf (f : Fence) (l : Text) :
  f.closedBy (toCrlf l) = f.closedBy l
  := by
  rw [closedBy, closedBy, ofLine?_toCrlf]

end Fence

/-! ### Segments -/

namespace Segment

/-- A segment with a carriage return before every line feed. -/
def toCrlf (s : Segment) : Segment :=
  ⟨s.kind, LineEnds.toCrlf s.content⟩

/-- Returned prose in front of returned segments. -/
theorem consProse_toCrlf (t : Text) (ss : List Segment) :
  consProse (LineEnds.toCrlf t) (ss.map toCrlf) = (consProse t ss).map toCrlf
  := by
  by_cases ht : t = []
  · rw [ht]
    rfl
  · have ht' := mt (toCrlf_eq_nil_iff t).mp ht
    simp [consProse, ht, ht', toCrlf]

/-- The segments of returned lines are the returned segments. -/
theorem ofLines_toCrlf (opened : Option Fence) (ls : List Text) :
  ofLines opened (ls.map LineEnds.toCrlf)
    = (LineEnds.toCrlf (ofLines opened ls).1, (ofLines opened ls).2.map toCrlf)
  := by
  apply ofLines_induction fun opened ls r =>
    ofLines opened (ls.map LineEnds.toCrlf) = (LineEnds.toCrlf r.1, r.2.map toCrlf)
  · intro opened
    rfl
  · intro l ls hl ih
    rw [List.map_cons, ofLines_of_not_opens, ih, toCrlf_append]
    rw [Fence.opens, Fence.ofLine?_toCrlf]
    exact hl
  · intro f l ls hl ih
    rw [List.map_cons, ofLines_of_fence (f := f), ih, ← toCrlf_append]
    · rfl
    · rw [Fence.ofLine?_toCrlf, hl]
  · intro f l ls hl ih
    rw [List.map_cons, ofLines_of_closedBy, ih, consProse_toCrlf]
    rw [Fence.closedBy_toCrlf, hl]
  · intro f l ls hl ih
    rw [List.map_cons, ofLines_of_not_closedBy, ih, toCrlf_append]
    rw [Fence.closedBy_toCrlf, hl]

end Segment

/-- The segments of a text with carriage returns are its segments with carriage returns. -/
theorem segments_toCrlf (t : Text) :
  segments (toCrlf t) = (segments t).map Segment.toCrlf
  := by
  rw [segments_eq, segments_eq, lines_toCrlf, Segment.ofLines_toCrlf, Segment.consProse_toCrlf]

/-- The segments of a text of whole lines are texts of whole lines. -/
theorem endsLine_of_mem_segments {t : Text} (h : EndsLine t) :
  ∀ s ∈ segments t, EndsLine s.content
  := by
  suffices ∀ ss : List Segment, CutAtLines (ss.map Segment.content) →
      (∀ s ∈ ss.getLast?, EndsLine s.content) → ∀ s ∈ ss, EndsLine s.content from
    this (segments t) (cutAtLines_segments t) (endsLine_of_getLast? h)
  intro ss
  induction ss with
  | nil => simp
  | cons s ss ih =>
    intro hcut hlast
    by_cases hss : ss = []
    · rw [hss] at hlast ⊢
      simpa using hlast
    · rw [List.getLast?_cons_of_ne_nil hss] at hlast
      rw [List.forall_mem_cons]
      constructor
      · apply hcut.1
        simpa using hss
      · apply ih hcut.2 hlast

/-! ### Conversions -/

/-- A converted text with a carriage return before every line feed. -/
def Converted.toCrlf (c : Converted) : Converted :=
  ⟨LineEnds.toCrlf c.text, c.tally⟩

/-- Converted parts are returned one by one. -/
theorem Converted.concat_toCrlf (cs : List Converted) :
  concat (cs.map toCrlf) = (concat cs).toCrlf
  := by
  induction cs with
  | nil => rfl
  | cons c cs ih =>
    change c.toCrlf ++ concat (cs.map toCrlf) = (c ++ concat cs).toCrlf
    rw [ih]
    change Converted.mk _ _ = Converted.mk (LineEnds.toCrlf (c.text ++ _)) _
    rw [toCrlf_append]
    rfl

/-- Prose of whole lines is converted in the same way with carriage returns and without. -/
theorem convertProse_toCrlf {t : Text} (hcr : '\r' ∉ t) (hlf : '\n' ∈ t) :
  convertProse (toCrlf t) = (convertProse t).toCrlf
  := by
  have hlf' : '\n' ∈ toCrlf t := List.mem_flatMap.mpr ⟨'\n', hlf, by simp⟩
  rw [convertProse, allCrlf_toCrlf, toLf_toCrlf, convertProse, allCrlf_eq_false hcr hlf]
  simp [hlf', Converted.toCrlf]

/-- A returned segment is converted to the returned text. -/
theorem Segment.convert_toCrlf
    {s : Segment} (hcr : '\r' ∉ s.content) (hlf : '\n' ∈ s.content) :
  s.toCrlf.convert = s.convert.toCrlf
  := by
  obtain ⟨kind, t⟩ := s
  cases kind with
  | code => rfl
  | prose => exact convertProse_toCrlf hcr hlf

/-- A document of whole lines without carriage returns is converted in the same way with a
carriage return before every line feed: the tally is the same, and the text is the converted
text with a carriage return before every line feed. -/
theorem convertDocument_toCrlf {d : Text} (hcr : '\r' ∉ d) (hends : EndsLine d) :
  (convertDocument (toCrlf d)).text = toCrlf (convertDocument d).text
    ∧ (convertDocument (toCrlf d)).tally = (convertDocument d).tally
  := by
  have hsegments : ((segments d).map Segment.toCrlf).map Segment.convert
      = ((segments d).map Segment.convert).map Converted.toCrlf := by
    rw [List.map_map, List.map_map]
    apply List.map_congr_left
    intro s hs
    apply Segment.convert_toCrlf
    · intro hmem
      apply hcr
      rw [← flatMap_content_segments d]
      apply List.mem_flatMap.mpr ⟨s, hs, hmem⟩
    · have hne := (isDecomposition_segments d).ne_nil s hs
      have hlast := List.getLast?_eq_some_getLast hne
      rw [← endsLine_of_mem_segments hends s hs _ hlast]
      apply List.mem_of_getLast? hlast
  have hall : convertDocument (toCrlf d) = (convertDocument d).toCrlf := by
    rw [convertDocument, segments_toCrlf, hsegments, Converted.concat_toCrlf]
    rfl
  rw [hall]
  exact ⟨rfl, rfl⟩

/-- Prose, code and prose, each of whole lines. -/
theorem convertDocument_toCrlf_code :
  let d := ['[', '\n', 'x', '=', '1', '\n', ']', '\n', '~', '~', '~', '\n', '(', '1', ')', '\n',
    '~', '~', '~', '\n', '(', '1', ')', '\n']
  ('\r' ∉ d ∧ EndsLine d)
    ∧ (convertDocument (toCrlf d)).text = toCrlf (convertDocument d).text
    ∧ (convertDocument (toCrlf d)).tally = (convertDocument d).tally
  := by
  intro d
  have hcr : '\r' ∉ d := by decide
  have hends : EndsLine d := by
    intro c hc
    exact (Option.some.inj hc).symm
  exact ⟨⟨hcr, hends⟩, convertDocument_toCrlf hcr hends⟩

end DollarMath
