import DollarMath.Proofs.Adjacent
import DollarMath.Proofs.Code
import DollarMath.Proofs.Openings

/-!
# Line feeds behind carriage returns

The line ends of a prose segment are those of its displays, so a document whose line feeds all
follow a carriage return stays such a document.  Only a segment without any line end does not tell
which ones to write: a display in it gets plain line feeds.  There is one such segment at most,
the last one.
-/

namespace DollarMath

open LineEnds
open scoped List

/-! ### Line feeds behind carriage returns -/

/-- A text of which every line feed follows a carriage return. -/
def IsCrlf (t : Text) : Prop :=
  ∀ u v, t = u ++ '\n' :: v → u.getLast? = some '\r'

/-- Each line feed follows a carriage return if the scan finds so. -/
theorem isCrlf_iff {t : Text} :
  IsCrlf t ↔ allCrlf false t = true
  := by
  suffices ∀ w : Text, allCrlf (decide (w.getLast? = some '\r')) t = true
      ↔ ∀ u v, t = u ++ '\n' :: v → (w ++ u).getLast? = some '\r' from (this []).symm
  induction t with
  | nil => simp [allCrlf]
  | cons c cs ih =>
    intro w
    have ih := ih (w ++ [c])
    rw [List.getLast?_concat] at ih
    have hc : decide (some c = some '\r') = decide (c = '\r') := by simp
    rw [allCrlf, Bool.and_eq_true, ← hc, ih]
    constructor
    · rintro ⟨hfirst, hlater⟩ u v heq
      cases u with
      | nil =>
        obtain ⟨rfl, rfl⟩ := List.cons.inj heq
        simpa using hfirst
      | cons a u =>
        obtain ⟨rfl, hcs⟩ := List.cons.inj heq
        have hlater := hlater u v hcs
        rwa [List.append_assoc] at hlater
    · intro h
      constructor
      · by_cases hnewline : c = '\n'
        · have hfirst := h [] cs (by rw [hnewline]; rfl)
          rw [List.append_nil] at hfirst
          simp [hfirst]
        · simp [hnewline]
      · rintro u v rfl
        have hlater := h (c :: u) v rfl
        rwa [List.append_assoc]

/-- A text without line feeds has none that stands alone. -/
theorem isCrlf_of_not_mem {t : Text} (h : '\n' ∉ t) :
  IsCrlf t
  := by
  rintro u v rfl
  simp at h

/-- A line feed behind a dollar stands alone. -/
theorem not_isCrlf_of_infix {t : Text} (h : ['$', '\n'] <:+: t) :
  ¬ IsCrlf t
  := by
  obtain ⟨u, v, rfl⟩ := h
  intro hcrlf
  have hlast := hcrlf (u ++ ['$']) v (by simp)
  rw [List.getLast?_concat] at hlast
  cases hlast

/-- A text that ends with a line end and another one: both have returned lines, or neither. -/
theorem IsCrlf.append_iff {s t : Text} (hs : EndsLine s) :
  IsCrlf (s ++ t) ↔ IsCrlf s ∧ IsCrlf t
  := by
  have hlast : s.getLast? ≠ some '\r' := fun h => by cases hs '\r' h
  constructor
  · intro h
    constructor
    · rintro u v rfl
      apply h u (v ++ t)
      rw [List.append_assoc]
      rfl
    · rintro u v rfl
      have hu := h (s ++ u) v (by rw [List.append_assoc])
      by_cases hne : u = []
      · rw [hne, List.append_nil] at hu
        exact absurd hu hlast
      · rwa [List.getLast?_append_of_ne_nil s hne] at hu
  · rintro ⟨hs, ht⟩ u v heq
    rcases List.append_eq_append_iff.mp heq with ⟨w, rfl, hw⟩ | ⟨w, rfl, hw⟩
    · have hw := ht w v hw
      rw [List.getLast?_append, hw]
      rfl
    · cases w with
      | nil =>
        have hnil := ht [] v hw.symm
        cases hnil
      | cons c w =>
        obtain ⟨rfl, rfl⟩ := List.cons.inj hw
        apply hs u w rfl

/-- Parts that end at line ends have their line feeds behind carriage returns one by one. -/
theorem isCrlf_flatten {ts : List Text} (h : CutAtLines ts) :
  IsCrlf ts.flatten ↔ ∀ t ∈ ts, IsCrlf t
  := by
  induction ts with
  | nil => simp [IsCrlf]
  | cons t ts ih =>
    rw [List.flatten_cons, List.forall_mem_cons, ← ih h.2]
    by_cases hts : ts = []
    · rw [hts, List.flatten_nil, List.append_nil]
      apply (and_iff_left (isCrlf_of_not_mem List.not_mem_nil)).symm
    · apply IsCrlf.append_iff (h.1 hts)

/-! ### Segments -/

/-- Code, prose with line ends, and prose without displays keep the line feeds behind carriage
returns. -/
theorem Segment.isCrlf_convert_iff {s : Segment} (h : IsCrlf s.content) :
  IsCrlf s.convert.text
    ↔ (s.kind = .prose → '\n' ∉ s.content → (convertProse s.content).tally.block = 0)
  := by
  rw [convert]
  cases hkind : s.kind with
  | code => simpa [Converted.unchanged] using h
  | prose =>
    rw [isCrlf_iff] at h
    dsimp only
    by_cases hnewline : '\n' ∈ s.content
    · rw [convertProse, if_pos (by simp [hnewline, h]), isCrlf_iff, allCrlf_toCrlf]
      simp [hnewline]
    · have hprose : convertProse s.content = convertMath s.content := by
        rw [convertProse, if_neg (by simp [hnewline])]
      rw [hprose]
      constructor
      · intro hcrlf _ _
        by_contra hne
        apply not_isCrlf_of_infix (dollar_newline_infix_convertMath hnewline hne) hcrlf
      · intro hzero
        apply isCrlf_of_not_mem
        rw [newline_mem_convertMath_iff hnewline, not_not]
        apply hzero rfl hnewline

/-- All segments but the last one end with a line end. -/
theorem CutAtLines.endsLine {ss ts : List Text} {s : Text} (h : CutAtLines (ss ++ s :: ts))
    (hne : ts ≠ []) :
  EndsLine s
  := by
  induction ss with
  | nil => exact h.1 hne
  | cons _ ss ih => exact ih h.2

/-- A segment without a line feed is the last one. -/
theorem getLast?_segments_of_not_mem {d : Text} {s : Segment} (hs : s ∈ segments d)
    (h : '\n' ∉ s.content) :
  (segments d).getLast? = some s
  := by
  obtain ⟨ss, ts, hsegments⟩ := List.append_of_mem hs
  by_cases hts : ts = []
  · rw [hsegments, hts, List.getLast?_concat]
  · exfalso
    have hcut := cutAtLines_segments d
    rw [hsegments, List.map_append, List.map_cons] at hcut
    have hends := hcut.endsLine (by simpa using hts)
    obtain ⟨u, c, hcontent⟩ :=
      (List.eq_nil_or_concat' s.content).resolve_left ((isDecomposition_segments d).ne_nil s hs)
    apply h
    rw [← hends c (by rw [hcontent, List.getLast?_concat]; rfl), hcontent]
    exact List.mem_concat_self

/-- All line feeds of a converted document follow a carriage return, as those of the document do,
exactly when its last segment is no prose of one unended line in which a display is written. -/
theorem isCrlf_convertDocument_iff {d : Text} (h : IsCrlf d) :
  IsCrlf (convertDocument d).text
    ↔ ∀ s ∈ (segments d).getLast?, s.kind = .prose → '\n' ∉ s.content →
      (convertProse s.content).tally.block = 0
  := by
  have hcut := cutAtLines_segments d
  have hcrlf : ∀ s ∈ segments d, IsCrlf s.content := by
    rw [← flatMap_content_segments d, List.flatMap_def, isCrlf_flatten hcut,
      List.forall_mem_map] at h
    exact h
  rw [text_convertDocument, List.flatMap_def, isCrlf_flatten (hcut.map fun s _ =>
    s.convert_keepsEnd.2), List.forall_mem_map]
  constructor
  · intro hall s hs
    have hmem := List.mem_of_getLast? hs
    apply (Segment.isCrlf_convert_iff (hcrlf s hmem)).mp (hall s hmem)
  · intro hlast s hs
    apply (Segment.isCrlf_convert_iff (hcrlf s hs)).mpr
    intro hkind hnewline
    apply hlast s (getLast?_segments_of_not_mem hs hnewline) hkind hnewline

/-- An inline formula behind the last line end of a document, between code and the end. -/
theorem isCrlf_convertDocument_unended :
  let d := ['~', '~', '~', '\r', '\n', '~', '~', '~', '\r', '\n', '\\', '(', 'x', '\\', ')']
  IsCrlf d
    ∧ (IsCrlf (convertDocument d).text
      ↔ ∀ s ∈ (segments d).getLast?, s.kind = .prose → '\n' ∉ s.content →
        (convertProse s.content).tally.block = 0)
  := by
  intro d
  have h : IsCrlf d := isCrlf_iff.mpr (by decide)
  exact ⟨h, isCrlf_convertDocument_iff h⟩

/-- Behind code, a display on the last line gets plain line feeds. -/
theorem not_isCrlf_convertDocument :
  let d := ['~', '~', '~', '\r', '\n', '~', '~', '~', '\r', '\n', '\\', '[', 'x', '\\', ']']
  '\n' ∈ d ∧ IsCrlf d ∧ ¬ IsCrlf (convertDocument d).text
  := by
  simp only [isCrlf_iff]
  decide

end DollarMath
