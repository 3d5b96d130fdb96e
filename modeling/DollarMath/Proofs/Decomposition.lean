import DollarMath.Proofs.Segmentation
import DollarMath.Proofs.Trimming
import Mathlib.Data.List.Chain
import Mathlib.Data.List.DropRight

/-!
# The decomposition of a text into segments

The segments of a text are said without the scan that finds them: whole lines, prose without
fences, and code that starts at a fence and ends at the first one that closes it.  There is one
decomposition of this kind only.
-/

namespace DollarMath

/-! ### Fences -/

/-- A line without the carriage returns and line feeds at its end. -/
def bareLine (l : Text) : Text :=
  l.rdropWhile fun c => c = '\r' || c = '\n'

namespace Fence

/-- But for its line end, the line is blank characters, then a run of the mark of exactly the
length of the fence, at least three, and then anything. -/
structure IsFence (f : Fence) (l : Text) : Prop where
  /-- The mark is the backtick or the tilde. -/
  mark : f.mark = '\x60' ∨ f.mark = '~'
  /-- The run has three marks or more. -/
  length : 3 ≤ f.length
  /-- The run stands after blank characters, and no more marks follow. -/
  line : ∃ b rest, bareLine l = b ++ (List.replicate f.length f.mark ++ rest)
    ∧ IsBlankText b ∧ rest.head? ≠ some f.mark

/-- The line is a fence of the same mark that is at least as long. -/
def IsClosedBy (f : Fence) (l : Text) : Prop :=
  ∃ g : Fence, g.IsFence l ∧ g.mark = f.mark ∧ f.length ≤ g.length

/-- Lines of code: the first one is the fence, and no line between it and the last one closes
it. -/
def Opens (f : Fence) (ls : List Text) : Prop :=
  ∃ l rest, ls = l :: rest ∧ f.IsFence l ∧ ∀ l' ∈ rest.dropLast, ¬ f.IsClosedBy l'

/-- Lines of closed code: after the fence, the last line closes it, and no other one does. -/
def Encloses (f : Fence) (ls : List Text) : Prop :=
  f.Opens ls ∧ ∃ l ∈ ls.tail.getLast?, f.IsClosedBy l

/-- A line is the bare line and its line end, which holds no mark. -/
theorem exists_eq_bareLine_append (l : Text) :
  ∃ e, l = bareLine l ++ e ∧ ∀ c ∈ e, ¬ (c = '\x60' ∨ c = '~')
  := by
  use l.rtakeWhile fun c => c = '\r' || c = '\n'
  constructor
  · apply List.rdropWhile_append_rtakeWhile.symm
  · intro c hc
    have hend := List.mem_rtakeWhile_imp hc
    simp only [Bool.or_eq_true, decide_eq_true_eq] at hend
    rcases hend with rfl | rfl
    · decide
    · decide

/-- A run of a character stops at another one. -/
theorem takeWhile_replicate_append {c : Char} {t : Text} (h : t.head? ≠ some c) (n : Nat) :
  (List.replicate n c ++ t).takeWhile (· = c) = List.replicate n c
  := by
  rw [List.takeWhile_append_of_pos (by simp +contextual)]
  cases t with
  | nil => simp
  | cons d ds =>
    have hd : d ≠ c := by simpa using h
    simp [hd]

/-- No fence mark is blank. -/
theorem not_isBlank_of_mark {c : Char} (h : c = '\x60' ∨ c = '~') :
  isBlank c = false
  := by
  rcases h with rfl | rfl
  · decide
  · decide

/-- A fence is found in its line. -/
theorem ofLine?_of_isFence {f : Fence} {l : Text} (h : f.IsFence l) :
  ofLine? l = some f
  := by
  obtain ⟨m, n⟩ := f
  obtain ⟨hmark, hlength, b, rest, hbare, hb, hrest⟩ := h
  obtain ⟨e, hl, he⟩ := exists_eq_bareLine_append l
  dsimp only at hmark hlength hbare hrest
  obtain ⟨k, rfl⟩ := Nat.exists_eq_add_of_le' hlength
  have htail : (rest ++ e).head? ≠ some m := by
    cases rest with
    | cons d ds => simpa using hrest
    | nil =>
      intro hm
      apply he m (List.mem_of_mem_head? hm) hmark
  have hdrop : l.dropWhile isBlank = List.replicate (k + 3) m ++ (rest ++ e) := by
    rw [hl, hbare, List.append_assoc, List.append_assoc, List.dropWhile_append_of_pos hb,
      List.replicate_succ, List.cons_append, List.dropWhile_cons_of_neg]
    simp [not_isBlank_of_mark hmark]
  have hrun := takeWhile_replicate_append htail (k + 3)
  rw [List.replicate_succ, List.cons_append] at hdrop hrun
  rw [ofLine?, hdrop]
  simp [hrun, hmark]

/-- What is found in a line is its fence. -/
theorem isFence_of_ofLine? {f : Fence} {l : Text} (h : ofLine? l = some f) :
  f.IsFence l
  := by
  rw [ofLine?] at h
  split at h
  · cases h
  · next c cs hdrop =>
    obtain ⟨⟨hmark, hlength⟩, heq⟩ := Option.ite_none_right_eq_some.mp h
    obtain rfl := Option.some.inj heq
    have hrun : (c :: cs).takeWhile (· = c)
        = List.replicate ((c :: cs).takeWhile (· = c)).length c := by
      apply List.eq_replicate_of_mem
      intro d hd
      simpa using List.mem_takeWhile_imp hd
    refine ⟨hmark, hlength, ?_⟩
    dsimp only
    generalize ((c :: cs).takeWhile (· = c)).length = n at hlength hrun
    obtain ⟨k, rfl⟩ := Nat.exists_eq_add_of_le' hlength
    obtain ⟨e, hl, he⟩ := exists_eq_bareLine_append l
    have hcut : bareLine l ++ e
        = (l.takeWhile isBlank ++ List.replicate (k + 3) c) ++ (c :: cs).dropWhile (· = c) := by
      rw [← hl, List.append_assoc, ← hrun, List.takeWhile_append_dropWhile, ← hdrop,
        List.takeWhile_append_dropWhile]
    have hrest : ((c :: cs).dropWhile (· = c)).head? ≠ some c := by
      intro hc
      have hnot := List.head?_dropWhile_not (· = c) (c :: cs)
      rw [hc] at hnot
      simp at hnot
    rcases List.append_eq_append_iff.mp hcut with ⟨u, hrep, hu⟩ | ⟨u, hbare, hu⟩
    · have hnil : u = [] := by
        rcases u.eq_nil_or_concat with rfl | ⟨v, d, rfl⟩
        · rfl
        · rw [List.concat_eq_append, List.replicate_succ', ← List.append_assoc,
            ← List.append_assoc] at hrep
          obtain ⟨-, hd⟩ := List.append_inj' hrep rfl
          obtain rfl := (List.cons.inj hd).1
          have hc : c ∈ e := by
            rw [hu]
            simp
          exact absurd hmark (he c hc)
      rw [hnil, List.append_nil] at hrep
      use l.takeWhile isBlank, []
      refine ⟨?_, fun d hd => List.mem_takeWhile_imp hd, by simp⟩
      rw [← hrep, List.append_nil]
    · use l.takeWhile isBlank, u
      refine ⟨?_, fun d hd => List.mem_takeWhile_imp hd, ?_⟩
      · rw [hbare, List.append_assoc]
      · cases u with
        | nil => simp
        | cons d ds =>
          rw [hu] at hrest
          apply hrest

/-- What a fence is, as a form of the line. -/
theorem isFence_iff {f : Fence} {l : Text} :
  f.IsFence l ↔ ofLine? l = some f
  := ⟨ofLine?_of_isFence, isFence_of_ofLine?⟩

/-- A line closes a fence if it is found to. -/
theorem isClosedBy_iff {f : Fence} {l : Text} :
  f.IsClosedBy l ↔ f.closedBy l = true
  := by
  simp only [IsClosedBy, isFence_iff, closedBy, Option.any_eq_true, Bool.and_eq_true,
    decide_eq_true_eq]

/-- A line opens no fence if it has none. -/
theorem opens_eq_false_iff {l : Text} :
  opens l = false ↔ ∀ f : Fence, ¬ f.IsFence l
  := by
  simp only [isFence_iff, opens, Option.isSome_eq_false_iff, Option.isNone_iff_eq_none,
    Option.eq_none_iff_forall_ne_some]

end Fence

/-! ### Decompositions -/

/-- Segments that a text may be cut into: whole lines, prose without fences, and code from a
fence to the first line that closes it. -/
structure IsDecomposition (t : Text) (ss : List Segment) : Prop where
  /-- The segments concatenate to the text. -/
  flatMap_content : ss.flatMap Segment.content = t
  /-- No segment is empty. -/
  ne_nil : ∀ s ∈ ss, s.content ≠ []
  /-- Each segment but the last one ends with a line feed. -/
  cut : CutAtLines (ss.map Segment.content)
  /-- Prose holds no fence. -/
  prose : ∀ s ∈ ss, s.kind = .prose → ∀ l ∈ lines s.content, ∀ f : Fence, ¬ f.IsFence l
  /-- Of two neighbouring segments one is code. -/
  alternate : ss.IsChain fun s s' => s.kind = .code ∨ s'.kind = .code
  /-- Code starts at a fence, and no line before its last one closes it. -/
  code : ∀ s ∈ ss, s.kind = .code → ∃ f : Fence, f.Opens (lines s.content)
  /-- Each code segment but the last segment is closed by its last line. -/
  closed : ∀ s ∈ ss.dropLast, s.kind = .code → ∃ f : Fence, f.Encloses (lines s.content)

namespace Segment

/-- The segments of some lines. -/
def ofAllLines (ls : List Text) : List Segment :=
  consProse (ofLines none ls).1 (ofLines none ls).2

/-- Lines without fences are prose in front of the other lines. -/
theorem ofLines_append_of_not_isFence
    {q : List Text} (hq : ∀ l ∈ q, ∀ f : Fence, ¬ f.IsFence l) (ls : List Text) :
  ofLines none (q ++ ls) = (q.flatten ++ (ofLines none ls).1, (ofLines none ls).2)
  := by
  induction q with
  | nil => rfl
  | cons l q ih =>
    have hl := Fence.opens_eq_false_iff.mpr (hq l List.mem_cons_self)
    rw [List.cons_append, ofLines_of_not_opens hl,
      ih fun l' hl' => hq l' (List.mem_cons_of_mem l hl'), List.flatten_cons, List.append_assoc]

/-- Lines that do not close the code are code in front of the other lines. -/
theorem ofLines_append_of_not_isClosedBy
    {f : Fence} {q : List Text} (hq : ∀ l ∈ q, ¬ f.IsClosedBy l) (ls : List Text) :
  ofLines (some f) (q ++ ls)
    = (q.flatten ++ (ofLines (some f) ls).1, (ofLines (some f) ls).2)
  := by
  induction q with
  | nil => rfl
  | cons l q ih =>
    have hl : f.closedBy l = false := by
      simpa [Fence.isClosedBy_iff] using hq l List.mem_cons_self
    rw [List.cons_append, ofLines_of_not_closedBy hl,
      ih fun l' hl' => hq l' (List.mem_cons_of_mem l hl'), List.flatten_cons, List.append_assoc]

/-- Lines of closed code are a segment in front of the other lines. -/
theorem ofLines_append_of_encloses
    {f : Fence} {q : List Text} (hq : f.Encloses q) (ls : List Text) :
  ofLines none (q ++ ls) = ([], ⟨.code, q.flatten⟩ :: ofAllLines ls)
  := by
  obtain ⟨⟨l, rest, rfl, hl, hrest⟩, l', hlast, hclosed⟩ := hq
  rw [List.tail_cons] at hlast
  obtain ⟨u, rfl⟩ := List.getLast?_eq_some_iff.mp hlast
  rw [List.dropLast_concat] at hrest
  rw [List.cons_append, List.append_assoc, ofLines_of_fence (Fence.isFence_iff.mp hl),
    ofLines_append_of_not_isClosedBy hrest, List.cons_append, List.nil_append,
    ofLines_of_closedBy (Fence.isClosedBy_iff.mp hclosed)]
  simp [ofAllLines]

/-- Lines of code at the end are the last segment. -/
theorem ofLines_of_opens {f : Fence} {q : List Text} (hq : f.Opens q) :
  ofLines none q = ([], [⟨.code, q.flatten⟩])
  := by
  obtain ⟨l, rest, rfl, hl, hrest⟩ := hq
  rw [ofLines_of_fence (Fence.isFence_iff.mp hl)]
  rcases rest.eq_nil_or_concat with rfl | ⟨u, l', rfl⟩
  · simp [ofLines_nil]
  · rw [List.concat_eq_append, List.dropLast_concat] at hrest
    rw [List.concat_eq_append, ofLines_append_of_not_isClosedBy hrest]
    cases hclosed : f.closedBy l' with
    | true => simp [ofLines_of_closedBy hclosed, ofLines_nil, consProse]
    | false => simp [ofLines_of_not_closedBy hclosed, ofLines_nil]

/-- Prose in front of segments is the only way to get prose in front. -/
theorem eq_nil_of_consProse_eq
    {t : Text} {ss ss' : List Segment} (h : consProse t ss = ss')
    (hcode : ∀ s ∈ ss'.head?, s.kind = .code) :
  t = [] ∧ ss = ss'
  := by
  rw [consProse] at h
  split at h
  · next ht => exact ⟨List.isEmpty_iff.mp ht, h⟩
  · rw [← h] at hcode
    cases hcode ⟨.prose, t⟩ rfl

end Segment

namespace IsDecomposition

open Segment

/-- The empty document has no segments. -/
theorem nil :
  IsDecomposition [] []
  where
  flatMap_content := rfl
  ne_nil := by simp
  cut := trivial
  prose := by simp
  alternate := .nil
  code := by simp
  closed := by simp

variable {s : Segment} {ss : List Segment}

/-- A segment before the last one stays one when another is put in front. -/
theorem mem_dropLast_cons {s' : Segment} (h : s' ∈ ss.dropLast) :
  s' ∈ (s :: ss).dropLast
  := by
  have hne : ss ≠ [] := by
    rintro rfl
    cases h
  rw [List.dropLast_cons_of_ne_nil hne]
  apply List.mem_cons_of_mem s h

/-- All segments but the first decompose the rest. -/
theorem tail {t : Text} (h : IsDecomposition t (s :: ss)) :
  IsDecomposition (ss.flatMap content) ss
  where
  flatMap_content := rfl
  ne_nil s' hs' := h.ne_nil s' (List.mem_cons_of_mem s hs')
  cut := h.cut.2
  prose s' hs' := h.prose s' (List.mem_cons_of_mem s hs')
  alternate := h.alternate.tail
  code s' hs' := h.code s' (List.mem_cons_of_mem s hs')
  closed s' hs' := h.closed s' (mem_dropLast_cons hs')

/-- After prose comes code. -/
theorem head_code {t : Text} (h : IsDecomposition t (s :: ss)) (hs : s.kind = .prose) :
  ∀ s' ∈ ss.head?, s'.kind = .code
  := by
  cases ss with
  | nil => simp
  | cons s' ss =>
    intro s' hs'
    obtain rfl := Option.some.inj hs'
    obtain hcode | hcode := (List.isChain_cons_cons.mp h.alternate).1
    · rw [hs] at hcode
      cases hcode
    · apply hcode

/-- The lines of the segments of a decomposition are cut into these segments again. -/
theorem ofAllLines_eq (h : IsDecomposition (ss.flatMap content) ss) :
  ofAllLines (ss.flatMap fun s => lines s.content) = ss
  := by
  induction ss with
  | nil => rfl
  | cons s ss ih =>
    have ih := ih h.tail
    obtain ⟨kind, t⟩ := s
    rw [List.flatMap_cons]
    dsimp only
    cases kind with
    | prose =>
      have hfree := h.prose ⟨.prose, t⟩ List.mem_cons_self rfl
      have hne : t ≠ [] := h.ne_nil ⟨.prose, t⟩ List.mem_cons_self
      obtain ⟨hnil, hrest⟩ := eq_nil_of_consProse_eq ih (h.head_code rfl)
      rw [ofAllLines, ofLines_append_of_not_isFence hfree, hnil, hrest, flatten_lines,
        List.append_nil, consProse, if_neg (by simpa using hne)]
    | code =>
      by_cases hss : ss = []
      · obtain ⟨f, hf⟩ := h.code ⟨.code, t⟩ List.mem_cons_self rfl
        rw [hss, List.flatMap_nil, List.append_nil, ofAllLines, ofLines_of_opens hf,
          flatten_lines]
        rfl
      · obtain ⟨f, hf⟩ := h.closed ⟨.code, t⟩
          (by rw [List.dropLast_cons_of_ne_nil hss]; apply List.mem_cons_self) rfl
        rw [ofAllLines, ofLines_append_of_encloses hf, ih, flatten_lines]
        rfl

/-- The lines of the document are those of its segments. -/
theorem lines_eq {t : Text} (h : IsDecomposition t ss) :
  lines t = ss.flatMap fun s => lines s.content
  := by
  rw [← h.flatMap_content]
  apply lines_flatMap h.cut

/-- There is no other decomposition than the segments. -/
theorem eq_segments {t : Text} (h : IsDecomposition t ss) :
  ss = segments t
  := by
  have hss : IsDecomposition (ss.flatMap content) ss := by
    rw [h.flatMap_content]
    apply h
  rw [segments_eq, h.lines_eq]
  apply hss.ofAllLines_eq.symm

/-- Code in front of a decomposition. -/
theorem cons_code
    {t : Text} {f : Fence} (h : IsDecomposition (ss.flatMap content) ss)
    (hcut : CutAtLines (t :: ss.map content)) (hopens : f.Opens (lines t))
    (hcloses : ss ≠ [] → ∃ l ∈ (lines t).tail.getLast?, f.IsClosedBy l) :
  IsDecomposition (t ++ ss.flatMap content) (⟨.code, t⟩ :: ss)
  where
  flatMap_content := rfl
  ne_nil := by
    rw [List.forall_mem_cons]
    refine ⟨?_, h.ne_nil⟩
    rintro rfl
    obtain ⟨l, rest, heq, -⟩ := hopens
    cases heq
  cut := hcut
  prose := by
    rw [List.forall_mem_cons]
    exact ⟨fun hkind => (by cases hkind), h.prose⟩
  alternate := List.isChain_cons.mpr ⟨fun _ _ => .inl rfl, h.alternate⟩
  code := by
    rw [List.forall_mem_cons]
    exact ⟨fun _ => ⟨f, hopens⟩, h.code⟩
  closed := by
    by_cases hss : ss = []
    · simp [hss]
    · rw [List.dropLast_cons_of_ne_nil hss, List.forall_mem_cons]
      exact ⟨fun _ => ⟨f, hopens, hcloses hss⟩, h.closed⟩

/-- Prose in front of a decomposition that starts with code. -/
theorem consProse
    {t : Text} (h : IsDecomposition (ss.flatMap content) ss)
    (hcut : CutAtLines (t :: ss.map content))
    (hfree : ∀ l ∈ lines t, ∀ f : Fence, ¬ f.IsFence l)
    (hcode : ∀ s ∈ ss.head?, s.kind = .code) :
  IsDecomposition (t ++ ss.flatMap content) (consProse t ss)
  := by
  cases t with
  | nil => exact h
  | cons c cs =>
    exact {
      flatMap_content := rfl
      ne_nil := by
        rw [Segment.consProse, if_neg (by simp), List.forall_mem_cons]
        exact ⟨List.cons_ne_nil c cs, h.ne_nil⟩
      cut := hcut
      prose := by
        rw [Segment.consProse, if_neg (by simp), List.forall_mem_cons]
        exact ⟨fun _ => hfree, h.prose⟩
      alternate := List.isChain_cons.mpr ⟨fun s hs => .inr (hcode s hs), h.alternate⟩
      code := by
        rw [Segment.consProse, if_neg (by simp), List.forall_mem_cons]
        exact ⟨fun hkind => (by cases hkind), h.code⟩
      closed := by
        by_cases hss : ss = []
        · simp [hss, Segment.consProse]
        · rw [Segment.consProse, if_neg (by simp), List.dropLast_cons_of_ne_nil hss,
            List.forall_mem_cons]
          exact ⟨fun hkind => (by cases hkind), h.closed⟩ }

end IsDecomposition

/-! ### The segments of a text -/

namespace Segment

/-- What may stand before the segments of a decomposition: prose without fences, or code that
has been opened by a fence. -/
def IsFront : Option Fence → Text → List Segment → Prop
  | none, t, ss =>
    (∀ l ∈ lines t, ∀ f : Fence, ¬ f.IsFence l) ∧ ∀ s ∈ ss.head?, s.kind = .code
  | some f, t, ss =>
    (∀ l ∈ (lines t).dropLast, ¬ f.IsClosedBy l)
      ∧ (ss ≠ [] → ∃ l ∈ (lines t).getLast?, f.IsClosedBy l)

/-- Another line of code in front. -/
theorem IsFront.cons_line
    {f : Fence} {l t u : Text} {ss : List Segment} (h : IsFront (some f) t ss)
    (hl : ¬ f.IsClosedBy l) (hlines : lines u = l :: lines t) :
  IsFront (some f) u ss
  := by
  obtain ⟨hopen, hclosed⟩ := h
  rw [IsFront, hlines]
  constructor
  · by_cases hnil : lines t = []
    · simp [hnil]
    · rw [List.dropLast_cons_of_ne_nil hnil, List.forall_mem_cons]
      exact ⟨hl, hopen⟩
  · intro hss
    obtain ⟨l', hlast, hl'⟩ := hclosed hss
    use l'
    constructor
    · rw [List.getLast?_cons, hlast]
      rfl
    · apply hl'

/-- The segments of lines are a decomposition, and so is what stands before them. -/
theorem isDecomposition_ofLines (opened : Option Fence) {ls : List Text} (h : IsLines ls) :
  IsDecomposition ((ofLines opened ls).2.flatMap content) (ofLines opened ls).2
    ∧ IsFront opened (ofLines opened ls).1 (ofLines opened ls).2
  := by
  revert h
  apply ofLines_induction fun opened ls r => IsLines ls →
    IsDecomposition (r.2.flatMap content) r.2 ∧ IsFront opened r.1 r.2
  · intro opened _
    refine ⟨.nil, ?_⟩
    cases opened with
    | none => simp [IsFront, lines]
    | some f => simp [IsFront, lines]
  · intro l ls hl ih h
    obtain ⟨hss, hfree, hcode⟩ := ih h.tail
    refine ⟨hss, ?_, hcode⟩
    rw [lines_append_ofLines h, List.forall_mem_cons]
    exact ⟨Fence.opens_eq_false_iff.mp hl, hfree⟩
  · intro f l ls hl ih h
    obtain ⟨hss, hopen, hclosed⟩ := ih h.tail
    have hcut := cutAtLines_ofLines none h
    rw [ofLines_of_fence hl] at hcut
    constructor
    · apply hss.cons_code (f := f) hcut.2
      · rw [lines_append_ofLines h]
        exact ⟨l, _, rfl, Fence.isFence_iff.mpr hl, hopen⟩
      · rw [lines_append_ofLines h]
        apply hclosed
    · simp [IsFront, lines]
  · intro f l ls hl ih h
    obtain ⟨hss, hfree, hcode⟩ := ih h.tail
    constructor
    · dsimp only
      rw [flatMap_content_consProse]
      apply hss.consProse (cutAtLines_ofLines none h.tail) hfree hcode
    · have hline := h.line l List.mem_cons_self
      simp only [IsFront, hline]
      exact ⟨by simp, fun _ => ⟨l, rfl, Fence.isClosedBy_iff.mpr hl⟩⟩
  · intro f l ls hl ih h
    obtain ⟨hss, hfront⟩ := ih h.tail
    refine ⟨hss, ?_⟩
    apply hfront.cons_line _ (lines_append_ofLines h _)
    simpa [Fence.isClosedBy_iff] using hl

end Segment

/-- The segments of a document decompose it. -/
theorem isDecomposition_segments (t : Text) :
  IsDecomposition t (segments t)
  := by
  obtain ⟨hss, hfree, hcode⟩ := Segment.isDecomposition_ofLines none (isLines_lines t)
  have h := hss.consProse (Segment.cutAtLines_ofLines none (isLines_lines t)) hfree hcode
  rw [Segment.flatMap_content_ofLines, flatten_lines] at h
  apply h

/-- The segments of a text are its only decomposition. -/
theorem isDecomposition_iff {t : Text} {ss : List Segment} :
  IsDecomposition t ss ↔ ss = segments t
  := by
  constructor
  · apply IsDecomposition.eq_segments
  · rintro rfl
    apply isDecomposition_segments

end DollarMath
