import DollarMath.Fence
import Mathlib.Algebra.Ring.Nat
import Mathlib.Data.List.Basic

/-!
# Segments of a rewritten text

Code starts and stops at fences, and all of them lie in code segments.  So when the prose of
a text is rewritten segment by segment, the code stays what it was as long as no fence comes
up in the new prose, and only then.
-/

namespace DollarMath

/-- The text starts with a fence, after blank characters. -/
def Fence.opens (t : Text) : Bool :=
  (Fence.ofLine? t).isSome

/-- The number of lines of a text that are fences. -/
def fences (t : Text) : Nat :=
  (lines t).countP Fence.opens

/-- The contents of the code segments among some segments. -/
def Segment.codes (ss : List Segment) : List Text :=
  (ss.filter fun s => s.kind = .code).map content

/-- The contents of the code segments of a text. -/
def codes (t : Text) : List Text :=
  Segment.codes (segments t)

/-! ### Cuts at line ends -/

/-- A text that is empty or ends with a line feed. -/
def EndsLine (t : Text) : Prop :=
  ∀ c ∈ t.getLast?, c = '\n'

/-- Texts of which each but the last one ends with a line feed. -/
def CutAtLines : List Text → Prop
  | [] => True
  | s :: ts => (ts ≠ [] → EndsLine s) ∧ CutAtLines ts

theorem endsLine_nil :
  EndsLine []
  := by
  intro c hc
  cases hc

/-- The rest of a text ends with a line end if the text does. -/
theorem endsLine_cons {c : Char} {t : Text} (h : EndsLine (c :: t)) :
  EndsLine t
  := by
  cases t with
  | nil => exact endsLine_nil
  | cons d ds => simpa [EndsLine] using h

/-- The end of two texts is that of the second one, unless it is empty. -/
theorem EndsLine.append {s t : Text} (ht : EndsLine t) (hs : t = [] → EndsLine s) :
  EndsLine (s ++ t)
  := by
  cases t with
  | nil =>
    rw [List.append_nil]
    apply hs rfl
  | cons d ds =>
    rw [EndsLine, List.getLast?_append_of_ne_nil s (List.cons_ne_nil d ds)]
    apply ht

/-- A second text that is not empty has the end of both. -/
theorem EndsLine.of_append {s t : Text} (h : EndsLine (s ++ t)) (ht : t ≠ []) :
  EndsLine t
  := by
  rw [EndsLine, List.getLast?_append_of_ne_nil s ht] at h
  apply h

/-- The lines of two texts, if the first one ends with a line end. -/
theorem lines_append {s : Text} (hs : EndsLine s) (t : Text) :
  lines (s ++ t) = lines s ++ lines t
  := by
  induction s with
  | nil => rfl
  | cons c cs ih =>
    have ih := ih (endsLine_cons hs)
    rw [List.cons_append, lines, lines, ih]
    split
    · rfl
    · next hc =>
      cases hl : lines cs with
      | nil =>
        have hcs : cs = [] := by rw [← flatten_lines cs, hl, List.flatten_nil]
        rw [hcs] at hs
        exact absurd (hs c rfl) hc
      | cons l ls => rfl

/-- The lines of a text that is cut at line ends are those of its parts. -/
theorem lines_flatten {ts : List Text} (h : CutAtLines ts) :
  lines ts.flatten = ts.flatMap lines
  := by
  induction ts with
  | nil => rfl
  | cons s ts ih =>
    rw [List.flatten_cons, List.flatMap_cons, ← ih h.2]
    by_cases hts : ts = []
    · rw [hts, List.flatten_nil, List.append_nil]
      apply (List.append_nil _).symm
    · apply lines_append (h.1 hts) _

/-- The lines of texts that are cut at line ends. -/
theorem lines_flatMap
    {α : Type} {f : α → Text} {as : List α} (h : CutAtLines (as.map f)) :
  lines (as.flatMap f) = as.flatMap fun a => lines (f a)
  := by
  rw [List.flatMap_def, lines_flatten h, List.flatMap_map]

/-- Their fences add up. -/
theorem fences_flatten {ts : List Text} (h : CutAtLines ts) :
  fences ts.flatten = (ts.map fences).sum
  := by
  rw [fences, lines_flatten h, List.countP_flatMap]
  rfl

/-- The lines of some text: each is a line, and each but the last one ends with a line
feed. -/
structure IsLines (ls : List Text) : Prop where
  /-- Each is a line. -/
  line : ∀ l ∈ ls, lines l = [l]
  /-- Each but the last one ends with a line feed. -/
  cut : CutAtLines ls

/-- All lines but the first are lines. -/
theorem IsLines.tail {l : Text} {ls : List Text} (h : IsLines (l :: ls)) :
  IsLines ls
  := ⟨fun l' hl' => h.line l' (List.mem_cons_of_mem l hl'), h.cut.2⟩

/-- The lines of a text are lines. -/
theorem isLines_lines (t : Text) :
  IsLines (lines t)
  := by
  induction t with
  | nil =>
    constructor
    · simp [lines]
    · apply trivial
  | cons c cs ih =>
    rw [lines]
    split
    · constructor
      · intro l hl
        rcases List.mem_cons.mp hl with rfl | hl
        · rfl
        · apply ih.line l hl
      · refine ⟨fun _ => ?_, ih.cut⟩
        simp [EndsLine]
    · next hc =>
      have hline : ∀ l, lines l = [l] → lines (c :: l) = [c :: l] := by
        intro l hl
        rw [lines, if_neg hc, hl]
      cases hl : lines cs with
      | nil =>
        constructor
        · intro l hl
          obtain rfl := List.mem_singleton.mp hl
          rw [lines, if_neg hc]
          rfl
        · exact ⟨fun h => absurd rfl h, trivial⟩
      | cons l ls =>
        rw [hl] at ih
        constructor
        · intro l' hl'
          rcases List.mem_cons.mp hl' with rfl | hl'
          · apply hline l (ih.line l List.mem_cons_self)
          · apply ih.line l' (List.mem_cons_of_mem l hl')
        · refine ⟨fun hls => ?_, ih.cut.2⟩
          apply EndsLine.append (s := [c]) (ih.cut.1 hls)
          rintro rfl
          cases ih.line [] List.mem_cons_self

/-! ### The segments of lines -/

namespace Segment

theorem ofLines_nil (opened : Option Fence) :
  ofLines opened [] = ([], [])
  := rfl

/-- Outside code, a line that is no fence is prose. -/
theorem ofLines_of_not_opens {l : Text} (h : Fence.opens l = false) (ls : List Text) :
  ofLines none (l :: ls) = (l ++ (ofLines none ls).1, (ofLines none ls).2)
  := by
  have h : Fence.ofLine? l = none := by simpa [Fence.opens] using h
  simp [ofLines, h]

/-- Outside code, a fence opens code. -/
theorem ofLines_of_fence {l : Text} {f : Fence} (h : Fence.ofLine? l = some f) (ls : List Text) :
  ofLines none (l :: ls) = ([], ⟨.code, l ++ (ofLines (some f) ls).1⟩ :: (ofLines (some f) ls).2)
  := by
  simp [ofLines, h]

/-- Within code, a closing fence is the last line. -/
theorem ofLines_of_closedBy {l : Text} {f : Fence} (h : f.closedBy l = true) (ls : List Text) :
  ofLines (some f) (l :: ls) = (l, consProse (ofLines none ls).1 (ofLines none ls).2)
  := by
  simp [ofLines, h]

/-- Within code, any other line is code. -/
theorem ofLines_of_not_closedBy {l : Text} {f : Fence} (h : f.closedBy l = false)
    (ls : List Text) :
  ofLines (some f) (l :: ls) = (l ++ (ofLines (some f) ls).1, (ofLines (some f) ls).2)
  := by
  simp [ofLines, h]

/-- A property of what stands before the first segment, and of the segments, holds of lines if
it is kept by one line more. -/
theorem ofLines_induction
    (P : Option Fence → List Text → Text × List Segment → Prop)
    (nil : ∀ opened, P opened [] ([], []))
    (prose : ∀ l ls, Fence.opens l = false → P none ls (ofLines none ls) →
      P none (l :: ls) (l ++ (ofLines none ls).1, (ofLines none ls).2))
    (fence : ∀ f l ls, Fence.ofLine? l = some f → P (some f) ls (ofLines (some f) ls) →
      P none (l :: ls) ([], ⟨.code, l ++ (ofLines (some f) ls).1⟩ :: (ofLines (some f) ls).2))
    (closed : ∀ f l ls, f.closedBy l = true → P none ls (ofLines none ls) →
      P (some f) (l :: ls) (l, consProse (ofLines none ls).1 (ofLines none ls).2))
    (code : ∀ f l ls, f.closedBy l = false → P (some f) ls (ofLines (some f) ls) →
      P (some f) (l :: ls) (l ++ (ofLines (some f) ls).1, (ofLines (some f) ls).2))
    (opened : Option Fence) (ls : List Text) :
  P opened ls (ofLines opened ls)
  := by
  induction ls generalizing opened with
  | nil => exact nil opened
  | cons l ls ih =>
    cases opened with
    | none =>
      cases hf : Fence.ofLine? l with
      | none =>
        have hopens : Fence.opens l = false := by simp [Fence.opens, hf]
        rw [ofLines_of_not_opens hopens]
        apply prose l ls hopens (ih none)
      | some f =>
        rw [ofLines_of_fence hf]
        apply fence f l ls hf (ih (some f))
    | some f =>
      cases hclosed : f.closedBy l with
      | true =>
        rw [ofLines_of_closedBy hclosed]
        apply closed f l ls hclosed (ih none)
      | false =>
        rw [ofLines_of_not_closedBy hclosed]
        apply code f l ls hclosed (ih (some f))

/-- A line before the lines of a segment is a line of the segment. -/
theorem lines_append_ofLines {l : Text} {ls : List Text} (h : IsLines (l :: ls))
    (opened : Option Fence) :
  lines (l ++ (ofLines opened ls).1) = l :: lines (ofLines opened ls).1
  := by
  have hl := h.line l List.mem_cons_self
  by_cases hls : ls = []
  · rw [hls, ofLines_nil, List.append_nil]
    apply hl
  · rw [lines_append (h.cut.1 hls), hl]
    rfl

/-- A line in front of segments that are cut at line ends. -/
theorem cutAtLines_append_ofLines {l : Text} {ls : List Text} (h : IsLines (l :: ls))
    {opened : Option Fence}
    (hcut : CutAtLines ((ofLines opened ls).1 :: (ofLines opened ls).2.map content)) :
  CutAtLines ((l ++ (ofLines opened ls).1) :: (ofLines opened ls).2.map content)
  := by
  refine ⟨fun hne => ?_, hcut.2⟩
  apply EndsLine.append (hcut.1 hne)
  intro _
  apply h.cut.1
  rintro rfl
  apply hne rfl

/-- Each segment but the last one ends with a line feed. -/
theorem cutAtLines_ofLines (opened : Option Fence) {ls : List Text} (h : IsLines ls) :
  CutAtLines ((ofLines opened ls).1 :: (ofLines opened ls).2.map content)
  := by
  revert h
  apply ofLines_induction fun _ ls r => IsLines ls → CutAtLines (r.1 :: r.2.map content)
  · intro opened _
    exact ⟨fun hne => absurd rfl hne, trivial⟩
  · intro l ls _ ih h
    apply cutAtLines_append_ofLines h (ih h.tail)
  · intro f l ls _ ih h
    refine ⟨fun _ => endsLine_nil, ?_⟩
    apply cutAtLines_append_ofLines h (ih h.tail)
  · intro f l ls _ ih h
    have ih := ih h.tail
    constructor
    · intro hne
      apply h.cut.1
      rintro rfl
      apply hne rfl
    · rw [consProse]
      split
      · apply ih.2
      · apply ih
  · intro f l ls _ ih h
    apply cutAtLines_append_ofLines h (ih h.tail)

/-- Outside code, the current segment and all prose segments hold no fence. -/
theorem fences_prose_ofLines (opened : Option Fence) {ls : List Text} (h : IsLines ls) :
  (opened = none → fences (ofLines opened ls).1 = 0)
    ∧ ∀ s ∈ (ofLines opened ls).2, s.kind = .prose → fences s.content = 0
  := by
  revert h
  apply ofLines_induction fun opened ls r => IsLines ls →
    (opened = none → fences r.1 = 0) ∧ ∀ s ∈ r.2, s.kind = .prose → fences s.content = 0
  · intro opened _
    exact ⟨fun _ => rfl, by simp⟩
  · intro l ls hl ih h
    obtain ⟨hfree, hsegments⟩ := ih h.tail
    refine ⟨fun _ => ?_, hsegments⟩
    rw [fences, lines_append_ofLines h, List.countP_cons_of_neg (by simp [hl])]
    apply hfree rfl
  · intro f l ls _ ih h
    refine ⟨fun _ => rfl, ?_⟩
    rw [List.forall_mem_cons]
    exact ⟨fun hkind => (by cases hkind), (ih h.tail).2⟩
  · intro f l ls _ ih h
    obtain ⟨hfree, hsegments⟩ := ih h.tail
    refine ⟨fun hopened => (by cases hopened), ?_⟩
    rw [consProse]
    split
    · apply hsegments
    · rw [List.forall_mem_cons]
      exact ⟨fun _ => hfree rfl, hsegments⟩
  · intro f l ls _ ih h
    exact ⟨fun hopened => (by cases hopened), (ih h.tail).2⟩

/-- Prose lines in front do not change the segments. -/
theorem ofLines_append_of_not_opens {q : List Text} (hq : ∀ l ∈ q, Fence.opens l = false)
    (ls : List Text) :
  (ofLines none (q ++ ls)).2 = (ofLines none ls).2
  := by
  induction q with
  | nil => rfl
  | cons l q ih =>
    rw [List.cons_append, ofLines_of_not_opens (hq l List.mem_cons_self)]
    apply ih fun l' hl' => hq l' (List.mem_cons_of_mem l hl')

/-- Prose in front adds no code. -/
@[simp]
theorem codes_consProse (t : Text) (ss : List Segment) :
  codes (consProse t ss) = codes ss
  := by
  cases t with
  | nil => rfl
  | cons c cs => rfl

/-- It leaves the segments behind it. -/
theorem mem_consProse {s : Segment} {ss : List Segment} (t : Text) (h : s ∈ ss) :
  s ∈ consProse t ss
  := by
  rw [consProse]
  split
  · apply h
  · apply List.mem_cons_of_mem _ h

@[simp]
theorem codes_cons_code (t : Text) (ss : List Segment) :
  codes (⟨.code, t⟩ :: ss) = t :: codes ss
  := rfl

@[simp]
theorem codes_cons_prose (t : Text) (ss : List Segment) :
  codes (⟨.prose, t⟩ :: ss) = codes ss
  := rfl

/-- The contents of the code segments, with the rest of the current one if it is code. -/
def codesAfter : Option Fence → Text × List Segment → List Text
  | none, r => codes r.2
  | some _, r => r.1 :: codes r.2

end Segment

/-- A text without fences has no line that opens one. -/
theorem not_opens_of_fences {t : Text} (h : fences t = 0) :
  ∀ l ∈ lines t, Fence.opens l = false
  := by
  intro l hl
  simpa using List.countP_eq_zero.mp h l hl

/-- The segments of a text are those of its lines, with the prose in front of them. -/
theorem segments_eq (t : Text) :
  segments t
    = Segment.consProse (Segment.ofLines none (lines t)).1 (Segment.ofLines none (lines t)).2
  := rfl

/-- Its code is that of its lines. -/
theorem codes_eq (t : Text) :
  codes t = Segment.codes (Segment.ofLines none (lines t)).2
  := by
  rw [codes, segments_eq, Segment.codes_consProse]

/-- The segments of a text are cut at line ends. -/
theorem cutAtLines_segments (t : Text) :
  CutAtLines ((segments t).map Segment.content)
  := by
  have h := Segment.cutAtLines_ofLines none (isLines_lines t)
  rw [segments_eq, Segment.consProse]
  split
  · apply h.2
  · apply h

/-- Prose has no fences. -/
theorem fences_prose {t : Text} :
  ∀ s ∈ segments t, s.kind = .prose → fences s.content = 0
  := by
  obtain ⟨hfree, hsegments⟩ := Segment.fences_prose_ofLines none (isLines_lines t)
  rw [segments_eq, Segment.consProse]
  split
  · apply hsegments
  · rw [List.forall_mem_cons]
    exact ⟨fun _ => hfree rfl, hsegments⟩

/-! ### Rewritten prose -/

section Rewritten

variable {h : Segment → Text}

/-- New prose without fences, in front of other segments, does not change the segments. -/
theorem Segment.ofLines_rewritten_consProse {t : Text} {ss : List Segment}
    (hfree : ∀ s ∈ consProse t ss, s.kind = .prose → fences (h s) = 0) :
  (ofLines none ((consProse t ss).flatMap fun s => lines (h s))).2
    = (ofLines none (ss.flatMap fun s => lines (h s))).2
  := by
  rw [consProse] at hfree ⊢
  split
  · rfl
  · next hne =>
    rw [if_neg hne] at hfree
    rw [List.flatMap_cons, ofLines_append_of_not_opens]
    apply not_opens_of_fences
    apply hfree ⟨.prose, t⟩ List.mem_cons_self rfl

variable (hcode : ∀ s, s.kind = .code → h s = s.content)
include hcode

/-- Code stays in its place as long as the new prose holds no fence. -/
theorem Segment.codesAfter_rewritten (opened : Option Fence) {ls : List Text} (hls : IsLines ls)
    (hfree : ∀ s ∈ (ofLines opened ls).2, s.kind = .prose → fences (h s) = 0) :
  codesAfter opened (ofLines opened
      (lines (ofLines opened ls).1 ++ (ofLines opened ls).2.flatMap fun s => lines (h s)))
    = codesAfter opened (ofLines opened ls)
  := by
  revert hls hfree
  apply ofLines_induction fun opened ls r => IsLines ls →
    (∀ s ∈ r.2, s.kind = .prose → fences (h s) = 0) →
    codesAfter opened (ofLines opened (lines r.1 ++ r.2.flatMap fun s => lines (h s)))
      = codesAfter opened r
  · intro opened _ _
    rfl
  · intro l ls hl ih hls hfree
    rw [lines_append_ofLines hls, List.cons_append, ofLines_of_not_opens hl]
    apply ih hls.tail hfree
  · intro f l ls hl ih hls hfree
    have ih := ih hls.tail fun s hs => hfree s (List.mem_cons_of_mem _ hs)
    obtain ⟨hcurrent, hcodes⟩ := List.cons.inj ih
    dsimp only
    rw [List.flatMap_cons, hcode _ rfl, lines_append_ofLines hls, List.cons_append]
    change codesAfter none (ofLines none (l :: _)) = _
    rw [ofLines_of_fence hl, hcurrent, codesAfter, codesAfter, codes_cons_code, codes_cons_code,
      hcodes]
  · intro f l ls hl ih hls hfree
    have ih := ih hls.tail fun s hs => hfree s (mem_consProse _ hs)
    have hold := not_opens_of_fences ((fences_prose_ofLines none hls.tail).1 rfl)
    rw [codesAfter, ofLines_append_of_not_opens hold] at ih
    dsimp only
    rw [hls.line l List.mem_cons_self, List.cons_append, List.nil_append,
      ofLines_of_closedBy hl, codesAfter, codesAfter, codes_consProse, codes_consProse,
      ofLines_rewritten_consProse hfree, ih]
    rfl
  · intro f l ls hl ih hls hfree
    have ih := ih hls.tail hfree
    obtain ⟨hcurrent, hcodes⟩ := List.cons.inj ih
    dsimp only
    rw [lines_append_ofLines hls, List.cons_append, ofLines_of_not_closedBy hl, codesAfter,
      codesAfter, hcurrent, hcodes]

/-- If the new prose holds no fence, the text has the code that it had. -/
theorem codes_flatMap_of_fences {t : Text}
    (hlines : lines ((segments t).flatMap h) = (segments t).flatMap fun s => lines (h s))
    (hfree : ∀ s ∈ segments t, s.kind = .prose → fences (h s) = 0) :
  codes ((segments t).flatMap h) = codes t
  := by
  have hold := not_opens_of_fences
    ((Segment.fences_prose_ofLines none (isLines_lines t)).1 rfl)
  rw [segments_eq] at hlines hfree ⊢
  have hrewritten := Segment.codesAfter_rewritten hcode none (isLines_lines t)
    fun s hs => hfree s (Segment.mem_consProse _ hs)
  rw [Segment.codesAfter, Segment.codesAfter, Segment.ofLines_append_of_not_opens hold]
    at hrewritten
  rw [codes_eq, hlines, Segment.ofLines_rewritten_consProse hfree, hrewritten, codes_eq]

/-- The fences of a text with rewritten prose are those of its code segments and of its new
prose. -/
theorem sum_fences_rewritten (ss : List Segment) :
  (ss.map fun s => fences (h s)).sum
    = ((Segment.codes ss).map fences).sum
      + ((ss.filter fun s => s.kind = .prose).map fun s => fences (h s)).sum
  := by
  induction ss with
  | nil => rfl
  | cons s ss ih =>
    obtain ⟨kind, t⟩ := s
    cases kind with
    | code =>
      rw [Segment.codes_cons_code, List.map_cons, List.sum_cons, List.map_cons, List.sum_cons,
        ih, hcode _ rfl, List.filter_cons_of_neg (by simp), Nat.add_assoc]
    | prose =>
      rw [Segment.codes_cons_prose, List.map_cons, List.sum_cons, ih,
        List.filter_cons_of_pos (by simp), List.map_cons, List.sum_cons, Nat.add_left_comm]

end Rewritten

/-- The fences of a text are those of its code segments. -/
theorem sum_fences_codes (t : Text) :
  ((codes t).map fences).sum = fences t
  := by
  have hsum := sum_fences_rewritten (h := Segment.content) (fun _ _ => rfl) (segments t)
  have hprose : (((segments t).filter fun s => s.kind = .prose).map
      fun s => fences s.content).sum = 0 := by
    rw [List.sum_eq_zero_iff_forall_eq_nat]
    intro n hn
    obtain ⟨s, hs, rfl⟩ := List.mem_map.mp hn
    obtain ⟨hs, hkind⟩ := List.mem_filter.mp hs
    apply fences_prose s hs (by simpa using hkind)
  have hall := fences_flatten (cutAtLines_segments t)
  rw [← List.flatMap_def, flatMap_content_segments, List.map_map] at hall
  rw [hprose, Nat.add_zero] at hsum
  rw [hall, codes, ← hsum]
  rfl

/-- Segments stay cut at line ends if their contents keep these. -/
theorem CutAtLines.map
    {ss : List Segment} {h : Segment → Text}
    (hcut : CutAtLines (ss.map Segment.content))
    (hends : ∀ s ∈ ss, EndsLine s.content → EndsLine (h s)) :
  CutAtLines (ss.map h)
  := by
  induction ss with
  | nil => exact trivial
  | cons s ss ih =>
    constructor
    · intro hne
      apply hends s List.mem_cons_self
      apply hcut.1
      rintro hnil
      rw [List.map_eq_nil_iff] at hnil
      apply hne (by rw [hnil]; rfl)
    · apply ih hcut.2 fun s' hs' => hends s' (List.mem_cons_of_mem s hs')

/-- A text with rewritten prose has the code of the text exactly when the new prose holds no
fence. -/
theorem codes_flatMap_iff
    {t : Text} {h : Segment → Text}
    (hcode : ∀ s, s.kind = .code → h s = s.content)
    (hends : ∀ s ∈ segments t, EndsLine s.content → EndsLine (h s)) :
  codes ((segments t).flatMap h) = codes t
    ↔ ∀ s ∈ segments t, s.kind = .prose → fences (h s) = 0
  := by
  have hcut := (cutAtLines_segments t).map hends
  constructor
  · intro hcodes
    have hsum : fences t
        = fences t
          + (((segments t).filter fun s => s.kind = .prose).map fun s => fences (h s)).sum := by
      calc
        fences t = ((codes ((segments t).flatMap h)).map fences).sum := by
          rw [hcodes, sum_fences_codes]
        _ = ((segments t).map fun s => fences (h s)).sum := by
          rw [sum_fences_codes, List.flatMap_def, fences_flatten hcut, List.map_map]
          rfl
        _ = _ := by
          rw [sum_fences_rewritten hcode, ← codes, sum_fences_codes]
    have hzero : (((segments t).filter fun s => s.kind = .prose).map
        fun s => fences (h s)).sum = 0 := by
      omega
    rw [List.sum_eq_zero_iff_forall_eq_nat] at hzero
    intro s hs hkind
    apply hzero
    apply List.mem_map_of_mem
    apply List.mem_filter.mpr ⟨hs, by simp [hkind]⟩
  · apply codes_flatMap_of_fences hcode
    apply lines_flatMap hcut

end DollarMath
