import DollarMath.Proofs.Form
import DollarMath.Proofs.Law
import DollarMath.Proofs.LineEnds
import DollarMath.Proofs.Pairing
import DollarMath.Proofs.Segmentation
import Mathlib.Data.List.DropRight

/-!
# The ending of a text

The carriage returns and line feeds at the end of a text belong to no formula: an enclosure ends
with its closing delimiter, or with spaces and tabs behind it, and a parenthesis with its primes.
What is written for a formula ends within a line too.  So every conversion keeps these characters,
and whatever stands behind a converted text starts where it started before.
-/

namespace DollarMath

open LineEnds

/-- A carriage return or a line feed. -/
def isLineEndChar (c : Char) : Bool :=
  c = '\r' || c = '\n'

/-- The ending of a text: the longest run of carriage returns and line feeds at its end. -/
def ending (t : Text) : Text :=
  t.rtakeWhile isLineEndChar

/-- A text of carriage returns and line feeds only. -/
def IsEnding (t : Text) : Prop :=
  ∀ c ∈ t, isLineEndChar c = true

/-- A text whose last character is no carriage return and no line feed. -/
def EndsWithin (t : Text) : Prop :=
  ∃ c ∈ t.getLast?, isLineEndChar c = false

/-! ### Endings of texts side by side -/

/-- A text that is all ending. -/
theorem ending_eq_self_iff {t : Text} :
  ending t = t ↔ IsEnding t
  := List.rtakeWhile_eq_self_iff

/-- The ending is as long as it can be. -/
theorem ending_concat (t : Text) (c : Char) :
  ending (t ++ [c]) = if isLineEndChar c then ending t ++ [c] else []
  := List.rtakeWhile_concat _ _ _

/-- Texts one after the other are an ending if each is. -/
theorem isEnding_append_iff {s t : Text} :
  IsEnding (s ++ t) ↔ IsEnding s ∧ IsEnding t
  := List.forall_mem_append

/-- An ending behind a text belongs to the ending of both. -/
theorem ending_append_of_isEnding (s : Text) {t : Text} (h : IsEnding t) :
  ending (s ++ t) = ending s ++ t
  := by
  induction t using List.reverseRecOn with
  | nil => rw [List.append_nil, List.append_nil]
  | append_singleton t c ih =>
    obtain ⟨ht, hc⟩ := isEnding_append_iff.mp h
    rw [← List.append_assoc, ending_concat, if_pos (hc c List.mem_cons_self), ih ht,
      List.append_assoc]

/-- A text that is more than an ending hides what stands before it. -/
theorem ending_append_of_not_isEnding (s : Text) {t : Text} (h : ¬ IsEnding t) :
  ending (s ++ t) = ending t
  := by
  induction t using List.reverseRecOn with
  | nil => exact absurd (List.forall_mem_nil _) h
  | append_singleton t c ih =>
    rw [← List.append_assoc, ending_concat, ending_concat]
    split
    · next hc =>
      rw [ih]
      intro ht
      apply h
      apply isEnding_append_iff.mpr ⟨ht, List.forall_mem_singleton.mpr hc⟩
    · rfl

/-- A text ends with a carriage return or a line feed if its ending does. -/
theorem getLast?_ending_eq_some_iff {t : Text} {c : Char} (hc : isLineEndChar c = true) :
  (ending t).getLast? = some c ↔ t.getLast? = some c
  := by
  rcases List.eq_nil_or_concat' t with rfl | ⟨s, d, rfl⟩
  · rfl
  · rw [ending_concat, List.getLast?_concat]
    split
    · rw [List.getLast?_concat]
    · next hd =>
      simp only [List.getLast?_nil, reduceCtorEq, false_iff, Option.some.injEq]
      rintro rfl
      exact hd hc

/-- Whether a text is an ending does not depend on carriage returns. -/
theorem isEnding_toCrlf_iff {t : Text} :
  IsEnding (toCrlf t) ↔ IsEnding t
  := by
  induction t with
  | nil => rfl
  | cons c cs ih =>
    rw [toCrlf_cons, isEnding_append_iff, ih, IsEnding, IsEnding, IsEnding, List.forall_mem_cons]
    split
    · next hc => simp [hc, isLineEndChar]
    · rw [List.forall_mem_singleton]

/-- The ending of a text with a carriage return before each line feed. -/
theorem ending_toCrlf (t : Text) :
  ending (toCrlf t) = toCrlf (ending t)
  := by
  induction t using List.reverseRecOn with
  | nil => rfl
  | append_singleton t c ih =>
    rw [toCrlf_append, ending_concat]
    split
    · next hc =>
      have hending : IsEnding (toCrlf [c]) :=
        isEnding_toCrlf_iff.mpr (List.forall_mem_singleton.mpr hc)
      rw [ending_append_of_isEnding _ hending, ih, toCrlf_append]
    · next hc =>
      have hnewline : c ≠ '\n' := by
        rintro rfl
        exact hc rfl
      have hkept : toCrlf [c] = [c] := by
        rw [toCrlf_cons, if_neg hnewline]
        rfl
      rw [hkept, ending_concat, if_neg hc]
      rfl

/-- Spaces and tabs end no line. -/
theorem not_isLineEndChar_of_isSpaceOrTab {c : Char} (h : isSpaceOrTab c = true) :
  isLineEndChar c = false
  := by
  simp only [isSpaceOrTab, Bool.or_eq_true, decide_eq_true_eq] at h
  rcases h with rfl | rfl
  · decide
  · decide

namespace EndsWithin

/-- A text that stops with a character within a line ends there. -/
theorem concat (s : Text) {c : Char} (hc : isLineEndChar c = false) :
  EndsWithin (s ++ [c])
  := ⟨c, List.getLast?_concat, hc⟩

variable {t : Text} (h : EndsWithin t)
include h

/-- It has such a last character. -/
theorem exists_concat :
  ∃ s c, t = s ++ [c] ∧ isLineEndChar c = false
  := by
  obtain ⟨c, hlast, hc⟩ := h
  obtain ⟨s, rfl⟩ := List.getLast?_eq_some_iff.mp hlast
  exact ⟨s, c, rfl, hc⟩

/-- It may have any text in front. -/
theorem append (s : Text) :
  EndsWithin (s ++ t)
  := by
  obtain ⟨u, c, rfl, hc⟩ := h.exists_concat
  rw [← List.append_assoc]
  exact concat _ hc

/-- Spaces and tabs stand within a line. -/
theorem append_spaces {s : Text} (hs : IsSpaces s) :
  EndsWithin (t ++ s)
  := by
  rcases List.eq_nil_or_concat' s with rfl | ⟨u, c, rfl⟩
  · rw [List.append_nil]
    exact h
  · rw [← List.append_assoc]
    exact concat _ (not_isLineEndChar_of_isSpaceOrTab (hs c List.mem_concat_self))

/-- It has no ending. -/
theorem ending_eq_nil :
  ending t = []
  := by
  obtain ⟨s, c, rfl, hc⟩ := h.exists_concat
  rw [ending_concat, hc]
  rfl

theorem not_isEnding :
  ¬ IsEnding t
  := by
  obtain ⟨s, c, rfl, hc⟩ := h.exists_concat
  intro hall
  rw [hall c List.mem_concat_self] at hc
  cases hc

end EndsWithin

/-! ### Texts with the same ending -/

/-- Two texts with the same ending, which are both nothing else or both more. -/
structure SameEnding (s t : Text) : Prop where
  /-- The endings are the same. -/
  ending_eq : ending t = ending s
  /-- If one of the texts is nothing but its ending, so is the other one. -/
  isEnding_iff : IsEnding t ↔ IsEnding s

namespace SameEnding

/-- A text has the ending that it has. -/
theorem refl (t : Text) :
  SameEnding t t
  := ⟨rfl, Iff.rfl⟩

/-- Texts with the same ending as a third one. -/
theorem trans {s t u : Text} (hst : SameEnding s t) (htu : SameEnding t u) :
  SameEnding s u
  := ⟨htu.ending_eq.trans hst.ending_eq, htu.isEnding_iff.trans hst.isEnding_iff⟩

/-- Texts one after the other have the same ending if each two parts have. -/
theorem append {s t u v : Text} (hs : SameEnding s u) (ht : SameEnding t v) :
  SameEnding (s ++ t) (u ++ v)
  := by
  constructor
  · by_cases hending : IsEnding t
    · have hv := ht.isEnding_iff.mpr hending
      have heq : v = t := by
        rw [← ending_eq_self_iff.mpr hv, ht.ending_eq, ending_eq_self_iff.mpr hending]
      rw [ending_append_of_isEnding u hv, ending_append_of_isEnding s hending, hs.ending_eq, heq]
    · have hv := mt ht.isEnding_iff.mp hending
      rw [ending_append_of_not_isEnding u hv, ending_append_of_not_isEnding s hending,
        ht.ending_eq]
  · rw [isEnding_append_iff, isEnding_append_iff, hs.isEnding_iff, ht.isEnding_iff]

/-- Texts that end within a line have the same ending: none. -/
theorem of_endsWithin {s t : Text} (hs : EndsWithin s) (ht : EndsWithin t) :
  SameEnding s t
  := by
  constructor
  · rw [ht.ending_eq_nil, hs.ending_eq_nil]
  · exact iff_of_false ht.not_isEnding hs.not_isEnding

/-- With a carriage return before every line feed, texts with the same ending have the same
ending. -/
theorem toCrlf {s t : Text} (h : SameEnding s t) :
  SameEnding (toCrlf s) (toCrlf t)
  := by
  constructor
  · rw [ending_toCrlf, ending_toCrlf, h.ending_eq]
  · rw [isEnding_toCrlf_iff, isEnding_toCrlf_iff, h.isEnding_iff]

variable {s t : Text} (h : SameEnding s t)
include h

/-- The same line end stands at the end of both. -/
theorem getLast?_eq_some_iff {c : Char} (hc : isLineEndChar c = true) :
  t.getLast? = some c ↔ s.getLast? = some c
  := by
  rw [← getLast?_ending_eq_some_iff hc, h.ending_eq, getLast?_ending_eq_some_iff hc]

/-- Both are empty, or neither is. -/
theorem eq_nil_iff :
  t = [] ↔ s = []
  := by
  have hnil : ∀ u : Text, u = [] ↔ IsEnding u ∧ ending u = [] := by
    intro u
    constructor
    · rintro rfl
      exact ⟨List.forall_mem_nil _, rfl⟩
    · rintro ⟨hu, hending⟩
      rw [← ending_eq_self_iff.mpr hu, hending]
  rw [hnil t, hnil s, h.isEnding_iff, h.ending_eq]

/-- Both end with a line end, or neither does. -/
theorem endsLine (hs : EndsLine s) :
  EndsLine t
  := by
  by_cases hnil : s = []
  · rw [h.eq_nil_iff.mpr hnil]
    exact endsLine_nil
  · obtain ⟨u, c, rfl⟩ := (List.eq_nil_or_concat' s).resolve_left hnil
    have hc : c = '\n' := hs c List.getLast?_concat
    have hlast : t.getLast? = some '\n' := by
      rw [h.getLast?_eq_some_iff (by decide), List.getLast?_concat, hc]
    intro d hd
    rw [hlast] at hd
    exact (Option.some.inj hd).symm

end SameEnding

theorem sameEnding_law :
  Law fun t c => SameEnding t c.text
  where
  unchanged := SameEnding.refl
  andThen := SameEnding.trans
  append := SameEnding.append

/-! ### What a match and its formula end with -/

/-- An enclosure ends with its closing delimiter, or with spaces and tabs behind it. -/
theorem Delimiter.endsWithin_closing {d : Delimiter} {e : Enclosure} (h : d.HasForm e) :
  EndsWithin e.closing
  := by
  have hquoted : ∀ openMark closeMark, EndsWithin closeMark → QuotedForm openMark closeMark e →
      EndsWithin e.closing := by
    intro openMark closeMark hmark hform
    obtain ⟨n, s₁, s₂, hclosing, -, -, hs₂⟩ := hform.closing
    rw [hclosing]
    exact (((hmark.append_spaces hs₂).append s₁).append ['>']).append n
  have hparen : EndsWithin ['\\', ')'] := EndsWithin.concat ['\\'] (by decide)
  have hdisplay : EndsWithin ['\\', ']'] := EndsWithin.concat ['\\'] (by decide)
  have hbracket : EndsWithin [']'] := EndsWithin.concat [] (by decide)
  cases d with
  | quotedDisplay => exact hquoted _ _ hdisplay h
  | quotedBracket => exact hquoted _ _ hbracket h
  | display =>
    rw [h]
    exact hdisplay
  | bracketBlock =>
    obtain ⟨n, s₁, s₂, hclosing, -, -, hs₂⟩ := h.closing
    rw [hclosing]
    exact ((hbracket.append_spaces hs₂).append s₁).append n
  | bracket =>
    rw [h.1]
    exact hbracket
  | inline =>
    rw [h.1]
    exact hparen

/-- A parenthesis ends with itself, or with its primes. -/
theorem Paren.GroupForm.endsWithin_source {source formula body primes : Text}
    (h : GroupForm source formula body primes) :
  EndsWithin source
  := by
  rw [h.source_eq, ← List.append_assoc]
  apply EndsWithin.append
  rcases List.eq_nil_or_concat' primes with hnil | ⟨s, c, hprimes⟩
  · rw [hnil]
    exact EndsWithin.concat [] (by decide)
  · have hc : c = '\x27' := h.primes c (by simp [hprimes])
    rw [hprimes, ← List.append_assoc]
    apply EndsWithin.concat
    rw [hc]
    decide

/-- A display that is written ends with a dollar. -/
theorem endsWithin_displayOf (body : Text) :
  EndsWithin (displayOf body)
  := EndsWithin.append (EndsWithin.concat ['\n', '$'] (by decide)) _

/-- So does an inline formula. -/
theorem endsWithin_inlineOf (body : Text) :
  EndsWithin (inlineOf body)
  := EndsWithin.concat _ (by decide)

/-! ### The conversions -/

/-- A replacement of matches that end within a line, by texts that do so, keeps the ending. -/
theorem sameEnding_replace
    {α : Type} {r : Reader α} {f : Match α → Option Text} {t : Text}
    (h : ∀ m ∈ r.findAll t, ∀ v, f m = some v → EndsWithin m.source ∧ EndsWithin v) :
  SameEnding t (r.replace f t).text
  := by
  apply r.replace_induction f fun u w _ => SameEnding u w
  · exact .refl []
  · intro c u w _ ih
    exact (SameEnding.refl [c]).append ih
  · intro m _ _ u w _ ih
    exact (SameEnding.refl m.source).append ih
  · intro m hm v hv u w _ ih
    obtain ⟨hsource, hwritten⟩ := h m hm v hv
    exact (SameEnding.of_endsWithin hsource hwritten).append ih

/-- What replaces an enclosure and ends within a line keeps the ending. -/
theorem Delimiter.sameEnding_replace
    {d : Delimiter} {f : Match Enclosure → Option Text} {t : Text}
    (hf : ∀ m v, f m = some v → EndsWithin v) :
  SameEnding t (d.reader.replace f t).text
  := by
  apply DollarMath.sameEnding_replace
  intro m hm v hv
  obtain ⟨hform, hsource⟩ := form_of_mem_findAll hm
  rw [hsource]
  exact ⟨(endsWithin_closing hform).append _, hf m v hv⟩

/-- The steps of a conversion keep the ending of a text. -/
theorem steps_sameEnding :
  ∀ f ∈ steps, f.Obeys fun t c => SameEnding t c.text
  := by
  simp only [steps, List.forall_mem_cons]
  refine ⟨?_, ?_, ?_, ?_, ?_, ?_, ?_, by simp⟩
  · intro t
    apply Delimiter.sameEnding_replace
    intro m v hv
    obtain rfl := Option.some.inj hv
    exact EndsWithin.append (EndsWithin.concat [' ', '$'] (by decide)) _
  · intro t
    apply Delimiter.sameEnding_replace
    intro m v hv
    obtain rfl := eq_of_ite_none_eq_some hv
    exact EndsWithin.append (EndsWithin.concat [' '] (by decide)) _
  · intro t
    apply Delimiter.sameEnding_replace
    intro m v hv
    obtain rfl := Option.some.inj hv
    exact endsWithin_displayOf _
  · intro t
    apply Delimiter.sameEnding_replace
    intro m v hv
    obtain rfl := eq_of_ite_none_ite_eq_some hv
    exact (endsWithin_displayOf _).append _
  · intro t
    apply Delimiter.sameEnding_replace
    intro m v hv
    obtain rfl := eq_of_ite_none_ite_eq_some hv
    exact endsWithin_displayOf _
  · intro t
    apply sameEnding_replace
    intro m hm v hv
    obtain ⟨body, primes, hform⟩ := Paren.form_of_formula hm hv
    refine ⟨hform.endsWithin_source, ?_⟩
    rw [hform.formula_eq, Paren.formulaOf]
    exact EndsWithin.concat _ (by decide)
  · intro t
    apply Delimiter.sameEnding_replace
    intro m v hv
    obtain rfl := Option.some.inj hv
    exact endsWithin_inlineOf _

/-- The change of line ends keeps the ending of a text whose line feeds all follow a carriage
return. -/
theorem SameEnding.of_toLf {t u : Text} (hcrlf : allCrlf false t = true)
    (h : SameEnding (toLf t) u) :
  SameEnding t (LineEnds.toCrlf u)
  := by
  have hback := h.toCrlf
  rwa [toCrlf_toLf hcrlf] at hback

/-- Prose keeps its ending. -/
theorem convertProse_sameEnding :
  convertProse.Obeys fun t c => SameEnding t c.text
  := sameEnding_law.convertProse steps_sameEnding fun _ _ hcrlf h => h.of_toLf hcrlf

/-- So does a document. -/
theorem convertDocument_sameEnding :
  convertDocument.Obeys fun t c => SameEnding t c.text
  := sameEnding_law.convertDocument steps_sameEnding fun _ _ hcrlf h => h.of_toLf hcrlf

/-! ### Documents -/

/-- So does each of its segments. -/
theorem Segment.sameEnding_convert (s : Segment) :
  SameEnding s.content s.convert.text
  := by
  rw [convert]
  split
  · exact .refl _
  · exact convertProse_sameEnding s.content

/-- Texts that are cut at line ends: before each one but the first the last line has ended. -/
theorem CutAtLines.endsLine_flatten {ss ts : List Text} (h : CutAtLines (ss ++ ts))
    (hne : ts ≠ []) :
  EndsLine ss.flatten
  := by
  induction ss with
  | nil => exact endsLine_nil
  | cons s ss ih =>
    rw [List.flatten_cons]
    apply EndsLine.append (ih h.2)
    intro _
    apply h.1
    simp [hne]

/-- Prose keeps its ending.  So a document ends with a line feed after the conversion exactly when
it did before, and a code segment is kept at the start of a line. -/
theorem ending_convertProse :
  (∀ t, ending (convertProse t).text = ending t)
    ∧ ∀ d, ((convertDocument d).text.getLast? = some '\n' ↔ d.getLast? = some '\n')
      ∧ ∀ ss s ss', segments d = ss ++ s :: ss' → s.kind = .code →
        (convertDocument d).text = ss.flatMap (fun s => s.convert.text)
            ++ (s.content ++ ss'.flatMap fun s => s.convert.text)
          ∧ EndsLine (ss.flatMap fun s => s.convert.text)
  := by
  constructor
  · exact fun t => (convertProse_sameEnding t).ending_eq
  · intro d
    constructor
    · exact (convertDocument_sameEnding d).getLast?_eq_some_iff (by decide)
    · intro ss s ss' hsegments hkind
      have hcut : CutAtLines ((segments d).map fun s => s.convert.text) :=
        (cutAtLines_segments d).map fun s _ => s.sameEnding_convert.endsLine
      have hcode : s.convert.text = s.content := by
        rw [Segment.convert, hkind]
        rfl
      constructor
      · rw [text_convertDocument, hsegments, List.flatMap_append, List.flatMap_cons, hcode]
      · rw [hsegments, List.map_append] at hcut
        rw [List.flatMap_def]
        apply hcut.endsLine_flatten
        apply List.cons_ne_nil

/-- A formula before a blank line and code. -/
theorem ending_convertProse_code :
  let s : Segment := ⟨.prose, ['(', '1', ')', ' ', '\r', '\n', '\r', '\n']⟩
  let s' : Segment := ⟨.code, ['~', '~', '~', '\r', '\n', '~', '~', '~']⟩
  let d := s.content ++ s'.content
  (segments d = [s] ++ s' :: [] ∧ s'.kind = .code)
    ∧ (convertDocument d).text = [s].flatMap (fun s => s.convert.text)
        ++ (s'.content ++ [].flatMap fun s : Segment => s.convert.text)
    ∧ EndsLine ([s].flatMap fun s => s.convert.text)
  := by
  intro s s' d
  have hsegments : segments d = [s] ++ s' :: [] := by decide
  exact ⟨⟨hsegments, rfl⟩, (ending_convertProse.2 d).2 [s] s' [] hsegments rfl⟩

end DollarMath
