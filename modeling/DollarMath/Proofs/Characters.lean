import DollarMath.Proofs.Form
import DollarMath.Proofs.Law
import DollarMath.Proofs.LineEnds
import DollarMath.Proofs.Neighbours
import DollarMath.Proofs.Pairing

/-!
# The characters of a converted text

A conversion invents no characters.  Those of the new text are characters of the old one, or
belong to the few that are written around a formula and at the end of a line.
-/

namespace DollarMath

/-- The characters of a converted text are those of the text and those of `w`. -/
def Writes (w : Text) (t : Text) (c : Converted) : Prop :=
  ∀ x ∈ c.text, x ∈ t ∨ x ∈ w

/-- To write nothing but certain characters is a law. -/
theorem writes_law (w : Text) :
  Law (Writes w)
  where
  unchanged _ x hx := .inl hx
  andThen ha hf x hx := by
    rcases hf x hx with hx | hx
    · apply ha x hx
    · right
      exact hx
  append {s t a b} ha hb x hx := by
    rw [List.mem_append]
    rcases List.mem_append.mp hx with hx | hx
    · apply (ha x hx).imp_left .inl
    · apply (hb x hx).imp_left .inr

/-- More characters may be allowed. -/
theorem Writes.mono {w w' t : Text} {c : Converted} (h : Writes w t c) (hw : w ⊆ w') :
  Writes w' t c
  := fun x hx => (h x hx).imp_right fun hx => hw hx

/-- A replacement writes the characters that are written for its matches. -/
theorem writes_replace
    {α : Type} {r : Reader α} {f : Match α → Option Text} {w t : Text} (a : Tally)
    (h : ∀ m ∈ r.findAll t, ∀ v, f m = some v → ∀ x ∈ v, x ∈ m.source ∨ x ∈ w) :
  Writes w t ⟨(r.replace f t).text, a⟩
  := by
  apply r.replace_induction f fun u v _ => ∀ x ∈ v, x ∈ u ∨ x ∈ w
  · simp
  · intro c u v _ ih x hx
    rw [List.mem_cons] at hx ⊢
    rcases hx with hx | hx
    · exact .inl (.inl hx)
    · apply (ih x hx).imp_left .inr
  · intro m _ _ u v _ ih x hx
    rw [List.mem_append] at hx ⊢
    rcases hx with hx | hx
    · exact .inl (.inl hx)
    · apply (ih x hx).imp_left .inr
  · intro m hm v hv u v' _ ih x hx
    rw [List.mem_append] at hx ⊢
    rcases hx with hx | hx
    · apply (h m hm v hv x hx).imp_left .inl
    · apply (ih x hx).imp_left .inr

/-- The characters of the marker and of the body are characters of the enclosure. -/
theorem Enclosure.mem_source {e : Enclosure} {x : Char} (h : x ∈ e.marker ∨ x ∈ e.body) :
  x ∈ e.source
  := by
  rcases h with h | h
  · simp [source, h]
  · simp [source, h]

/-- A replacement of enclosures writes what stands around their markers and bodies. -/
theorem Delimiter.writes_replace
    {d : Delimiter} {f : Match Enclosure → Option Text} {w : Text} (t : Text) (a : Tally)
    (h : ∀ m v, f m = some v → ∀ x ∈ v, (x ∈ m.value.marker ∨ x ∈ m.value.body) ∨ x ∈ w) :
  Writes w t ⟨(d.reader.replace f t).text, a⟩
  := by
  apply DollarMath.writes_replace
  intro m hm v hv x hx
  rw [(form_of_mem_findAll hm).2]
  apply (h m v hv x hx).imp_left Enclosure.mem_source

/-! ### What is written for a body -/

/-- A character of joined lines is the separator, or stands in a line. -/
theorem mem_of_mem_intercalate {x z : Char} {ls : List Text}
    (h : x ∈ List.intercalate [z] ls) :
  x = z ∨ ∃ l ∈ ls, x ∈ l
  := by
  induction ls with
  | nil => simp at h
  | cons l ls ih =>
    cases ls with
    | nil =>
      right
      use l, List.mem_cons_self
      simpa using h
    | cons l' ls =>
      rw [List.intercalate_cons_cons, List.mem_append, List.mem_append, List.mem_singleton] at h
      rcases h with (h | h) | h
      · right
        use l, List.mem_cons_self
      · left
        exact h
      · rcases ih h with h | ⟨l'', hl'', h⟩
        · left
          exact h
        · right
          use l'', List.mem_cons_of_mem l hl''

/-- An unquoted text has its own characters, and spaces. -/
theorem Quote.mem_of_mem_unquote {x : Char} {t : Text} (h : x ∈ unquote t) :
  x ∈ t ∨ x = ' '
  := by
  rcases mem_of_mem_intercalate (mem_of_mem_trim h) with h | ⟨l, hl, h⟩
  · right
    exact h
  · left
    obtain ⟨l', hl', rfl⟩ := List.mem_map.mp hl
    have h := (dropMark_isSuffix l').subset h
    obtain ⟨l₀, ls, hlines, hfirst, hothers⟩ := exists_bareLines_eq_cons t
    rw [hlines] at hl'
    rcases List.mem_cons.mp hl' with rfl | hl'
    · apply hfirst.subset h
    · apply (hothers l' hl').subset h

/-- A display adds dollars and line feeds to its body. -/
theorem mem_of_mem_displayOf {x : Char} {body : Text} (h : x ∈ displayOf body) :
  x ∈ body ∨ x ∈ ['$', '\n']
  := by
  simp only [displayOf, List.mem_append, List.mem_cons, List.not_mem_nil, or_false] at h ⊢
  rcases h with (h | h) | h
  · tauto
  · left
    apply mem_of_mem_trim h
  · tauto

/-- An inline formula adds dollars to its body. -/
theorem mem_of_mem_inlineOf {x : Char} {body : Text} (h : x ∈ inlineOf body) :
  x ∈ body ∨ x ∈ ['$']
  := by
  simp only [inlineOf, List.mem_append, List.mem_singleton] at h ⊢
  rcases h with (h | h) | h
  · right
    exact h
  · left
    apply mem_of_mem_trim h
  · right
    exact h

namespace Paren

/-- A formula in plain parentheses has its own characters, and dollars. -/
theorem GroupForm.mem_source {source formula body primes : Text} {x : Char}
    (h : GroupForm source formula body primes) (hx : x ∈ formula) :
  x ∈ source ∨ x ∈ ['$']
  := by
  rw [h.formula_eq, formulaOf] at hx
  rw [h.source_eq]
  have htrim : x ∈ trim body → x ∈ body := mem_of_mem_trim
  split at hx
  · simp only [List.mem_append, List.mem_singleton] at hx ⊢
    tauto
  · simp only [List.mem_append, List.mem_singleton] at hx ⊢
    tauto

end Paren

/-! ### What the steps write -/

/-- Parentheses are rewritten with dollars only. -/
theorem convertParens_writes :
  convertParens.Obeys (Writes ['$'])
  := by
  intro t
  apply writes_replace
  intro m hm v hv x hx
  obtain ⟨body, primes, hform⟩ := Paren.form_of_formula hm hv
  apply hform.mem_source hx

/-- So are formulas in backslash parentheses. -/
theorem convertInlines_writes :
  convertInlines.Obeys (Writes ['$'])
  := by
  intro t
  apply Delimiter.writes_replace
  intro m v hv x hx
  obtain rfl := Option.some.inj hv
  apply (mem_of_mem_inlineOf hx).imp_left .inr

/-- Between the displays only dollars are written. -/
theorem mem_of_mem_convertAllInlines {x : Char} {t : Text}
    (h : x ∈ ((convertAllInlines.between .displays) t).text) :
  x ∈ t ∨ x = '$'
  := by
  have law := writes_law ['$']
  have hwrites := law.between
    (law.convertAllInlines convertParens_writes convertInlines_writes) .displays
  simpa using hwrites t x h

/-- The characters that the steps of a conversion write: those of the delimiters, quote marks and
line feeds, and the spaces between. -/
def stepMarks : Text := ['$', '\n', ' ', '>', '[', ']']

/-- The characters that the conversion of a document writes: those of its delimiters, quote marks
and line ends, and the spaces between. -/
def marks : Text := ['$', '\n', ' ', '>', '[', ']', '\r']

/-- The lines of a quoted block lose characters only, and get marks around them. -/
theorem writes_marks_of_unquote {u v t : Text} {x : Char} (hu : u ⊆ stepMarks) (hv : v ⊆ stepMarks)
    (h : x ∈ u ++ Quote.unquote t ++ v) :
  x ∈ t ∨ x ∈ stepMarks
  := by
  rw [List.mem_append, List.mem_append] at h
  rcases h with (h | h) | h
  · right
    apply hu h
  · apply (Quote.mem_of_mem_unquote h).imp_right
    rintro rfl
    decide
  · right
    apply hv h

/-- The characters of a display are marks or stand in its body. -/
theorem writes_marks_of_display {body : Text} {x : Char} (h : x ∈ displayOf body) :
  x ∈ body ∨ x ∈ stepMarks
  := by
  have hmarks : ['$', '\n'] ⊆ stepMarks := by decide
  apply (mem_of_mem_displayOf h).imp_right
  apply hmarks

/-- All steps write nothing but marks. -/
theorem steps_writes :
  ∀ f ∈ steps, f.Obeys (Writes stepMarks)
  := by
  have hdollar : ['$'] ⊆ stepMarks := by decide
  simp only [steps, List.forall_mem_cons]
  refine ⟨?_, ?_, ?_, ?_, ?_, fun t => (convertParens_writes t).mono hdollar,
    fun t => (convertInlines_writes t).mono hdollar, by simp⟩
  · intro t
    apply Delimiter.writes_replace
    intro m v hv x hx
    obtain rfl := Option.some.inj hv
    apply (writes_marks_of_unquote (by decide) (by decide) hx).imp_left .inr
  · intro t
    apply Delimiter.writes_replace
    intro m v hv x hx
    obtain rfl := eq_of_ite_none_eq_some hv
    apply (writes_marks_of_unquote (by decide) (by decide) hx).imp_left .inr
  · intro t
    apply Delimiter.writes_replace
    intro m v hv x hx
    obtain rfl := Option.some.inj hv
    apply (writes_marks_of_display hx).imp_left .inr
  · intro t
    apply Delimiter.writes_replace
    intro m v hv x hx
    obtain rfl := eq_of_ite_none_ite_eq_some hv
    rcases List.mem_append.mp hx with hx | hx
    · exact .inl (.inl hx)
    · apply (writes_marks_of_display hx).imp_left .inr
  · intro t
    apply Delimiter.writes_replace
    intro m v hv x hx
    obtain rfl := eq_of_ite_none_ite_eq_some hv
    apply (writes_marks_of_display hx).imp_left .inr

/-- The characters of converted prose are those of the prose, or are written by a step. -/
theorem mem_of_mem_convertMath {x : Char} {t : Text} (h : x ∈ (convertMath t).text) :
  x ∈ t ∨ x ∈ stepMarks
  := (writes_law stepMarks).convertMath steps_writes t x h

/-! ### Line ends -/

/-- Line feeds for line ends add no character. -/
theorem LineEnds.mem_of_mem_toLf {x : Char} {t : Text} (h : x ∈ toLf t) :
  x ∈ t
  := by
  induction t using toLf.induct with
  | case1 => cases h
  | case2 cs ih =>
    rw [toLf, List.mem_cons] at h
    rcases h with rfl | h
    · simp
    · simp [ih h]
  | case3 c cs hcrlf ih =>
    rw [toLf, List.mem_cons] at h
    · rcases h with rfl | h
      · exact List.mem_cons_self
      · exact List.mem_cons_of_mem c (ih h)
    · apply hcrlf

/-- Returned line ends add carriage returns only. -/
theorem LineEnds.mem_of_mem_toCrlf {x : Char} {t : Text} (h : x ∈ toCrlf t) :
  x ∈ t ∨ x = '\r'
  := by
  obtain ⟨c, hc, hx⟩ := List.mem_flatMap.mp h
  split at hx
  · next heq =>
    simp only [List.mem_cons, List.not_mem_nil, or_false] at hx
    rcases hx with hx | rfl
    · right
      exact hx
    · left
      rwa [heq] at hc
  · left
    rwa [List.mem_singleton.mp hx]

/-- The characters of a converted document are those of the document, or are written by a step. -/
theorem mem_of_mem_convertDocument {x : Char} {d : Text} (h : x ∈ (convertDocument d).text) :
  x ∈ d ∨ x ∈ marks
  := by
  have hmarks : stepMarks ⊆ marks := by decide
  apply (writes_law marks).convertDocument (fun f hf t => (steps_writes f hf t).mono hmarks) _ d x h
  intro t c _ hc x hx
  rcases LineEnds.mem_of_mem_toCrlf hx with hx | rfl
  · apply (hc x hx).imp_left LineEnds.mem_of_mem_toLf
  · right
    decide

end DollarMath
