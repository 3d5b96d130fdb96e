import DollarMath.Proofs.Form
import DollarMath.Proofs.Law
import DollarMath.Proofs.LineEnds
import DollarMath.Proofs.Pairing

/-!
# The content of a text

A conversion changes blank characters, delimiters and quote marks only.  All other characters,
the content of a text, come back each once and in their order.
-/

namespace DollarMath

/-- A character that is neither blank nor part of a delimiter or of a quote mark. -/
def isContent (c : Char) : Bool :=
  !isBlank c && c ∉ ['\\', '(', ')', '[', ']', '$', '>']

/-- The content of a text: its characters but for the blank ones, the delimiters and the quote
marks. -/
def contentOf (t : Text) : Text :=
  t.filter isContent

/-- A blank character is no content. -/
theorem not_isContent_of_isBlank (c : Char) (h : isBlank c = true) :
  isContent c = false
  := by
  simp [isContent, h]

/-- The content of texts side by side. -/
theorem contentOf_append (s t : Text) :
  contentOf (s ++ t) = contentOf s ++ contentOf t
  := List.filter_append s t

/-- A text of other characters has no content. -/
theorem contentOf_eq_nil {t : Text} (h : ∀ c ∈ t, isContent c = false) :
  contentOf t = []
  := by
  rw [contentOf, List.filter_eq_nil_iff]
  intro c hc
  simp [h c hc]

/-- Trimming keeps the content. -/
theorem contentOf_trim (t : Text) :
  contentOf (trim t) = contentOf t
  := filter_trim not_isContent_of_isBlank t

/-- Unquoting keeps the content. -/
theorem contentOf_unquote (t : Text) :
  contentOf (Quote.unquote t) = contentOf t
  := Quote.filter_unquote not_isContent_of_isBlank (by decide) t

/-- Between delimiters, the content of a text is that of its body. -/
theorem contentOf_wrapped {u v : Text} (body : Text)
    (hu : contentOf u = []) (hv : contentOf v = []) :
  contentOf (u ++ body ++ v) = contentOf body
  := by
  rw [contentOf_append, contentOf_append, hu, hv, List.nil_append, List.append_nil]

/-- A display has the content of its body. -/
theorem contentOf_displayOf (body : Text) :
  contentOf (displayOf body) = contentOf body
  := by
  rw [displayOf, contentOf_wrapped _ (by decide) (by decide), contentOf_trim]

/-- An inline formula has the content of its body. -/
theorem contentOf_inlineOf (body : Text) :
  contentOf (inlineOf body) = contentOf body
  := by
  rw [inlineOf, contentOf_wrapped _ (by decide) (by decide), contentOf_trim]

/-! ### The content of an enclosure -/

/-- Spaces and tabs have no content. -/
theorem IsSpaces.contentOf {t : Text} (h : IsSpaces t) :
  contentOf t = []
  := contentOf_eq_nil (h.avoids not_isContent_of_isBlank)

/-- A line end has no content. -/
theorem IsLineEnd.contentOf {t : Text} (h : IsLineEnd t) :
  contentOf t = []
  := contentOf_eq_nil (h.avoids not_isContent_of_isBlank)

/-- An enclosure has the content of its marker and its body, if its other parts have none. -/
theorem Enclosure.contentOf_source
    {e : Enclosure} (hindent : contentOf e.indent = []) (hopening : contentOf e.opening = [])
    (hclosing : contentOf e.closing = []) :
  contentOf e.source = contentOf e.marker ++ contentOf e.body
  := by
  simp only [source, contentOf_append, hindent, hopening, hclosing, List.nil_append,
    List.append_nil]

/-- A quoted block has the content of its body. -/
theorem QuotedForm.contentOf_source
    {openMark closeMark : Text} {e : Enclosure} (h : QuotedForm openMark closeMark e)
    (hopen : contentOf openMark = []) (hclose : contentOf closeMark = []) :
  contentOf e.source = contentOf e.marker ++ contentOf e.body
  := by
  obtain ⟨⟨hindent, -⟩, ⟨s₁, s₂, n, ho, hs₁, hs₂, hn⟩, ⟨n', s₃, s₄, hc, hn', hs₃, hs₄⟩⟩ := h
  have hmark : contentOf ['>'] = [] := by decide
  apply Enclosure.contentOf_source
  · rw [hindent]
    rfl
  · simp only [ho, contentOf_append, hmark, hs₁.contentOf, hopen, hs₂.contentOf, hn.contentOf,
      List.append_nil]
  · simp only [hc, contentOf_append, hn'.contentOf, hmark, hs₃.contentOf, hclose,
      hs₄.contentOf, List.append_nil]

/-- A bracket block has the content of its marker and its body. -/
theorem BlockForm.contentOf_source {e : Enclosure} (h : BlockForm e) :
  contentOf e.source = contentOf e.marker ++ contentOf e.body
  := by
  obtain ⟨hindent, -, ⟨s, n, ho, hs, hn⟩, ⟨n', s₁, s₂, hc, hn', hs₁, hs₂⟩⟩ := h
  have hopen : contentOf ['['] = [] := by decide
  have hclose : contentOf [']'] = [] := by decide
  apply Enclosure.contentOf_source hindent.contentOf
  · simp only [ho, contentOf_append, hopen, hs.contentOf, hn.contentOf, List.append_nil]
  · simp only [hc, contentOf_append, hn'.contentOf, hs₁.contentOf, hclose, hs₂.contentOf,
      List.append_nil]

/-- The content of an enclosure is that of its marker and of its body. -/
theorem Delimiter.contentOf_source {d : Delimiter} {e : Enclosure} (h : d.HasForm e) :
  contentOf e.source = contentOf e.marker ++ contentOf e.body
  := by
  cases d with
  | quotedDisplay => exact h.contentOf_source (by decide) (by decide)
  | quotedBracket => exact h.contentOf_source (by decide) (by decide)
  | display =>
    obtain ⟨body, rfl⟩ : ∃ body, e = ⟨[], [], ['\\', '['], body, ['\\', ']']⟩ := ⟨_, h⟩
    apply Enclosure.contentOf_source rfl rfl rfl
  | bracketBlock => exact h.contentOf_source
  | bracket =>
    obtain ⟨body, rfl⟩ : ∃ body, e = ⟨[], [], ['['], body, [']']⟩ := ⟨_, h.1⟩
    apply Enclosure.contentOf_source rfl rfl rfl
  | inline =>
    obtain ⟨body, rfl⟩ : ∃ body, e = ⟨[], [], ['\\', '('], body, ['\\', ')']⟩ := ⟨_, h.1⟩
    apply Enclosure.contentOf_source rfl rfl rfl

/-- Only bracket blocks have a marker. -/
theorem Delimiter.marker_eq_nil
    {d : Delimiter} {e : Enclosure} (h : d.HasForm e) (hd : d ≠ bracketBlock) :
  e.marker = []
  := by
  cases d with
  | quotedDisplay => exact h.before.2
  | quotedBracket => exact h.before.2
  | display => exact congrArg Enclosure.marker h
  | bracketBlock => exact absurd rfl hd
  | bracket => exact congrArg Enclosure.marker h.1
  | inline => exact congrArg Enclosure.marker h.1

/-- A text keeps its content when its enclosures, without markers, are replaced by texts with
the content of their bodies. -/
theorem Delimiter.contentOf_replace
    {d : Delimiter} {f : Match Enclosure → Option Text} (t : Text) (hd : d ≠ bracketBlock)
    (hf : ∀ m w, f m = some w → contentOf w = contentOf m.value.body) :
  contentOf (d.reader.replace f t).text = contentOf t
  := by
  apply Reader.filter_text_replace
  intro m hm w hw
  obtain ⟨hform, hsource⟩ := form_of_mem_findAll hm
  calc
    contentOf w = contentOf m.value.body := hf m w hw
    _ = contentOf m.source := by
      rw [hsource, contentOf_source hform, marker_eq_nil hform hd]
      rfl

/-- A formula has the content of the parenthesis that it is written for. -/
theorem Paren.GroupForm.contentOf_formula
    {source formula body primes : Text} (h : GroupForm source formula body primes) :
  contentOf formula = contentOf source
  := by
  have hopen : contentOf ['('] = [] := by decide
  have hclose : contentOf [')'] = [] := by decide
  have hdollar : contentOf ['$'] = [] := by decide
  rw [h.source_eq, h.formula_eq, formulaOf]
  split <;> simp only [contentOf_append, contentOf_trim, hopen, hclose, hdollar,
    List.nil_append, List.append_nil]

/-! ### The content through the conversion -/

/-- The conversion keeps the content of a text. -/
def KeepsContent (t : Text) (c : Converted) : Prop :=
  contentOf c.text = contentOf t

/-- To keep the content is a law. -/
theorem keepsContent_law :
  Law KeepsContent
  where
  unchanged _ := rfl
  andThen ha hf := hf.trans ha
  append {s t a b} ha hb := by
    rw [KeepsContent, Converted.text_append, contentOf_append, contentOf_append, ha, hb]

/-- Quoted displays keep the content. -/
theorem convertQuotedDisplays_keepsContent :
  convertQuotedDisplays.Obeys KeepsContent
  := by
  intro t
  apply Delimiter.contentOf_replace t (by decide)
  intro m w hw
  obtain rfl := Option.some.inj hw
  rw [contentOf_wrapped _ (by decide) (by decide), contentOf_unquote]

/-- Collapsed blocks keep the content. -/
theorem collapseQuotedBrackets_keepsContent :
  collapseQuotedBrackets.Obeys KeepsContent
  := by
  intro t
  apply Delimiter.contentOf_replace t (by decide)
  intro m w hw
  obtain rfl := eq_of_ite_none_eq_some hw
  rw [contentOf_wrapped _ (by decide) (by decide), contentOf_unquote]

/-- Displays between backslash brackets keep the content. -/
theorem convertDisplays_keepsContent :
  convertDisplays.Obeys KeepsContent
  := by
  intro t
  apply Delimiter.contentOf_replace t (by decide)
  intro m w hw
  obtain rfl := Option.some.inj hw
  apply contentOf_displayOf

/-- The marker of a bracket block stays in front of the display. -/
theorem convertBracketBlocks_keepsContent :
  convertBracketBlocks.Obeys KeepsContent
  := by
  intro t
  apply Reader.filter_text_replace
  intro m hm w hw
  obtain rfl := eq_of_ite_none_ite_eq_some hw
  obtain ⟨hform, hsource⟩ := Delimiter.form_of_mem_findAll hm
  calc
    contentOf (m.value.marker ++ displayOf m.value.body)
        = contentOf m.value.marker ++ contentOf m.value.body := by
      rw [contentOf_append, contentOf_displayOf]
    _ = contentOf m.source := by
      rw [hsource, Delimiter.contentOf_source hform]

/-- Brackets keep the content. -/
theorem convertBrackets_keepsContent :
  convertBrackets.Obeys KeepsContent
  := by
  intro t
  apply Delimiter.contentOf_replace t (by decide)
  intro m w hw
  obtain rfl := eq_of_ite_none_ite_eq_some hw
  apply contentOf_displayOf

/-- Parentheses keep the content. -/
theorem convertParens_keepsContent :
  convertParens.Obeys KeepsContent
  := by
  intro t
  apply Reader.filter_text_replace
  intro m hm w hw
  obtain ⟨body, primes, hform⟩ := Paren.form_of_formula hm hw
  apply hform.contentOf_formula

/-- Formulas in backslash parentheses keep the content. -/
theorem convertInlines_keepsContent :
  convertInlines.Obeys KeepsContent
  := by
  intro t
  apply Delimiter.contentOf_replace t (by decide)
  intro m w hw
  obtain rfl := Option.some.inj hw
  apply contentOf_inlineOf

/-- Every step of a conversion keeps the content. -/
theorem steps_keepsContent :
  ∀ f ∈ steps, f.Obeys KeepsContent
  := by
  simp only [steps, List.forall_mem_cons]
  exact ⟨convertQuotedDisplays_keepsContent, collapseQuotedBrackets_keepsContent,
    convertDisplays_keepsContent, convertBracketBlocks_keepsContent,
    convertBrackets_keepsContent, convertParens_keepsContent, convertInlines_keepsContent,
    by simp⟩

/-! ### Line ends -/

/-- The content without the carriage returns of line ends. -/
theorem contentOf_toLf (t : Text) :
  contentOf (LineEnds.toLf t) = contentOf t
  := by
  induction t using LineEnds.toLf.induct with
  | case1 => rfl
  | case2 cs ih =>
    change contentOf (LineEnds.toLf cs) = contentOf cs
    apply ih
  | case3 c cs hcrlf ih =>
    rw [LineEnds.toLf]
    · rw [contentOf] at ih ⊢
      rw [List.filter_cons, ih, contentOf, contentOf, List.filter_cons]
    · apply hcrlf

/-- The content with carriage returns before the line feeds. -/
theorem contentOf_toCrlf (t : Text) :
  contentOf (LineEnds.toCrlf t) = contentOf t
  := by
  induction t with
  | nil => rfl
  | cons c cs ih =>
    rw [LineEnds.toCrlf_cons, contentOf_append, ih]
    split
    · next hc =>
      rw [hc]
      rfl
    · apply (contentOf_append [c] cs).symm

/-- A converted document has the content of the document. -/
theorem contentOf_convertDocument (d : Text) :
  contentOf (convertDocument d).text = contentOf d
  := by
  apply keepsContent_law.convertDocument steps_keepsContent
  intro t c _ h
  rw [KeepsContent, contentOf_toLf] at h
  rw [KeepsContent, contentOf_toCrlf, h]

end DollarMath
