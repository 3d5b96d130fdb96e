import DollarMath.Proofs.Form
import DollarMath.Proofs.Law
import DollarMath.Proofs.LineEnds
import DollarMath.Proofs.Pairing
import DollarMath.Proofs.Trimming

/-!
# The balance of dollars

A conversion writes four dollars for every block that it tallies and two for every inline
formula, and it takes none away.
-/

namespace DollarMath

/-- The dollars that the formulas of a tally are written with. -/
def Tally.dollars (a : Tally) : Int := 4 * a.block + 2 * a.inline

/-- A converted text has the dollars of the text and those of its tally. -/
def IsBalanced (t : Text) (c : Converted) : Prop :=
  (c.text.count '$' : Int) = t.count '$' + c.tally.dollars

/-- The dollars of two tallies together. -/
theorem Tally.dollars_add (a b : Tally) :
  (a + b).dollars = a.dollars + b.dollars
  := by
  change 4 * (a.block + b.block) + 2 * (a.inline + b.inline) = _
  rw [dollars, dollars]
  omega

/-- To gain as many dollars as are tallied is a law. -/
theorem isBalanced_law :
  Law IsBalanced
  where
  unchanged t := by
    change (t.count '$' : Int) = t.count '$' + (4 * 0 + 2 * 0)
    omega
  andThen {t a f} ha hf := by
    rw [IsBalanced] at ha hf ⊢
    rw [Converted.text_andThen, Converted.tally_andThen, Tally.dollars_add, hf, ha]
    omega
  append {s t a b} ha hb := by
    rw [IsBalanced] at ha hb ⊢
    rw [Converted.text_append, Converted.tally_append, Tally.dollars_add, List.count_append,
      List.count_append]
    omega

/-! ### The dollars of an enclosure -/

/-- A text none of whose characters is a dollar has no dollars. -/
theorem count_dollar_of_avoids {t : Text} (h : ∀ c ∈ t, (c == '$') = false) :
  t.count '$' = 0
  := by
  rw [List.count_eq_zero]
  intro hmem
  cases h '$' hmem

/-- A blank character is no dollar. -/
theorem ne_dollar_of_isBlank (c : Char) (h : isBlank c = true) :
  (c == '$') = false
  := by
  rw [beq_eq_false_iff_ne]
  rintro rfl
  exact absurd h (by decide)

/-- There is no dollar among spaces and tabs. -/
theorem IsSpaces.count_dollar {t : Text} (h : IsSpaces t) :
  t.count '$' = 0
  := count_dollar_of_avoids (h.avoids ne_dollar_of_isBlank)

/-- There is no dollar in a line end. -/
theorem IsLineEnd.count_dollar {t : Text} (h : IsLineEnd t) :
  t.count '$' = 0
  := count_dollar_of_avoids (h.avoids ne_dollar_of_isBlank)

/-- There is no dollar in a marker. -/
theorem IsMarker.count_dollar {t : Text} (h : IsMarker t) :
  t.count '$' = 0
  := by
  apply count_dollar_of_avoids
  apply h.avoids ne_dollar_of_isBlank
  intro c hc
  rw [beq_eq_false_iff_ne]
  rintro rfl
  exact absurd hc (by decide)

/-- The dollars of a quoted block are those of its body. -/
theorem QuotedForm.count_dollar
    {openMark closeMark : Text} {e : Enclosure} (h : QuotedForm openMark closeMark e)
    (hopen : openMark.count '$' = 0) (hclose : closeMark.count '$' = 0) :
  e.source.count '$' = e.body.count '$'
  := by
  obtain ⟨⟨hindent, hmarker⟩, ⟨s₁, s₂, n, ho, hs₁, hs₂, hn⟩, ⟨n', s₃, s₄, hc, hn', hs₃, hs₄⟩⟩ := h
  simp [Enclosure.source, hindent, hmarker, ho, hc, hs₁.count_dollar, hs₂.count_dollar,
    hs₃.count_dollar, hs₄.count_dollar, hn.count_dollar, hn'.count_dollar, hopen, hclose]

/-- The dollars of a bracket block are those of its body. -/
theorem BlockForm.count_dollar {e : Enclosure} (h : BlockForm e) :
  e.source.count '$' = e.body.count '$'
  := by
  obtain ⟨hindent, hmarker, ⟨s, n, ho, hs, hn⟩, ⟨n', s₁, s₂, hc, hn', hs₁, hs₂⟩⟩ := h
  simp [Enclosure.source, ho, hc, hindent.count_dollar, hmarker.count_dollar, hs.count_dollar,
    hs₁.count_dollar, hs₂.count_dollar, hn.count_dollar, hn'.count_dollar]

/-- The dollars of an enclosure are those of its body. -/
theorem Delimiter.count_dollar_source {d : Delimiter} {e : Enclosure} (h : d.HasForm e) :
  e.source.count '$' = e.body.count '$'
  := by
  cases d with
  | quotedDisplay => exact h.count_dollar rfl rfl
  | quotedBracket => exact h.count_dollar rfl rfl
  | display =>
    obtain ⟨body, rfl⟩ : ∃ body, e = ⟨[], [], ['\\', '['], body, ['\\', ']']⟩ := ⟨_, h⟩
    simp [Enclosure.source]
  | bracketBlock => exact BlockForm.count_dollar h
  | bracket =>
    obtain ⟨body, rfl⟩ : ∃ body, e = ⟨[], [], ['['], body, [']']⟩ := ⟨_, h.1⟩
    simp [Enclosure.source]
  | inline =>
    obtain ⟨body, rfl⟩ : ∃ body, e = ⟨[], [], ['\\', '('], body, ['\\', ')']⟩ := ⟨_, h.1⟩
    simp [Enclosure.source]

/-- The dollars of an enclosure are those of its body. -/
theorem Delimiter.count_dollar_of_mem
    {d : Delimiter} {t : Text} {m : Match Enclosure} (h : m ∈ d.reader.findAll t) :
  m.source.count '$' = m.value.body.count '$'
  := by
  obtain ⟨hform, hsource⟩ := form_of_mem_findAll h
  rw [hsource]
  apply count_dollar_source hform

/-! ### The steps -/

/-- A display has four dollars more than its body. -/
@[simp]
theorem count_dollar_displayOf (body : Text) :
  (displayOf body).count '$' = body.count '$' + 4
  := by
  simp [displayOf, count_trim (c := '$') (by decide)]

/-- An inline formula has two dollars more than its body. -/
@[simp]
theorem count_dollar_inlineOf (body : Text) :
  (inlineOf body).count '$' = body.count '$' + 2
  := by
  simp [inlineOf, count_trim (c := '$') (by decide)]

/-- A replacement that writes four dollars more for each construct is balanced, counted as
blocks. -/
theorem isBalanced_block
    {α : Type} {r : Reader α} {f : Match α → Option Text} {t : Text}
    (h : ∀ m ∈ r.findAll t, ∀ w, f m = some w → w.count '$' = m.source.count '$' + 4) :
  IsBalanced t (r.replace f t).block
  := by
  have hcount := r.count_text_replace f h
  change ((r.replace f t).text.count '$' : Int)
    = t.count '$' + (4 * ((r.replace f t).count : Int) + 2 * 0)
  omega

/-- A replacement that writes two dollars more for each construct is balanced, counted as
inline formulas. -/
theorem isBalanced_inline
    {α : Type} {r : Reader α} {f : Match α → Option Text} {t : Text}
    (h : ∀ m ∈ r.findAll t, ∀ w, f m = some w → w.count '$' = m.source.count '$' + 2) :
  IsBalanced t (r.replace f t).inline
  := by
  have hcount := r.count_text_replace f h
  change ((r.replace f t).text.count '$' : Int)
    = t.count '$' + (4 * 0 + 2 * ((r.replace f t).count : Int))
  omega

/-- The displays written for quoted blocks are balanced. -/
theorem convertQuotedDisplays_isBalanced :
  convertQuotedDisplays.Obeys IsBalanced
  := by
  intro t
  apply isBalanced_block
  intro m hm w hw
  obtain rfl := Option.some.inj hw
  rw [Delimiter.count_dollar_of_mem hm]
  simp [Quote.count_unquote (c := '$') (by decide) (by decide)]

/-- A collapsed block keeps its dollars, and nothing is tallied for it. -/
theorem collapseQuotedBrackets_isBalanced :
  collapseQuotedBrackets.Obeys IsBalanced
  := by
  intro t
  have hcount := Delimiter.quotedBracket.reader.count_text_replace (t := t) (c := '$') (k := 0)
    (fun m =>
      let body := Quote.unquote m.value.body
      if body.contains ']' || body.contains '$' || !isBracketMath body then none
      else some (['>', ' ', '[', ' '] ++ body ++ [' ', ']'])) (by
    intro m hm w hw
    obtain rfl := eq_of_ite_none_eq_some hw
    rw [Delimiter.count_dollar_of_mem hm]
    simp [Quote.count_unquote (c := '$') (by decide) (by decide)])
  rw [Nat.zero_mul, Nat.add_zero] at hcount
  change ((collapseQuotedBrackets t).text.count '$' : Int) = t.count '$' + (4 * 0 + 2 * 0)
  rw [collapseQuotedBrackets, Converted.unchanged, hcount]
  omega

/-- The displays written for backslash brackets are balanced. -/
theorem convertDisplays_isBalanced :
  convertDisplays.Obeys IsBalanced
  := by
  intro t
  apply isBalanced_block
  intro m hm w hw
  obtain rfl := Option.some.inj hw
  rw [Delimiter.count_dollar_of_mem hm, count_dollar_displayOf]

/-- The displays written for bracket blocks are balanced. -/
theorem convertBracketBlocks_isBalanced :
  convertBracketBlocks.Obeys IsBalanced
  := by
  intro t
  apply isBalanced_block
  intro m hm w hw
  obtain rfl := eq_of_ite_none_ite_eq_some hw
  have hmarker : IsMarker m.value.marker := (Delimiter.form_of_mem_findAll hm).1.marker
  rw [Delimiter.count_dollar_of_mem hm, List.count_append, hmarker.count_dollar,
    count_dollar_displayOf, Nat.zero_add]

/-- The displays written for brackets are balanced. -/
theorem convertBrackets_isBalanced :
  convertBrackets.Obeys IsBalanced
  := by
  intro t
  apply isBalanced_block
  intro m hm w hw
  obtain rfl := eq_of_ite_none_ite_eq_some hw
  rw [Delimiter.count_dollar_of_mem hm, count_dollar_displayOf]

/-- The formula of a parenthesis has two dollars more than the parenthesis. -/
theorem Paren.count_dollar_formulaOf (body primes : Text) :
  (formulaOf body primes).count '$' = body.count '$' + primes.count '$' + 2
  := by
  rw [formulaOf]
  split
  · simp [count_trim (c := '$') (by decide), Nat.add_assoc]
  · simp [count_trim (c := '$') (by decide), Nat.add_assoc]

/-- The formulas written for parentheses are balanced. -/
theorem convertParens_isBalanced :
  convertParens.Obeys IsBalanced
  := by
  intro t
  apply isBalanced_inline
  intro m hm w hw
  obtain ⟨body, primes, hsource, rfl, -, -⟩ := Paren.form_of_formula hm hw
  rw [hsource, Paren.count_dollar_formulaOf]
  simp

/-- The formulas written for backslash parentheses are balanced. -/
theorem convertInlines_isBalanced :
  convertInlines.Obeys IsBalanced
  := by
  intro t
  apply isBalanced_inline
  intro m hm w hw
  obtain rfl := Option.some.inj hw
  rw [Delimiter.count_dollar_of_mem hm, count_dollar_inlineOf]

/-- Every step of a conversion is balanced. -/
theorem steps_isBalanced :
  ∀ f ∈ steps, f.Obeys IsBalanced
  := by
  simp only [steps, List.forall_mem_cons]
  exact ⟨convertQuotedDisplays_isBalanced, collapseQuotedBrackets_isBalanced,
    convertDisplays_isBalanced, convertBracketBlocks_isBalanced, convertBrackets_isBalanced,
    convertParens_isBalanced, convertInlines_isBalanced, by simp⟩

/-- The conversion of a document is balanced. -/
theorem convertDocument_isBalanced :
  convertDocument.Obeys IsBalanced
  := by
  apply isBalanced_law.convertDocument steps_isBalanced
  intro t c _ h
  rw [IsBalanced] at h ⊢
  rw [LineEnds.count_toLf (by decide)] at h
  rw [LineEnds.count_toCrlf (by decide), h]

/-- The dollars of a converted document are those of the document, four for each block and
two for each inline formula of its tally. -/
theorem count_dollar_convertDocument (d : Text) :
  ((convertDocument d).text.count '$' : Int)
    = d.count '$' + 4 * (convertDocument d).tally.block + 2 * (convertDocument d).tally.inline
  := by
  have h := convertDocument_isBalanced d
  rw [IsBalanced, Tally.dollars] at h
  omega

end DollarMath
