import DollarMath.Proofs.Form
import DollarMath.Proofs.Law
import DollarMath.Proofs.LineEnds
import DollarMath.Proofs.Trimming

/-!
# Settled texts

A text is free of formulas if there is nothing in it for the steps that tally, and settled if
there is nothing for the collapsing of quoted brackets either, which tallies nothing.  Both
are said through what the readers find, without converting anything but the quoted brackets.
-/

namespace DollarMath

/-- A quoted block between plain brackets that is rewritten to one line. -/
def isCollapsible (m : Match Enclosure) : Bool :=
  let body := Quote.unquote m.value.body
  !body.contains ']' && !body.contains '$' && isBracketMath body

/-- A text after its quoted brackets have been collapsed. -/
def collapsed (t : Text) : Text :=
  (collapseQuotedBrackets t).text

/-- A text without any formula that would be tallied. -/
structure FormulaFree (t : Text) : Prop where
  /-- There is no quoted block between backslash brackets. -/
  quotedDisplays : Delimiter.quotedDisplay.reader.findAll t = []
  /-- There is no display between backslash brackets. -/
  displays : Delimiter.display.reader.findAll (collapsed t) = []
  /-- A bracket block that looks like mathematics touches dollar mathematics. -/
  blocks : ∀ m ∈ Delimiter.bracketBlock.reader.findAll (collapsed t),
    looksMath m.value.body = true → m.span.touches (dollarSpans .all (collapsed t)) = true
  /-- A bracket that may be converted touches dollar mathematics. -/
  brackets : ∀ m ∈ Delimiter.bracket.reader.findAll (collapsed t),
    isMathBracket m = true → m.span.touches (dollarSpans .all (collapsed t)) = true
  /-- Outside dollar mathematics no parenthesis is a formula. -/
  parens : ∀ k ∈ chunks .displays (collapsed t), k.isMath = false →
    ∀ j ∈ chunks .all k.text, j.isMath = false →
      ∀ m ∈ (Paren.read (Paren.pairs j.text)).findAll j.text, m.value.formula? = none
  /-- Outside displays there is no formula between backslash parentheses. -/
  inlines : ∀ k ∈ chunks .displays (collapsed t), k.isMath = false →
    Delimiter.inline.reader.findAll k.text = []

/-- A text that the conversions leave as it is. -/
structure Settled (t : Text) : Prop extends FormulaFree t where
  /-- No quoted block between plain brackets is rewritten to one line. -/
  quotedBrackets : ∀ m ∈ Delimiter.quotedBracket.reader.findAll t, isCollapsible m = false

/-! ### Tallies that are not negative -/

/-- The counts of a converted text are not negative. -/
def IsNonneg (_ : Text) (c : Converted) : Prop :=
  0 ≤ c.tally.inline ∧ 0 ≤ c.tally.block

/-- A converted text with nothing tallied is the text, and its counts are not negative. -/
def IsTallied (t : Text) (c : Converted) : Prop :=
  IsNonneg t c ∧ (c.tally.total = 0 → c.text = t)

/-- What tallies all that it rewrites has counts that are not negative. -/
theorem Conversion.Obeys.isNonneg {f : Conversion} (h : f.Obeys IsTallied) :
  f.Obeys IsNonneg
  := fun t => (h t).1

/-- An unchanged text has nothing tallied. -/
theorem total_unchanged (t : Text) :
  (Converted.unchanged t).tally.total = 0
  := rfl

/-- The totals of two tallies add up. -/
theorem Tally.total_add (a b : Tally) :
  (a + b).total = a.total + b.total
  := by
  change a.inline + b.inline + (a.block + b.block) = a.inline + a.block + (b.inline + b.block)
  omega

/-- Counts that are not negative stay so when they are added. -/
theorem IsNonneg.add
    {s t : Text} {a b : Converted} (u : Text) (w : Text) (ha : IsNonneg s a) (hb : IsNonneg t b) :
  IsNonneg u ⟨w, a.tally + b.tally⟩
  := by
  obtain ⟨hai, hab⟩ := ha
  obtain ⟨hbi, hbb⟩ := hb
  constructor
  · apply Int.add_nonneg hai hbi
  · apply Int.add_nonneg hab hbb

/-- A total of counts that are not negative is not negative. -/
theorem IsNonneg.total_nonneg {t : Text} {a : Converted} (h : IsNonneg t a) :
  0 ≤ a.tally.total
  := Int.add_nonneg h.1 h.2

/-- Two tallies have the total zero together exactly when each of them has. -/
theorem IsNonneg.total_add_eq_zero_iff
    {s t : Text} {a b : Converted} (ha : IsNonneg s a) (hb : IsNonneg t b) :
  (a.tally + b.tally).total = 0 ↔ a.tally.total = 0 ∧ b.tally.total = 0
  := by
  have ha := ha.total_nonneg
  have hb := hb.total_nonneg
  rw [Tally.total_add]
  omega

/-- A tally without negative counts is zero when its total is. -/
theorem IsNonneg.tally_eq_zero {t : Text} {a : Converted} (h : IsNonneg t a)
    (htotal : a.tally.total = 0) :
  a.tally = 0
  := by
  obtain ⟨w, i, b⟩ := a
  obtain ⟨hi, hb⟩ := h
  simp only [Tally.total] at hi hb htotal
  change Tally.mk i b = Tally.mk 0 0
  rw [Tally.mk.injEq]
  omega

/-- To have counts that are not negative is a law. -/
theorem isNonneg_law :
  Law IsNonneg
  where
  unchanged _ := ⟨Int.le_refl 0, Int.le_refl 0⟩
  andThen {t a f} ha hf := ha.add t (f a.text).text hf
  append {s t a b} ha hb := ha.add (s ++ t) (a.text ++ b.text) hb

/-- To tally all that is rewritten is a law. -/
theorem isTallied_law :
  Law IsTallied
  where
  unchanged t := ⟨isNonneg_law.unchanged t, fun _ => rfl⟩
  andThen {t a f} ha hf := by
    constructor
    · apply isNonneg_law.andThen ha.1 hf.1
    · intro htotal
      obtain ⟨hza, hzf⟩ := (ha.1.total_add_eq_zero_iff hf.1).mp htotal
      apply (hf.2 hzf).trans (ha.2 hza)
  append {s t a b} ha hb := by
    constructor
    · apply isNonneg_law.append ha.1 hb.1
    · intro htotal
      obtain ⟨hza, hzb⟩ := (ha.1.total_add_eq_zero_iff hb.1).mp htotal
      change a.text ++ b.text = s ++ t
      rw [ha.2 hza, hb.2 hzb]

section Replacement

variable {α : Type} (r : Reader α) (f : Match α → Option Text) (t : Text)

/-- A replacement tallies no display exactly when it replaces no match. -/
theorem total_block_eq_zero_iff :
  (r.replace f t).block.tally.total = 0 ↔ ∀ m ∈ r.findAll t, f m = none
  := by
  rw [← r.count_replace_eq_zero_iff]
  change (0 : Int) + ((r.replace f t).count : Int) = 0 ↔ _
  omega

/-- A replacement tallies no inline formula exactly when it replaces no match. -/
theorem total_inline_eq_zero_iff :
  (r.replace f t).inline.tally.total = 0 ↔ ∀ m ∈ r.findAll t, f m = none
  := by
  rw [← r.count_replace_eq_zero_iff]
  change ((r.replace f t).count : Int) + 0 = 0 ↔ _
  omega

/-- A replacement tallies all displays that it writes. -/
theorem isTallied_block :
  IsTallied t (r.replace f t).block
  := by
  constructor
  · exact ⟨Int.le_refl 0, Int.natCast_nonneg _⟩
  · intro htotal
    apply r.text_replace_of_none f ((total_block_eq_zero_iff r f t).mp htotal)

/-- A replacement tallies all inline formulas that it writes. -/
theorem isTallied_inline :
  IsTallied t (r.replace f t).inline
  := by
  constructor
  · exact ⟨Int.natCast_nonneg _, Int.le_refl 0⟩
  · intro htotal
    apply r.text_replace_of_none f ((total_inline_eq_zero_iff r f t).mp htotal)

end Replacement

/-! ### Steps that tally nothing -/

/-- Texts side by side, each converted by itself, tally nothing exactly when none of them
does. -/
theorem total_concat_eq_zero_iff
    {κ : Type} (ks : List κ) (source : κ → Text) (convert : κ → Converted)
    (h : ∀ k ∈ ks, IsNonneg (source k) (convert k)) :
  (Converted.concat (ks.map convert)).tally.total = 0 ↔ ∀ k ∈ ks, (convert k).tally.total = 0
  := by
  induction ks with
  | nil => simp [total_unchanged, Converted.concat]
  | cons k ks ih =>
    have hk := h k List.mem_cons_self
    have hks : ∀ k' ∈ ks, IsNonneg (source k') (convert k') :=
      fun k' hk' => h k' (List.mem_cons_of_mem _ hk')
    rw [List.forall_mem_cons, ← ih hks]
    apply hk.total_add_eq_zero_iff (isNonneg_law.concat ks source convert hks)

/-- A conversion between dollar mathematics tallies nothing exactly when it tallies nothing in any
of the chunks between. -/
theorem total_between_eq_zero_iff
    {f : Conversion} (hf : f.Obeys IsNonneg) (scope : Dollars.Scope) (t : Text) :
  ((f.between scope) t).tally.total = 0
    ↔ ∀ k ∈ chunks scope t, k.isMath = false → (f k.text).tally.total = 0
  := by
  rw [Conversion.between, total_concat_eq_zero_iff (chunks scope t) Chunk.text]
  · apply forall₂_congr
    intro k _
    cases k.isMath with
    | true => simp [total_unchanged]
    | false => simp
  · intro k _
    split
    · apply isNonneg_law.unchanged k.text
    · apply hf k.text

/-- Some conversions in order, of which the first one tallies all that it rewrites, tally
nothing exactly when the first one and the others tally nothing. -/
theorem total_inOrder_cons_eq_zero_iff
    {f : Conversion} {fs : List Conversion} (hf : f.Obeys IsTallied)
    (hfs : ∀ g ∈ fs, g.Obeys IsNonneg) (t : Text) :
  (Conversion.inOrder (f :: fs) t).tally.total = 0
    ↔ (f t).tally.total = 0 ∧ (Conversion.inOrder fs t).tally.total = 0
  := by
  have hiff := (hf t).1.total_add_eq_zero_iff (isNonneg_law.inOrder hfs (f t).text)
  rw [Conversion.inOrder_cons]
  apply hiff.trans
  apply and_congr_right
  intro hzero
  rw [(hf t).2 hzero]

/-- All quoted displays that are rewritten are tallied. -/
theorem convertQuotedDisplays_isTallied :
  convertQuotedDisplays.Obeys IsTallied
  := fun t => isTallied_block _ _ t

/-- All displays between backslash brackets are tallied. -/
theorem convertDisplays_isTallied :
  convertDisplays.Obeys IsTallied
  := fun t => isTallied_block _ _ t

/-- All bracket blocks that are rewritten are tallied. -/
theorem convertBracketBlocks_isTallied :
  convertBracketBlocks.Obeys IsTallied
  := fun t => isTallied_block _ _ t

/-- All brackets that are rewritten are tallied. -/
theorem convertBrackets_isTallied :
  convertBrackets.Obeys IsTallied
  := fun t => isTallied_block _ _ t

/-- All parentheses that are rewritten are tallied. -/
theorem convertParens_isTallied :
  convertParens.Obeys IsTallied
  := fun t => isTallied_inline _ _ t

/-- All formulas in backslash parentheses are tallied. -/
theorem convertInlines_isTallied :
  convertInlines.Obeys IsTallied
  := fun t => isTallied_inline _ _ t

/-- All inline formulas that are written are tallied. -/
theorem convertAllInlines_isTallied :
  convertAllInlines.Obeys IsTallied
  := isTallied_law.convertAllInlines convertParens_isTallied convertInlines_isTallied

/-- No step of a conversion has a negative count. -/
theorem steps_isNonneg :
  ∀ f ∈ steps, f.Obeys IsNonneg
  := by
  simp only [steps, List.forall_mem_cons]
  exact ⟨convertQuotedDisplays_isTallied.isNonneg, fun _ => isNonneg_law.unchanged _,
    convertDisplays_isTallied.isNonneg, convertBracketBlocks_isTallied.isNonneg,
    convertBrackets_isTallied.isNonneg, convertParens_isTallied.isNonneg,
    convertInlines_isTallied.isNonneg, by simp⟩

/-- No quoted display is tallied exactly when there is none. -/
theorem total_convertQuotedDisplays_eq_zero_iff (t : Text) :
  (convertQuotedDisplays t).tally.total = 0 ↔ Delimiter.quotedDisplay.reader.findAll t = []
  := by
  rw [convertQuotedDisplays, total_block_eq_zero_iff, List.eq_nil_iff_forall_not_mem]
  simp

/-- No display between backslash brackets is tallied exactly when there is none. -/
theorem total_convertDisplays_eq_zero_iff (t : Text) :
  (convertDisplays t).tally.total = 0 ↔ Delimiter.display.reader.findAll t = []
  := by
  rw [convertDisplays, total_block_eq_zero_iff, List.eq_nil_iff_forall_not_mem]
  simp

/-- No bracket block is tallied exactly when all that look like mathematics touch dollar
mathematics. -/
theorem total_convertBracketBlocks_eq_zero_iff (t : Text) :
  (convertBracketBlocks t).tally.total = 0
    ↔ ∀ m ∈ Delimiter.bracketBlock.reader.findAll t,
      looksMath m.value.body = true → m.span.touches (dollarSpans .all t) = true
  := by
  rw [convertBracketBlocks, Reader.replaceOutside, total_block_eq_zero_iff]
  apply forall₂_congr
  intro m _
  cases m.span.touches (dollarSpans .all t) <;> simp

/-- No bracket is tallied exactly when all that are mathematics touch dollar mathematics. -/
theorem total_convertBrackets_eq_zero_iff (t : Text) :
  (convertBrackets t).tally.total = 0
    ↔ ∀ m ∈ Delimiter.bracket.reader.findAll t,
      isMathBracket m = true → m.span.touches (dollarSpans .all t) = true
  := by
  rw [convertBrackets, Reader.replaceOutside, total_block_eq_zero_iff]
  apply forall₂_congr
  intro m _
  cases m.span.touches (dollarSpans .all t) <;> simp

/-- No inline formula is tallied exactly when there is neither a parenthesis that is a formula
outside dollar mathematics nor a formula in backslash parentheses. -/
theorem total_convertAllInlines_eq_zero_iff (t : Text) :
  (convertAllInlines t).tally.total = 0
    ↔ (∀ j ∈ chunks .all t, j.isMath = false →
        ∀ m ∈ (Paren.read (Paren.pairs j.text)).findAll j.text, m.value.formula? = none)
      ∧ Delimiter.inline.reader.findAll t = []
  := by
  have hparens : (convertParens.between .all).Obeys IsTallied :=
    isTallied_law.between convertParens_isTallied .all
  have hinlines : ∀ g ∈ [convertInlines], g.Obeys IsNonneg := by
    simpa using convertInlines_isTallied.isNonneg
  rw [convertAllInlines, total_inOrder_cons_eq_zero_iff hparens hinlines]
  apply and_congr
  · rw [total_between_eq_zero_iff convertParens_isTallied.isNonneg]
    apply forall₃_congr
    intro j _ _
    rw [convertParens, total_inline_eq_zero_iff]
  · rw [Conversion.inOrder_singleton, convertInlines, total_inline_eq_zero_iff,
      List.eq_nil_iff_forall_not_mem]
    simp

/-! ### Free of formulas, and settled -/

/-- The conversion of a text is that of its collapsed text, but for the quoted displays. -/
theorem total_convertAllDisplays_eq_zero_iff (t : Text) :
  (convertAllDisplays t).tally.total = 0
    ↔ Delimiter.quotedDisplay.reader.findAll t = []
      ∧ (convertDisplays (collapsed t)).tally.total = 0
      ∧ (convertBracketBlocks (collapsed t)).tally.total = 0
      ∧ (convertBrackets (collapsed t)).tally.total = 0
  := by
  have hsteps := steps_isNonneg
  simp only [steps, List.forall_mem_cons] at hsteps
  obtain ⟨-, hcollapse, hdisplays, hblocks, hbrackets, -⟩ := hsteps
  rw [convertAllDisplays, total_inOrder_cons_eq_zero_iff convertQuotedDisplays_isTallied
    (by simp [hcollapse, hdisplays, hblocks, hbrackets]),
    total_convertQuotedDisplays_eq_zero_iff]
  apply and_congr_right
  intro _
  have hcollapsed : (Conversion.inOrder [collapseQuotedBrackets, convertDisplays,
      convertBracketBlocks, convertBrackets] t).tally.total
      = (Conversion.inOrder [convertDisplays, convertBracketBlocks, convertBrackets]
          (collapsed t)).tally.total := by
    rw [Conversion.inOrder_cons]
    rw [Converted.tally_andThen, Tally.total_add]
    apply Int.zero_add _
  rw [hcollapsed, total_inOrder_cons_eq_zero_iff convertDisplays_isTallied
    (by simp [hblocks, hbrackets]),
    total_inOrder_cons_eq_zero_iff convertBracketBlocks_isTallied (by simp [hbrackets]),
    Conversion.inOrder_singleton]

/-- Without any tallied display, the displays are converted by collapsing alone. -/
theorem text_convertAllDisplays_of_total_eq_zero
    {t : Text} (h : (convertAllDisplays t).tally.total = 0) :
  (convertAllDisplays t).text = collapsed t
  := by
  obtain ⟨hquoted, hdisplays, hblocks, hbrackets⟩ :=
    (total_convertAllDisplays_eq_zero_iff t).mp h
  have hquoted := (total_convertQuotedDisplays_eq_zero_iff t).mpr hquoted
  rw [text_convertAllDisplays, ← collapsed, (convertQuotedDisplays_isTallied t).2 hquoted,
    (convertDisplays_isTallied _).2 hdisplays, (convertBracketBlocks_isTallied _).2 hblocks,
    (convertBrackets_isTallied _).2 hbrackets]

/-- The conversion of all displays has no negative count. -/
theorem convertAllDisplays_isNonneg :
  convertAllDisplays.Obeys IsNonneg
  := isNonneg_law.convertAllDisplays steps_isNonneg

/-- All inline formulas written between displays are tallied. -/
theorem convertAllInlines_between_isTallied :
  (convertAllInlines.between .displays).Obeys IsTallied
  := isTallied_law.between convertAllInlines_isTallied .displays

/-- Nothing is tallied exactly in the texts that are free of formulas. -/
theorem total_convertMath_eq_zero_iff (t : Text) :
  (convertMath t).tally.total = 0 ↔ FormulaFree t
  := by
  have hsum := (convertAllDisplays_isNonneg t).total_add_eq_zero_iff
    (convertAllInlines_between_isTallied (convertAllDisplays t).text).1
  rw [convertMath_eq_andThen]
  apply hsum.trans
  constructor
  · rintro ⟨hzero, hinlines⟩
    rw [text_convertAllDisplays_of_total_eq_zero hzero,
      total_between_eq_zero_iff convertAllInlines_isTallied.isNonneg] at hinlines
    obtain ⟨hquoted, hdisplays, hblocks, hbrackets⟩ :=
      (total_convertAllDisplays_eq_zero_iff t).mp hzero
    constructor
    · apply hquoted
    · apply (total_convertDisplays_eq_zero_iff _).mp hdisplays
    · apply (total_convertBracketBlocks_eq_zero_iff _).mp hblocks
    · apply (total_convertBrackets_eq_zero_iff _).mp hbrackets
    · intro k hk hkind
      apply ((total_convertAllInlines_eq_zero_iff _).mp (hinlines k hk hkind)).1
    · intro k hk hkind
      apply ((total_convertAllInlines_eq_zero_iff _).mp (hinlines k hk hkind)).2
  · intro h
    have hzero : (convertAllDisplays t).tally.total = 0 := by
      apply (total_convertAllDisplays_eq_zero_iff t).mpr
      refine ⟨h.quotedDisplays, ?_, ?_, ?_⟩
      · apply (total_convertDisplays_eq_zero_iff _).mpr h.displays
      · apply (total_convertBracketBlocks_eq_zero_iff _).mpr h.blocks
      · apply (total_convertBrackets_eq_zero_iff _).mpr h.brackets
    use hzero
    rw [text_convertAllDisplays_of_total_eq_zero hzero,
      total_between_eq_zero_iff convertAllInlines_isTallied.isNonneg]
    intro k hk hkind
    apply (total_convertAllInlines_eq_zero_iff _).mpr ⟨h.parens k hk hkind, h.inlines k hk hkind⟩

/-- In a text that is free of formulas, only quoted brackets are collapsed. -/
theorem text_convertMath_of_formulaFree {t : Text} (h : FormulaFree t) :
  (convertMath t).text = collapsed t
  := by
  have hzero := (total_convertMath_eq_zero_iff t).mpr h
  rw [convertMath_eq_andThen] at hzero ⊢
  have htallied := convertAllInlines_between_isTallied (convertAllDisplays t).text
  obtain ⟨hdisplays, hinlines⟩ :=
    ((convertAllDisplays_isNonneg t).total_add_eq_zero_iff htallied.1).mp hzero
  rw [Converted.text_andThen, htallied.2 hinlines]
  apply text_convertAllDisplays_of_total_eq_zero hdisplays

/-! ### Collapsing -/

/-- The line that a collapsible block is rewritten to. -/
def collapsedLine (m : Match Enclosure) : Text :=
  ['>', ' ', '[', ' '] ++ Quote.unquote m.value.body ++ [' ', ']']

/-- Collapsing rewrites the collapsible blocks. -/
theorem collapsed_eq_replace (t : Text) :
  collapsed t
    = (Delimiter.quotedBracket.reader.replace
        (fun m => if isCollapsible m then some (collapsedLine m) else none) t).text
  := by
  rw [collapsed, collapseQuotedBrackets, Converted.unchanged]
  dsimp only
  congr 2
  funext m
  by_cases h : isCollapsible m = true
  · rw [if_pos h, if_neg]
    · rfl
    · simp only [isCollapsible, Bool.and_eq_true, Bool.not_eq_true'] at h
      obtain ⟨⟨hclose, hdollar⟩, hmath⟩ := h
      rw [hclose, hdollar, hmath]
      decide
  · rw [if_neg h, if_pos]
    simp only [isCollapsible, Bool.and_eq_true, Bool.not_eq_true'] at h
    simp only [Bool.or_eq_true, Bool.not_eq_true']
    by_contra hnot
    apply h
    simpa [and_assoc, not_or] using hnot

/-- A text without collapsible blocks stays as it is when it is collapsed. -/
theorem collapsed_eq_self
    {t : Text} (h : ∀ m ∈ Delimiter.quotedBracket.reader.findAll t, isCollapsible m = false) :
  collapsed t = t
  := by
  rw [collapsed_eq_replace]
  apply Reader.text_replace_of_none
  intro m hm
  rw [h m hm]
  rfl

/-- A collapsed block has fewer line feeds than the block. -/
theorem count_newline_collapsedLine_lt
    {t : Text} {m : Match Enclosure} (h : m ∈ Delimiter.quotedBracket.reader.findAll t) :
  (collapsedLine m).count '\n' < m.source.count '\n'
  := by
  have hline : (collapsedLine m).count '\n' = 0 := by
    rw [List.count_eq_zero, collapsedLine]
    simp [Quote.newline_not_mem_unquote]
  obtain ⟨hform, hsource⟩ := Delimiter.form_of_mem_findAll h
  rw [hline, hsource]
  apply List.count_pos_iff.mpr (QuotedForm.newline_mem_source hform)

/-- Every block that is collapsed takes line feeds away. -/
theorem count_newline_collapsed_add_le (t : Text) :
  (collapsed t).count '\n'
      + (Delimiter.quotedBracket.reader.findAll t).countP isCollapsible
    ≤ t.count '\n'
  := by
  have hcount : (Delimiter.quotedBracket.reader.replace
      (fun m => if isCollapsible m then some (collapsedLine m) else none) t).count
      = (Delimiter.quotedBracket.reader.findAll t).countP isCollapsible := by
    apply List.countP_congr
    intro m _
    cases hm : isCollapsible m <;> simp [hm]
  rw [collapsed_eq_replace, ← hcount]
  apply Reader.count_text_replace_add_le
  intro m hm w hw
  obtain ⟨-, heq⟩ := Option.ite_none_right_eq_some.mp hw
  obtain rfl := Option.some.inj heq
  exact count_newline_collapsedLine_lt hm

/-- Collapsing brings no line feeds. -/
theorem count_newline_collapsed_le (t : Text) :
  (collapsed t).count '\n' ≤ t.count '\n'
  := le_trans (Nat.le_add_right _ _) (count_newline_collapsed_add_le t)

/-- A text that keeps its line feeds when it is collapsed has nothing to collapse. -/
theorem not_isCollapsible_of_count_newline
    {t : Text} (h : (collapsed t).count '\n' = t.count '\n') :
  ∀ m ∈ Delimiter.quotedBracket.reader.findAll t, isCollapsible m = false
  := by
  have hle := count_newline_collapsed_add_le t
  have hzero : (Delimiter.quotedBracket.reader.findAll t).countP isCollapsible = 0 := by omega
  intro m hm
  simpa using List.countP_eq_zero.mp hzero m hm

/-- A text is kept, with nothing tallied, exactly when it is settled. -/
theorem convertMath_eq_self_iff (t : Text) :
  (convertMath t).tally.total = 0 ∧ (convertMath t).text = t ↔ Settled t
  := by
  rw [total_convertMath_eq_zero_iff]
  constructor
  · rintro ⟨hfree, htext⟩
    use hfree
    apply not_isCollapsible_of_count_newline
    rw [← text_convertMath_of_formulaFree hfree, htext]
  · intro h
    use h.toFormulaFree
    rw [text_convertMath_of_formulaFree h.toFormulaFree]
    apply collapsed_eq_self h.quotedBrackets

instance (t : Text) : Decidable (Settled t) :=
  decidable_of_iff _ (convertMath_eq_self_iff t)

end DollarMath
