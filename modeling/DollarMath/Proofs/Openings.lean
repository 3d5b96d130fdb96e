import DollarMath.Proofs.Characters
import DollarMath.Proofs.Chunks
import DollarMath.Proofs.Settled

/-!
# The opening lines of displays

A display that is written starts with two dollars and a line feed.  The line feed stays behind its
dollar: either both belong to a display between dollars, or they stand at the front of the text
behind one, where no inline formula can start.
-/

namespace DollarMath

open scoped List

/-! ### Displays that are written -/

/-- What is written stands in the new text. -/
theorem isInfix_text_replace
    {α : Type} {r : Reader α} {f : Match α → Option Text} {t v : Text} {m : Match α}
    (hm : m ∈ r.findAll t) (hv : f m = some v) :
  v <:+: (r.replace f t).text
  := by
  have hwritten : Piece.written f (.found m) = v := by rw [Piece.written, hv, Option.getD_some]
  rw [Reader.text_replace, List.flatMap_def, ← hwritten]
  apply List.infix_of_mem_flatten
  apply List.mem_map_of_mem
  apply Reader.mem_findAll_iff.mp hm

/-- The displays that are tallied are written, and without any the text is kept. -/
structure ShowsDisplays (t : Text) (c : Converted) : Prop where
  /-- The count is not negative. -/
  nonneg : 0 ≤ c.tally.block
  /-- Without displays tallied, the text is kept. -/
  kept : c.tally.block = 0 → c.text = t
  /-- A display that is tallied is found in the new text. -/
  shown : c.tally.block ≠ 0 → ∃ body, displayOf body <:+: c.text

/-- The displays of two conversions add up. -/
theorem block_andThen (a : Converted) (f : Conversion) :
  (a.andThen f).tally.block = a.tally.block + (f a.text).tally.block
  := rfl

/-- So do those of two texts. -/
theorem block_append (a b : Converted) :
  (a ++ b).tally.block = a.tally.block + b.tally.block
  := rfl

/-- To show each display that is tallied is a law. -/
theorem showsDisplays_law :
  Law ShowsDisplays
  where
  unchanged t := ⟨Int.le_refl 0, fun _ => rfl, fun h => absurd rfl h⟩
  andThen {t a f} ha hf := by
    have hna := ha.nonneg
    have hnf := hf.nonneg
    constructor
    · rw [block_andThen]
      omega
    · rw [block_andThen]
      intro hzero
      apply (hf.kept (by omega)).trans (ha.kept (by omega))
    · rw [block_andThen, Converted.text_andThen]
      intro hne
      by_cases hzero : (f a.text).tally.block = 0
      · rw [hf.kept hzero]
        apply ha.shown (by omega)
      · apply hf.shown hzero
  append {s t a b} ha hb := by
    have hna := ha.nonneg
    have hnb := hb.nonneg
    constructor
    · rw [block_append]
      omega
    · rw [block_append, Converted.text_append]
      intro hzero
      rw [ha.kept (by omega), hb.kept (by omega)]
    · rw [block_append, Converted.text_append]
      intro hne
      by_cases hzero : a.tally.block = 0
      · obtain ⟨body, hbody⟩ := hb.shown (by omega)
        exact ⟨body, hbody.trans (List.suffix_append _ _).isInfix⟩
      · obtain ⟨body, hbody⟩ := ha.shown hzero
        exact ⟨body, hbody.trans (List.prefix_append _ _).isInfix⟩

/-- A replacement that writes displays, perhaps with something in front. -/
theorem showsDisplays_block
    {α : Type} (r : Reader α) (f : Match α → Option Text) (t : Text)
    (h : ∀ m v, f m = some v → ∃ body, displayOf body <:+: v) :
  ShowsDisplays t (r.replace f t).block
  := by
  have hblock : (r.replace f t).block.tally.block = 0 ↔ ∀ m ∈ r.findAll t, f m = none := by
    rw [← r.count_replace_eq_zero_iff]
    apply Int.natCast_eq_zero
  constructor
  · apply Int.natCast_nonneg
  · intro hzero
    apply r.text_replace_of_none f (hblock.mp hzero)
  · intro hne
    rw [Ne, hblock] at hne
    push Not at hne
    obtain ⟨m, hm, hsome⟩ := hne
    obtain ⟨v, hv⟩ := Option.ne_none_iff_exists'.mp hsome
    obtain ⟨body, hbody⟩ := h m v hv
    exact ⟨body, hbody.trans (isInfix_text_replace hm hv)⟩

/-- Displays between backslash brackets are shown. -/
theorem convertDisplays_showsDisplays :
  convertDisplays.Obeys ShowsDisplays
  := by
  intro t
  apply showsDisplays_block
  intro m v hv
  obtain rfl := Option.some.inj hv
  exact ⟨_, List.infix_rfl⟩

/-- So are bracket blocks. -/
theorem convertBracketBlocks_showsDisplays :
  convertBracketBlocks.Obeys ShowsDisplays
  := by
  intro t
  apply showsDisplays_block
  intro m v hv
  obtain rfl := eq_of_ite_none_ite_eq_some hv
  exact ⟨_, (List.suffix_append _ _).isInfix⟩

/-- So are brackets. -/
theorem convertBrackets_showsDisplays :
  convertBrackets.Obeys ShowsDisplays
  := by
  intro t
  apply showsDisplays_block
  intro m v hv
  obtain rfl := eq_of_ite_none_ite_eq_some hv
  exact ⟨_, List.infix_rfl⟩

/-- A text without line feeds has no quoted blocks. -/
theorem findAll_quoted_eq_nil {t : Text} (h : '\n' ∉ t) :
  Delimiter.quotedDisplay.reader.findAll t = []
    ∧ Delimiter.quotedBracket.reader.findAll t = []
  := by
  have hnone : ∀ d : Delimiter, (∀ e, d.HasForm e → '\n' ∈ e.source) → d.reader.findAll t = [] := by
    intro d hd
    rw [List.eq_nil_iff_forall_not_mem]
    intro m hm
    obtain ⟨hform, hsource⟩ := Delimiter.form_of_mem_findAll hm
    apply h
    apply (Reader.source_isInfix_of_mem_findAll hm).subset
    rw [hsource]
    apply hd _ hform
  constructor
  · apply hnone
    exact fun e he => QuotedForm.newline_mem_source he
  · apply hnone
    exact fun e he => QuotedForm.newline_mem_source he

/-- Where no match is replaced, the text is unchanged. -/
theorem block_replace_of_none
    {α : Type} {r : Reader α} {f : Match α → Option Text} {t : Text}
    (h : ∀ m ∈ r.findAll t, f m = none) :
  (r.replace f t).block = .unchanged t
  := by
  rw [Replaced.block, r.text_replace_of_none f h, (r.count_replace_eq_zero_iff f t).mpr h]
  rfl

/-- In a text without line feeds the displays that are tallied are written. -/
theorem convertAllDisplays_showsDisplays {t : Text} (h : '\n' ∉ t) :
  ShowsDisplays t (convertAllDisplays t)
  := by
  obtain ⟨hdisplay, hbracket⟩ := findAll_quoted_eq_nil h
  have hquoted : convertQuotedDisplays t = .unchanged t := by
    apply block_replace_of_none
    rw [hdisplay]
    simp
  have hcollapse : collapseQuotedBrackets t = .unchanged t := by
    rw [collapseQuotedBrackets, Reader.text_replace_of_none]
    rw [hbracket]
    simp
  rw [convertAllDisplays, Conversion.inOrder_cons, hquoted, Conversion.unchanged_andThen,
    Conversion.inOrder_cons, hcollapse, Conversion.unchanged_andThen]
  apply showsDisplays_law.inOrder
  simp only [List.forall_mem_cons]
  exact ⟨convertDisplays_showsDisplays, convertBracketBlocks_showsDisplays,
    convertBrackets_showsDisplays, by simp⟩

/-! ### The front of a text -/

/-- A conversion leaves a text as it is at the front of any text. -/
def Conversion.KeepsFront (f : Conversion) (s : Text) : Prop :=
  ∀ t, s <+: (f (s ++ t)).text

/-- A replacement leaves a text where no match starts. -/
theorem prefix_text_replace
    {α : Type} {r : Reader α} (f : Match α → Option Text) {s t : Text}
    (h : ∀ u c v, s = u ++ c :: v → r.Passes (Place.start.after u) (c :: (v ++ t))) :
  s <+: (r.replace f (s ++ t)).text
  := by
  have hchars : (s.map Piece.char).flatMap (Piece.written f) = s := by
    rw [List.flatMap_map]
    apply List.flatMap_singleton'
  rw [Reader.text_replace, Reader.pieces, Reader.piecesFrom_append_of_forall_passes h,
    List.flatMap_append, hchars]
  apply List.prefix_append

/-- The front of the first chunk is left as it is. -/
theorem Conversion.KeepsFront.between {f : Conversion} {scope : Dollars.Scope} {s : Text}
    (hf : f.KeepsFront s) (hne : s ≠ [])
    (h : ∀ p u c v t, s = u ++ c :: v → (Dollars.read scope).Passes p (c :: (v ++ t))) :
  (f.between scope).KeepsFront s
  := by
  intro t
  rw [text_between, chunks, Reader.pieces,
    Reader.piecesFrom_append_of_forall_passes fun u c v heq => h _ u c v t heq]
  obtain ⟨w, ks, hofPieces⟩ := Chunk.exists_ofPieces_map_char_append hne
    ((Dollars.read scope).piecesFrom 0 (Place.start.after s) t)
  rw [hofPieces, List.flatMap_cons]
  apply (hf w).trans (List.prefix_append _ _)

/-! ### Fronts without inline formulas -/

/-- A text where no inline formula starts, whatever follows: it has neither backslashes nor opening
parentheses, and its dollars stand at the end of a line. -/
def IsPlainFront (s : Text) : Prop :=
  ∀ u c v, s = u ++ c :: v → c ≠ '\\' ∧ c ≠ '(' ∧ (c = '$' → v.head? = some '\n')

/-- A line feed may stand behind the body of a display. -/
theorem isPlainFront_newline :
  IsPlainFront ['\n']
  := by
  intro u c v h
  simp only [List.cons_eq_append_iff, List.cons.injEq, List.nil_eq, List.append_eq_nil_iff,
    reduceCtorEq, and_false, exists_false, or_false] at h
  obtain ⟨rfl, rfl, rfl⟩ := h
  decide

/-- So may a dollar at the end of a line. -/
theorem isPlainFront_dollar :
  IsPlainFront ['$', '\n']
  := by
  intro u c v h
  rw [List.cons_eq_append_iff] at h
  rcases h with ⟨rfl, h⟩ | ⟨u, rfl, h⟩
  · obtain ⟨rfl, rfl⟩ := List.cons.inj h
    decide
  · exact isPlainFront_newline u c v h

/-- No inline formula starts with a dollar at the end of a line. -/
theorem Dollars.passes_newline {scope : Scope} {p : Place} {t : Text} :
  (read scope).Passes p ('$' :: '\n' :: t)
  := by
  intro d k h
  rw [read.eq_def] at h
  split at h
  · next heq =>
    obtain ⟨-, heq⟩ := List.cons.inj heq
    cases (List.cons.inj heq).1
  · next heq =>
    obtain rfl := (List.cons.inj heq).2
    cases scope with
    | displays => cases h
    | all =>
      dsimp only at h
      split at h
      · cases h
      · obtain ⟨hbody, -⟩ := Option.ite_none_right_eq_some.mp h
        have hblank : isBlank '\n' = true := by decide
        simp [isInlineBody, hblank] at hbody
  · cases h

/-- An item starts with a backslash or an opening parenthesis. -/
theorem Paren.passes_of_ne {pairs : List Pair} {p : Place} {c : Char} {t : Text}
    (hbackslash : c ≠ '\\') (hparen : c ≠ '(') :
  (read pairs).Passes p (c :: t)
  := by
  intro item k h
  rw [read] at h
  split at h
  · next hread =>
    obtain ⟨-, rfl⟩ := Prod.mk.inj (Option.some.inj h)
    exact Delimiter.passes_inline_of_ne hbackslash _ _ hread
  · obtain ⟨r, hread, -⟩ := Option.map_eq_some_iff.mp h
    rw [readMath.eq_def] at hread
    split at hread
    · next heq => exact hparen (List.cons.inj heq).1
    · cases hread

namespace IsPlainFront

variable {s : Text} (hs : IsPlainFront s)
include hs

/-- No dollar mathematics starts in such a front. -/
theorem passes_dollars {scope : Dollars.Scope} (p : Place) (u : Text) (c : Char) (v t : Text)
    (h : s = u ++ c :: v) :
  (Dollars.read scope).Passes p (c :: (v ++ t))
  := by
  obtain ⟨-, -, hdollar⟩ := hs u c v h
  by_cases hc : c = '$'
  · obtain ⟨v', rfl⟩ := List.head?_eq_some_iff.mp (hdollar hc)
    rw [hc]
    apply Dollars.passes_newline
  · apply Dollars.passes_of_ne hc

/-- The conversion of parentheses keeps it. -/
theorem keepsFront_convertParens :
  convertParens.KeepsFront s
  := by
  intro t
  apply prefix_text_replace
  intro u c v h
  obtain ⟨hbackslash, hparen, -⟩ := hs u c v h
  apply Paren.passes_of_ne hbackslash hparen

/-- So does that of formulas in backslash parentheses. -/
theorem keepsFront_convertInlines :
  convertInlines.KeepsFront s
  := by
  intro t
  apply prefix_text_replace
  intro u c v h
  apply Delimiter.passes_inline_of_ne (hs u c v h).1

/-- The inline formulas are converted behind such a front. -/
theorem keepsFront_convertAllInlines (hne : s ≠ []) :
  convertAllInlines.KeepsFront s
  := by
  intro t
  obtain ⟨w, hw⟩ := hs.keepsFront_convertParens.between hne hs.passes_dollars t
  rw [convertAllInlines, Conversion.inOrder_cons, Converted.text_andThen,
    Conversion.inOrder_singleton, ← hw]
  apply hs.keepsFront_convertInlines

end IsPlainFront

/-! ### Between the displays -/

/-- The opening line of a display, among the pieces of a text: in a display between dollars, or
just behind one. -/
inductive HasOpening (ps : List (Piece Dollars)) : Prop
  /-- A display between dollars holds the line end. -/
  | within {m : Match Dollars} (hm : .found m ∈ ps) (h : ['$', '\n'] <:+: m.source)
  /-- A line feed follows a display between dollars. -/
  | behind (ps₁ : List (Piece Dollars)) {m : Match Dollars} {ps₂ : List (Piece Dollars)}
    (h : ps = ps₁ ++ .found m :: .char '\n' :: ps₂) (hlast : m.source.getLast? = some '$')
  /-- A dollar and a line feed follow a display between dollars. -/
  | after (ps₁ : List (Piece Dollars)) {m : Match Dollars} {ps₂ : List (Piece Dollars)}
    (h : ps = ps₁ ++ .found m :: .char '$' :: .char '\n' :: ps₂)

/-- Another piece in front does not matter. -/
theorem HasOpening.cons {ps : List (Piece Dollars)} (h : HasOpening ps) (piece : Piece Dollars) :
  HasOpening (piece :: ps)
  := by
  cases h with
  | within hm h => exact .within (List.mem_cons_of_mem _ hm) h
  | behind ps₁ h hlast => exact .behind (piece :: ps₁) (by rw [h]; rfl) hlast
  | after ps₁ h => exact .after (piece :: ps₁) (by rw [h]; rfl)

/-- The opening line of a display that is closed is found among the pieces. -/
theorem hasOpening_of_infix (p : Place) (t : Text) :
  ∀ x y, t = x ++ ('$' :: '$' :: '\n' :: y) → ['$', '$'] <:+: y →
    HasOpening ((Dollars.read .displays).piecesFrom 0 p t)
  := by
  apply (Dollars.read .displays).piecesFrom_induction fun _ t ps =>
    ∀ x y, t = x ++ ('$' :: '$' :: '\n' :: y) → ['$', '$'] <:+: y → HasOpening ps
  · intro _ x y h _
    simp at h
  · intro p c cs hpass ih x y h hy
    cases x with
    | nil =>
      rw [h] at hpass
      exact absurd hpass (Dollars.not_passes_of_infix (List.infix_cons hy))
    | cons a x =>
      obtain ⟨rfl, hcs⟩ := List.cons.inj h
      apply (ih x y hcs hy).cons
  · intro p m n hm ih x y h hy
    have hlast : m.source.getLast? = some '$' := by
      rw [(Dollars.reads_displays.of_isRead hm).2, m.value.getLast?_source]
    rcases List.append_eq_append_iff.mp h with ⟨x', rfl, hrest⟩ | ⟨z, hsource, hrest⟩
    · apply (ih x' y hrest hy).cons
    · rcases List.cons_eq_append_iff.mp hrest with ⟨rfl, hafter⟩ | ⟨z₁, rfl, hrest₁⟩
      · apply (ih [] y hafter hy).cons
      · rcases List.cons_eq_append_iff.mp hrest₁ with ⟨rfl, hafter⟩ | ⟨z₂, rfl, hrest₂⟩
        · rw [hafter, Reader.piecesFrom_of_passes Dollars.passes_newline,
            Reader.piecesFrom_of_passes (Dollars.passes_of_ne (by decide))]
          exact HasOpening.after [] rfl
        · rcases List.cons_eq_append_iff.mp hrest₂ with ⟨rfl, hafter⟩ | ⟨z₃, rfl, -⟩
          · rw [hafter, Reader.piecesFrom_of_passes (Dollars.passes_of_ne (by decide))]
            exact HasOpening.behind [] rfl hlast
          · apply HasOpening.within List.mem_cons_self
            rw [hsource]
            exact ⟨x ++ ['$'], z₃, by simp⟩

/-- Dollar mathematics is kept, and what follows it is converted by itself. -/
theorem exists_text_between_eq {f : Conversion} {scope : Dollars.Scope} {t : Text}
    {ps qs : List (Piece Dollars)} {m : Match Dollars}
    (h : (Dollars.read scope).pieces t = ps ++ .found m :: qs) :
  ∃ front, ((f.between scope) t).text = front ++ (m.source
    ++ (Chunk.ofPieces qs).flatMap fun k => if k.isMath then k.text else (f k.text).text)
  := by
  rw [Conversion.text_between, chunks, h, Chunk.ofPieces_append_found, List.flatMap_append,
    List.flatMap_cons]
  exact ⟨_, rfl⟩

/-- A front that the conversion keeps stays behind the dollar mathematics before it. -/
theorem Conversion.KeepsFront.infix_between {f : Conversion} {scope : Dollars.Scope} {s t : Text}
    (hf : f.KeepsFront s) (hne : s ≠ []) {ps qs : List (Piece Dollars)} {m : Match Dollars}
    (h : (Dollars.read scope).pieces t = ps ++ .found m :: (s.map .char ++ qs)) :
  m.source ++ s <:+: ((f.between scope) t).text
  := by
  obtain ⟨front, htext⟩ := exists_text_between_eq (f := f) h
  obtain ⟨w, ks, hofPieces⟩ := Chunk.exists_ofPieces_map_char_append hne qs
  obtain ⟨v, hv⟩ := hf w
  rw [htext, hofPieces, List.flatMap_cons, if_neg Bool.false_ne_true, ← hv]
  apply List.IsInfix.trans _ (List.suffix_append _ _).isInfix
  apply List.IsPrefix.isInfix
  rw [List.prefix_append_right_inj, List.append_assoc]
  apply List.prefix_append

/-- The line feed of an opening line stays behind its dollar. -/
theorem HasOpening.infix_between {f : Conversion} {t : Text}
    (hnewline : f.KeepsFront ['\n']) (hdollar : f.KeepsFront ['$', '\n'])
    (h : HasOpening ((Dollars.read .displays).pieces t)) :
  ['$', '\n'] <:+: ((f.between .displays) t).text
  := by
  cases h with
  | within hm h =>
    obtain ⟨ps, qs, hpieces⟩ := List.append_of_mem hm
    obtain ⟨front, htext⟩ := exists_text_between_eq (f := f) hpieces
    rw [htext]
    apply h.trans ⟨front, _, List.append_assoc _ _ _⟩
  | @behind _ m _ h hlast =>
    have hinfix := hnewline.infix_between (List.cons_ne_nil _ _) h
    obtain ⟨s, hs⟩ := List.getLast?_eq_some_iff.mp hlast
    apply List.IsInfix.trans _ hinfix
    rw [hs, List.append_assoc]
    apply (List.suffix_append _ _).isInfix
  | after _ h =>
    have hinfix := hdollar.infix_between (List.cons_ne_nil _ _) h
    apply (List.suffix_append _ _).isInfix.trans hinfix

/-! ### Texts without line feeds -/

/-- To tally no display is a law. -/
theorem noBlock_law :
  Law fun _ c => c.tally.block = 0
  where
  unchanged _ := rfl
  andThen {t a f} ha hf := by rw [block_andThen, ha, hf, Int.add_zero]
  append {s t a b} ha hb := by rw [block_append, ha, hb, Int.add_zero]

/-- Between the displays no display is tallied. -/
theorem block_convertAllInlines (t : Text) :
  ((convertAllInlines.between .displays) t).tally.block = 0
  := by
  apply noBlock_law.between
  apply noBlock_law.convertAllInlines
  · exact fun _ => rfl
  · exact fun _ => rfl

/-- All displays are tallied by the conversion of displays. -/
theorem block_convertMath (t : Text) :
  (convertMath t).tally.block = (convertAllDisplays t).tally.block
  := by
  rw [convertMath_eq_andThen, block_andThen, block_convertAllInlines, Int.add_zero]

/-- In a text without line feeds, a line feed comes up behind a dollar if a display is tallied. -/
theorem dollar_newline_infix_convertMath {t : Text} (h : '\n' ∉ t)
    (hblock : (convertMath t).tally.block ≠ 0) :
  ['$', '\n'] <:+: (convertMath t).text
  := by
  rw [block_convertMath] at hblock
  obtain ⟨body, x, y, hdisplay⟩ := (convertAllDisplays_showsDisplays h).shown hblock
  rw [convertMath_eq_andThen, Converted.text_andThen]
  apply HasOpening.infix_between
  · exact isPlainFront_newline.keepsFront_convertAllInlines (List.cons_ne_nil _ _)
  · exact isPlainFront_dollar.keepsFront_convertAllInlines (List.cons_ne_nil _ _)
  · apply hasOpening_of_infix .start _ x (trim body ++ ['\n', '$', '$'] ++ y)
    · rw [← hdisplay, displayOf]
      simp
    · exact ⟨trim body ++ ['\n'], y, by simp⟩

/-- In a text without line feeds, a display is tallied exactly when a line feed comes up. -/
theorem newline_mem_convertMath_iff {t : Text} (h : '\n' ∉ t) :
  '\n' ∈ (convertMath t).text ↔ (convertMath t).tally.block ≠ 0
  := by
  constructor
  · intro hmem hzero
    rw [block_convertMath] at hzero
    rw [convertMath_eq_andThen, Converted.text_andThen,
      (convertAllDisplays_showsDisplays h).kept hzero] at hmem
    rcases mem_of_mem_convertAllInlines hmem with hmem | hdollar
    · exact h hmem
    · cases hdollar
  · intro hne
    apply (dollar_newline_infix_convertMath h hne).subset
    simp

end DollarMath
