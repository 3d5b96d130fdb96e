import DollarMath.Proofs.Chunks
import DollarMath.Proofs.Form
import DollarMath.Proofs.Law
import DollarMath.Proofs.Neighbours
import DollarMath.Proofs.Pairing
import Mathlib.Tactic.MkIffOfInductiveProp

/-!
# Doubled dollars

An inline formula is written between single dollars.  Where such a dollar comes to stand next to
another one, the two are read as the delimiter of a display.  A formula brings two dollars
together in three ways: its body, trimmed, is empty or has a dollar at an end; it stands next to
a dollar; or it stands next to another formula.
-/

namespace DollarMath

/-- A text that may stand between two dollars: it is not empty, and no dollar stands at either
end of it. -/
def HasClearEnds (b : Text) : Prop :=
  b ≠ [] ∧ b.head? ≠ some '$' ∧ b.getLast? ≠ some '$'

instance (b : Text) : Decidable (HasClearEnds b) :=
  inferInstanceAs (Decidable (_ ∧ _))

/-- Dollars around a text double none if the text is not empty and has none at its ends. -/
theorem separates_between_dollars {b : Text} :
  Separates '$' '$' (['$'] ++ b ++ ['$']) ↔ Separates '$' '$' b ∧ HasClearEnds b
  := by
  have hsingle := Separates.singleton '$' '$' '$'
  rw [Separates.append_iff, Separates.append_iff]
  by_cases hb : b = []
  · simp [hb, HasClearEnds]
  · rw [List.getLast?_append_of_ne_nil _ hb]
    simp [HasClearEnds, hb, hsingle, and_assoc]

namespace Reader

variable {α : Type} {r : Reader α} {f : Match α → Option Text}

/-- The ends of a text are those of its first and its last piece. -/
theorem ends_eq (r : Reader α) (t : Text) :
  t.head? = (r.pieces t).head?.bind (fun a => a.source.head?)
    ∧ t.getLast? = (r.pieces t).getLast?.bind fun a => a.source.getLast?
  := by
  have hne : ∀ a ∈ r.pieces t, a.source ≠ [] := fun a ha => source_ne_nil_of_mem_pieces ha
  rw [← head?_flatMap_of_ne_nil hne, ← getLast?_flatMap_of_ne_nil hne, flatMap_source_pieces]
  exact ⟨rfl, rfl⟩

/-- What is written for a piece is not empty, if nothing is replaced by nothing. -/
theorem written_ne_nil
    {t : Text} {piece : Piece α} (hf : ∀ m ∈ r.findAll t, f m ≠ some [])
    (hpiece : piece ∈ r.pieces t) :
  piece.written f ≠ []
  := by
  cases piece with
  | char c => simp [Piece.written]
  | found m =>
    have hm := mem_findAll_iff.mpr hpiece
    rw [Piece.written]
    cases hw : f m with
    | none => exact source_ne_nil_of_mem_piecesFrom hpiece
    | some w =>
      rintro rfl
      exact hf m hm hw

/-- Then no text becomes empty. -/
theorem text_replace_ne_nil {t : Text} (hf : ∀ m ∈ r.findAll t, f m ≠ some []) (ht : t ≠ []) :
  (r.replace f t).text ≠ []
  := by
  have hsource := flatMap_source_pieces r t
  rw [text_replace]
  cases hpieces : r.pieces t with
  | nil =>
    rw [hpieces] at hsource
    exact absurd hsource.symm ht
  | cons a ps =>
    rw [List.flatMap_cons]
    apply List.append_ne_nil_of_left_ne_nil
    apply written_ne_nil hf
    rw [hpieces]
    apply List.mem_cons_self

/-- A replacement separates two characters if each piece of it does, and so do two
neighbours. -/
theorem separates_replace_iff
    {x y : Char} {t : Text} (hf : ∀ m ∈ r.findAll t, f m ≠ some []) :
  Separates x y (r.replace f t).text
    ↔ (∀ piece ∈ r.pieces t, Separates x y (piece.written f))
      ∧ (r.pieces t).IsChain fun a b =>
        ¬ ((a.written f).getLast? = some x ∧ (b.written f).head? = some y)
  := by
  rw [text_replace]
  apply Separates.flatMap_iff
  exact fun piece hpiece => written_ne_nil hf hpiece

end Reader

/-! ### Formulas in backslash parentheses -/

/-- A piece that has a dollar at either end when the constructs are written between dollars. -/
def Piece.isDollar {α : Type} : Piece α → Bool
  | char c => c = '$'
  | found _ => true

/-- The formulas in backslash parentheses of a text, trimmed, are not empty and have no dollar
at an end, and they stand next to no dollar and to no other formula. -/
@[mk_iff]
structure InlinesStandClear (t : Text) : Prop where
  /-- The formulas may stand between dollars. -/
  bodies : ∀ m ∈ Delimiter.inline.reader.findAll t, HasClearEnds (trim m.value.body)
  /-- Two neighbours are not both formulas or dollars. -/
  neighbours : (Delimiter.inline.reader.pieces t).IsChain fun a b =>
    ¬ (a.isDollar = true ∧ b.isDollar = true)

instance (t : Text) : Decidable (InlinesStandClear t) :=
  decidable_of_iff _ (inlinesStandClear_iff t).symm

/-- What the conversion of formulas in backslash parentheses writes for a match. -/
abbrev writeInline (m : Match Enclosure) : Option Text :=
  some (inlineOf m.value.body)

/-- What is written ends with a dollar if the piece is a formula or a dollar. -/
theorem getLast?_written_inline (a : Piece Enclosure) :
  (a.written writeInline).getLast? = some '$' ↔ a.isDollar = true
  := by
  cases a with
  | char c => simp [Piece.written, Piece.isDollar]
  | found m =>
    simp only [Piece.isDollar, iff_true]
    exact List.getLast?_concat

/-- It starts with one if the piece is. -/
theorem head?_written_inline (a : Piece Enclosure) :
  (a.written writeInline).head? = some '$' ↔ a.isDollar = true
  := by
  cases a with
  | char c => simp [Piece.written, Piece.isDollar]
  | found m =>
    simp only [Piece.isDollar, iff_true]
    rfl

/-- A formula doubles no dollar if its trimmed body may stand between dollars. -/
theorem separates_inlineOf_iff {body : Text} :
  Separates '$' '$' (inlineOf body) ↔ Separates '$' '$' body ∧ HasClearEnds (trim body)
  := by
  rw [inlineOf, separates_between_dollars]
  apply and_congr_left
  intro _
  constructor
  · exact Separates.of_trim (by decide) (by decide)
  · exact Separates.trim

/-- The doubled dollars of a formula in backslash parentheses are those of its body. -/
theorem separates_inline_append {e : Enclosure} {u : Text} (h : Delimiter.inline.HasForm e)
    (hbody : Separates '$' '$' e.body) (hu : Separates '$' '$' u) :
  Separates '$' '$' (e.source ++ u)
  := by
  have hsource : e.source = ['\\', '('] ++ e.body ++ ['\\', ')'] := by
    rw [h.1]
    rfl
  rw [hsource]
  apply Separates.append
  · apply Separates.append
    · apply (Separates.of_not_mem (by decide)).append hbody
      left
      decide
    · apply Separates.of_not_mem (by decide)
    · right
      decide
  · exact hu
  · left
    rw [List.getLast?_append_of_ne_nil _ (List.cons_ne_nil _ _)]
    decide

/-- Dollars side by side are not taken apart by the conversion of formulas in backslash
parentheses. -/
theorem separates_of_convertInlines {t : Text} (h : Separates '$' '$' (convertInlines t).text) :
  Separates '$' '$' t
  := by
  have hall := Delimiter.inline.reader.replace_induction writeInline (t := t) fun u w _ =>
    Separates '$' '$' w → Separates '$' '$' u ∧ (u.head? = some '$' → w.head? = some '$')
  apply (hall _ _ _ _ h).1
  · exact fun h => ⟨h, fun h => h⟩
  · intro c u w _ ih h
    rw [← List.singleton_append] at h ⊢
    obtain ⟨-, hw, hends⟩ := Separates.append_iff.mp h
    obtain ⟨hu, hhead⟩ := ih hw
    refine ⟨Separates.append_iff.mpr ⟨Separates.singleton _ _ c, hu, ?_⟩, fun h => h⟩
    rintro ⟨hc, hfirst⟩
    apply hends ⟨hc, hhead hfirst⟩
  · intro m _ hnone
    cases hnone
  · intro m hm v hv u w _ ih h
    obtain rfl := Option.some.inj hv
    obtain ⟨hform, hsource⟩ := Delimiter.form_of_mem_findAll hm
    obtain ⟨hv, hw, -⟩ := Separates.append_iff.mp h
    rw [hsource]
    constructor
    · apply separates_inline_append hform (separates_inlineOf_iff.mp hv).1 (ih hw).1
    · intro hhead
      rw [hform.1] at hhead
      cases hhead

/-- The conversion of formulas in backslash parentheses doubles no dollar exactly when the
formulas stand clear of dollars and of each other. -/
theorem separates_convertInlines_iff {t : Text} :
  Separates '$' '$' (convertInlines t).text ↔ Separates '$' '$' t ∧ InlinesStandClear t
  := by
  have hreplace := Delimiter.inline.reader.separates_replace_iff (f := writeInline) (x := '$')
    (y := '$') (t := t) (by
      intro m _ heq
      cases heq)
  constructor
  · intro h
    use separates_of_convertInlines h
    obtain ⟨hpieces, hchain⟩ := hreplace.mp h
    constructor
    · intro m hm
      have hwritten : Separates '$' '$' (inlineOf m.value.body) :=
        hpieces _ (Reader.mem_findAll_iff.mp hm)
      exact (separates_inlineOf_iff.mp hwritten).2
    · apply hchain.imp
      rintro a b hab ⟨ha, hb⟩
      exact hab ⟨(getLast?_written_inline a).mpr ha, (head?_written_inline b).mpr hb⟩
  · rintro ⟨h, hbodies, hneighbours⟩
    apply hreplace.mpr
    constructor
    · rintro (c | m) hpiece
      · apply Separates.singleton
      · have hm := Reader.mem_findAll_iff.mpr hpiece
        apply separates_inlineOf_iff.mpr ⟨_, hbodies m hm⟩
        apply h.of_infix (Delimiter.body_isInfix_of_mem_findAll hm)
    · apply hneighbours.imp
      rintro a b hab ⟨ha, hb⟩
      exact hab ⟨(getLast?_written_inline a).mp ha, (head?_written_inline b).mp hb⟩

/-! ### Formulas in plain parentheses -/

namespace Paren

/-- A piece that is a formula in plain parentheses. -/
def isFormula (a : Piece Item) : Bool :=
  a.match?.any fun m => m.value.formula?.isSome

/-- What stands between the dollars of a formula. -/
def inside (formula : Text) : Text :=
  formula.tail.dropLast

/-- What stands between dollars. -/
theorem inside_between (b : Text) :
  inside (['$'] ++ b ++ ['$']) = b
  := by
  rw [List.append_assoc, List.singleton_append, inside, List.tail_cons, List.dropLast_concat]

/-- What stands between the dollars of a formula. -/
theorem inside_formulaOf (body primes : Text) :
  inside (formulaOf body primes)
    = (if (trim body).head? = some '(' then ['('] ++ trim body ++ [')'] else trim body) ++ primes
  := by
  rw [← inside_between (_ ++ primes), ← List.append_assoc]
  rfl

namespace GroupForm

variable {source formula body primes : Text} (h : GroupForm source formula body primes)
include h

/-- A formula is what stands between its dollars, and the dollars. -/
theorem eq_between :
  formula = ['$'] ++ inside formula ++ ['$']
  := by
  rw [h.formula_eq, inside_formulaOf, ← List.append_assoc]
  rfl

/-- It comes from an opening parenthesis. -/
theorem head?_source :
  source.head? = some '('
  := by
  rw [h.source_eq]
  rfl

/-- What stands between the dollars of a formula holds no doubled dollar, if its source holds
none. -/
theorem separates_inside (hsource : Separates '$' '$' source) :
  Separates '$' '$' (inside formula)
  := by
  have hbody : Separates '$' '$' (trim body) := by
    apply Separates.trim
    apply hsource.of_infix
    rw [h.source_eq]
    use ['('], [')'] ++ primes
    simp
  have hprimes : '$' ∉ primes := h.not_mem_primes (by decide)
  rw [h.formula_eq, inside_formulaOf]
  apply Separates.append
  · split
    · apply Separates.append
      · apply (Separates.of_not_mem (by decide)).append hbody
        left
        decide
      · apply Separates.of_not_mem (by decide)
      · right
        decide
    · exact hbody
  · apply Separates.of_not_mem hprimes
  · right
    exact fun hhead => hprimes (List.mem_of_head? hhead)

end GroupForm

/-- A piece that is a formula in plain parentheses has their form. -/
theorem exists_of_isFormula
    {t : Text} {a : Piece Item} (ha : a ∈ (read (pairs t)).pieces t) (h : isFormula a = true) :
  ∃ m w, a = .found m ∧ m.value = .plain w ∧ a.written (fun m => m.value.formula?) = w
    ∧ ∃ body primes, GroupForm m.source w body primes
  := by
  cases a with
  | char c => cases h
  | found m =>
    cases hvalue : m.value with
    | backslash e => simp [isFormula, Piece.match?, hvalue, Item.formula?] at h
    | plain w =>
      have hformula : m.value.formula? = some w := by rw [hvalue]; rfl
      refine ⟨m, w, rfl, hvalue, ?_, form_of_formula (Reader.mem_findAll_iff.mpr ha) hformula⟩
      rw [Piece.written, hformula]
      rfl

/-- Every other piece is kept. -/
theorem written_of_isFormula_eq_false {a : Piece Item} (h : isFormula a = false) :
  a.written (fun m => m.value.formula?) = a.source
  := by
  cases a with
  | char c => rfl
  | found m =>
    have hnone : m.value.formula? = none := by simpa [isFormula, Piece.match?] using h
    rw [Piece.written, hnone]
    rfl

/-- No dollar and no opening parenthesis stands where a formula may close. -/
theorem ne_of_mayClose {rest : Text} {c : Char} (h : mayClose rest = true)
    (hc : rest.head? = some c) :
  c ≠ '$' ∧ c ≠ '('
  := by
  rw [mayClose, hc] at h
  constructor
  · rintro rfl
    revert h
    decide
  · rintro rfl
    revert h
    decide

/-- No dollar stands where one may open. -/
theorem ne_of_mayOpen {p : Place} {c : Char} (h : mayOpen p = true) (hc : p.before = some c) :
  c ≠ '$'
  := by
  rw [mayOpen, hc] at h
  rintro rfl
  revert h
  decide

/-- No dollar stands next to a formula in plain parentheses, and no parenthesis opens behind
it. -/
theorem isChain_pieces (t : Text) :
  ((read (pairs t)).pieces t).IsChain fun a b =>
    (isFormula a = true → ∀ c, b.source.head? = some c → c ≠ '$' ∧ c ≠ '(')
      ∧ (isFormula b = true → ∀ c, a.source.getLast? = some c → c ≠ '$')
  := by
  rw [List.isChain_iff_forall_rel_of_append_cons_cons]
  intro a b ps qs hpieces
  constructor
  · intro ha c hc
    obtain ⟨m, w, rfl, hvalue, -⟩ := exists_of_isFormula (by rw [hpieces]; simp) ha
    obtain ⟨u, -, hu⟩ := Reader.piecesFrom_eq_append hpieces
    obtain ⟨⟨n, hread⟩, -, hrest⟩ := Reader.piecesFrom_eq_found_cons hu.symm
    have hclose := (neighbours_of_read (hvalue ▸ hread.read)).2
    rw [← hread.rest_eq] at hclose
    apply ne_of_mayClose hclose
    have htext := Reader.flatMap_source_piecesFrom (read (pairs t)) 0
      ((Place.start.after (ps.flatMap Piece.source)).after m.source) m.rest
    rw [← hrest, List.flatMap_cons, List.drop_zero] at htext
    rw [← htext, List.head?_append, hc]
    rfl
  · intro hb c hc
    obtain ⟨m, w, rfl, hvalue, -⟩ := exists_of_isFormula (by rw [hpieces]; simp) hb
    rw [List.append_cons] at hpieces
    obtain ⟨u, -, hu⟩ := Reader.piecesFrom_eq_append hpieces
    obtain ⟨⟨n, hread⟩, -, -⟩ := Reader.piecesFrom_eq_found_cons hu.symm
    apply ne_of_mayOpen (neighbours_of_read (hvalue ▸ hread.read)).1
    rw [Place.before_start_after, List.flatMap_append, List.flatMap_singleton,
      List.getLast?_append, hc]
    rfl

/-- No formula is empty. -/
theorem formula?_ne_nil {t : Text} :
  ∀ m ∈ (read (pairs t)).findAll t, m.value.formula? ≠ some []
  := by
  intro m hm hnil
  obtain ⟨body, primes, hform⟩ := form_of_formula hm hnil
  have heq := hform.eq_between
  cases heq

/-- The ends of a piece as it is written. -/
theorem ends_written {t : Text} {a : Piece Item} (ha : a ∈ (read (pairs t)).pieces t) :
  ((a.written fun m => m.value.formula?).head? = some '$'
      ↔ a.source.head? = some '$' ∨ isFormula a = true)
    ∧ ((a.written fun m => m.value.formula?).getLast? = some '$'
      ↔ a.source.getLast? = some '$' ∨ isFormula a = true)
  := by
  cases hformula : isFormula a with
  | false =>
    rw [written_of_isFormula_eq_false hformula]
    simp
  | true =>
    obtain ⟨m, w, -, -, hwritten, body, primes, hform⟩ := exists_of_isFormula ha hformula
    rw [hwritten, hform.eq_between, List.getLast?_concat]
    simp

/-- Formulas in plain parentheses double no dollar of their text if they may stand between
dollars. -/
theorem separates_convertParens_iff {t : Text} (h : Separates '$' '$' t) :
  Separates '$' '$' (convertParens t).text
    ↔ ∀ m ∈ (read (pairs t)).findAll t, ∀ w ∈ m.value.formula?, HasClearEnds (inside w)
  := by
  have hsource := h
  rw [← Reader.flatMap_source_pieces (read (pairs t)) t, Separates.flatMap_iff
    fun a ha => Reader.source_ne_nil_of_mem_pieces ha] at hsource
  have hreplace := (read (pairs t)).separates_replace_iff (x := '$') (y := '$') (t := t)
    formula?_ne_nil
  constructor
  · intro hnew m hm w hw
    obtain ⟨body, primes, hform⟩ := form_of_formula hm hw
    have hwritten := (hreplace.mp hnew).1 _ (Reader.mem_findAll_iff.mp hm)
    rw [Piece.written, Option.mem_def.mp hw, Option.getD_some, hform.eq_between,
      separates_between_dollars] at hwritten
    exact hwritten.2
  · intro hclear
    apply hreplace.mpr
    constructor
    · intro a ha
      cases hformula : isFormula a with
      | false =>
        rw [written_of_isFormula_eq_false hformula]
        apply hsource.1 a ha
      | true =>
        obtain ⟨m, w, rfl, hvalue, hwritten, body, primes, hform⟩ := exists_of_isFormula ha hformula
        rw [hwritten, hform.eq_between, separates_between_dollars]
        constructor
        · apply hform.separates_inside (hsource.1 _ ha)
        · apply hclear m (Reader.mem_findAll_iff.mpr ha)
          rw [hvalue]
          rfl
    · rw [List.isChain_iff_forall_rel_of_append_cons_cons]
      rintro a b ps qs hpieces ⟨ha, hb⟩
      have hmem : a ∈ (read (pairs t)).pieces t ∧ b ∈ (read (pairs t)).pieces t := by
        rw [hpieces]
        simp
      obtain ⟨hnext, hprevious⟩ :=
        List.isChain_iff_forall_rel_of_append_cons_cons.mp (isChain_pieces t) hpieces
      have hneighbours := List.isChain_iff_forall_rel_of_append_cons_cons.mp hsource.2 hpieces
      rcases (ends_written hmem.1).2.mp ha with ha | ha
      · rcases (ends_written hmem.2).1.mp hb with hb | hb
        · exact hneighbours ⟨ha, hb⟩
        · exact hprevious hb '$' ha rfl
      · rcases (ends_written hmem.2).1.mp hb with hb | hb
        · exact (hnext ha '$' hb).1 rfl
        · obtain ⟨m, w, rfl, -, -, body, primes, hform⟩ := exists_of_isFormula hmem.2 hb
          exact (hnext ha '(' hform.head?_source).2 rfl

/-- A formula in plain parentheses stands at the start of a text. -/
def startsWithFormula (t : Text) : Bool :=
  ((read (pairs t)).pieces t).head?.any isFormula

/-- A formula in plain parentheses stands at the end of a text. -/
def endsWithFormula (t : Text) : Bool :=
  ((read (pairs t)).pieces t).getLast?.any isFormula

/-- The ends of a text as it is written. -/
theorem ends_convertParens {t : Text} :
  ((convertParens t).text.head? = some '$' ↔ t.head? = some '$' ∨ startsWithFormula t = true)
    ∧ ((convertParens t).text.getLast? = some '$'
      ↔ t.getLast? = some '$' ∨ endsWithFormula t = true)
  := by
  have hne : ∀ a ∈ (read (pairs t)).pieces t, a.written (fun m => m.value.formula?) ≠ [] :=
    fun a ha => Reader.written_ne_nil formula?_ne_nil ha
  have hwritten := (read (pairs t)).text_replace (fun m => m.value.formula?) t
  change (convertParens t).text = _ at hwritten
  obtain ⟨hhead, hlast⟩ := (read (pairs t)).ends_eq t
  rw [hwritten, head?_flatMap_of_ne_nil hne, getLast?_flatMap_of_ne_nil hne, hhead, hlast,
    startsWithFormula, endsWithFormula]
  constructor
  · cases hfirst : ((read (pairs t)).pieces t).head? with
    | none => simp
    | some a => exact (ends_written (List.mem_of_head? hfirst)).1
  · cases hend : ((read (pairs t)).pieces t).getLast? with
    | none => simp
    | some a => exact (ends_written (List.mem_of_getLast? hend)).2

end Paren

/-! ### Chunks -/

namespace Chunk

variable {scope : Dollars.Scope} {t : Text} {k : Chunk}

/-- A chunk starts with a formula between dollars, once its parentheses are converted. -/
def startsWithFormula (k : Chunk) : Bool :=
  k.isMath || Paren.startsWithFormula k.text

/-- A chunk ends with a formula between dollars, once its parentheses are converted. -/
def endsWithFormula (k : Chunk) : Bool :=
  k.isMath || Paren.endsWithFormula k.text

/-- What the conversion of plain parentheses writes for a chunk. -/
def written (k : Chunk) : Text :=
  if k.isMath then k.text else (convertParens k.text).text

/-- The ends of a chunk as it is written. -/
theorem ends_written (hk : k ∈ chunks scope t) :
  (k.written.head? = some '$' ↔ k.text.head? = some '$' ∨ k.startsWithFormula = true)
    ∧ (k.written.getLast? = some '$' ↔ k.text.getLast? = some '$' ∨ k.endsWithFormula = true)
  := by
  rw [written, startsWithFormula, endsWithFormula]
  cases hmath : k.isMath with
  | true =>
    obtain ⟨hhead, hlast⟩ := ends_of_isMath hk hmath
    simp [hhead, hlast]
  | false => exact Paren.ends_convertParens

theorem written_ne_nil (hk : k ∈ chunks scope t) :
  k.written ≠ []
  := by
  rw [written]
  split
  · exact text_ne_nil hk
  · exact Reader.text_replace_ne_nil Paren.formula?_ne_nil (text_ne_nil hk)

end Chunk

/-- The formulas in plain parentheses between the dollar mathematics of a text are not empty and
have no dollar at an end, and none of them stands next to dollar mathematics. -/
@[mk_iff]
structure ParensStandClear (t : Text) : Prop where
  /-- The formulas may stand between dollars. -/
  formulas : ∀ k ∈ chunks .all t, k.isMath = false →
    ∀ m ∈ (Paren.read (Paren.pairs k.text)).findAll k.text, ∀ w ∈ m.value.formula?,
      HasClearEnds (Paren.inside w)
  /-- Of two neighbouring chunks, the first one does not end with a formula or the second one
  does not start with one. -/
  neighbours : (chunks .all t).IsChain fun a b =>
    ¬ (a.endsWithFormula = true ∧ b.startsWithFormula = true)

instance (t : Text) : Decidable (ParensStandClear t) :=
  decidable_of_iff _ (parensStandClear_iff t).symm

/-- The conversion of plain parentheses doubles no dollar exactly when the formulas stand clear
of dollars. -/
theorem separates_convertParens_between_iff {t : Text} (h : Separates '$' '$' t) :
  Separates '$' '$' (convertParens.between .all t).text ↔ ParensStandClear t
  := by
  have hsource := h
  rw [← flatMap_text_chunks .all t, Separates.flatMap_iff fun k hk => Chunk.text_ne_nil hk]
    at hsource
  have hwritten : Separates '$' '$' (convertParens.between .all t).text
      ↔ (∀ k ∈ chunks .all t, Separates '$' '$' k.written)
        ∧ (chunks .all t).IsChain fun a b =>
          ¬ (a.written.getLast? = some '$' ∧ b.written.head? = some '$') := by
    rw [Conversion.text_between]
    exact Separates.flatMap_iff fun k hk => Chunk.written_ne_nil hk
  rw [hwritten]
  constructor
  · rintro ⟨hchunks, hneighbours⟩
    constructor
    · intro k hk hmath
      have hparens := hchunks k hk
      rw [Chunk.written, hmath] at hparens
      exact (Paren.separates_convertParens_iff (hsource.1 k hk)).mp hparens
    · apply hneighbours.imp_of_mem_imp
      rintro a b ha hb hab ⟨hends, hstarts⟩
      apply hab
      exact ⟨(Chunk.ends_written ha).2.mpr (.inr hends),
        (Chunk.ends_written hb).1.mpr (.inr hstarts)⟩
  · rintro ⟨hformulas, hneighbours⟩
    constructor
    · intro k hk
      rw [Chunk.written]
      cases hmath : k.isMath with
      | true => exact hsource.1 k hk
      | false =>
        exact (Paren.separates_convertParens_iff (hsource.1 k hk)).mpr (hformulas k hk hmath)
    · rw [List.isChain_iff_forall_rel_of_append_cons_cons]
      rintro a b ks ls hchunks ⟨hlast, hhead⟩
      have hmem : a ∈ chunks .all t ∧ b ∈ chunks .all t := by
        rw [hchunks]
        simp
      have hmath := List.isChain_iff_forall_rel_of_append_cons_cons.mp
        (Chunk.isChain_ofPieces _) hchunks
      have htexts := List.isChain_iff_forall_rel_of_append_cons_cons.mp hsource.2 hchunks
      have hformulas := List.isChain_iff_forall_rel_of_append_cons_cons.mp hneighbours hchunks
      rcases hmath with ha | hb
      · have hends : a.endsWithFormula = true := by simp [Chunk.endsWithFormula, ha]
        rcases (Chunk.ends_written hmem.2).1.mp hhead with hb | hb
        · exact htexts ⟨(Chunk.ends_of_isMath hmem.1 ha).2, hb⟩
        · exact hformulas ⟨hends, hb⟩
      · have hstarts : b.startsWithFormula = true := by simp [Chunk.startsWithFormula, hb]
        rcases (Chunk.ends_written hmem.1).2.mp hlast with ha | ha
        · exact htexts ⟨ha, (Chunk.ends_of_isMath hmem.2 hb).1⟩
        · exact hformulas ⟨ha, hstarts⟩

/-- The conversion of inline formulas doubles no dollar of a text without doubled dollars exactly
when the formulas stand clear of dollars and of each other. -/
theorem not_doubled_convertAllInlines_iff {t : Text} (h : ¬ ['$', '$'] <:+: t) :
  ¬ ['$', '$'] <:+: (convertAllInlines t).text
    ↔ ParensStandClear t ∧ InlinesStandClear (convertParens.between .all t).text
  := by
  have htext : (convertAllInlines t).text
      = (convertInlines (convertParens.between .all t).text).text := rfl
  rw [← separates_iff] at h ⊢
  rw [htext, separates_convertInlines_iff, separates_convertParens_between_iff h]

/-- Formulas of every kind that stand clear of each other: with a single dollar in prose, with
dollar mathematics, in plain parentheses and in backslash parentheses. -/
theorem not_doubled_convertAllInlines_clear :
  let t := ['$', '5', ' ', '(', 'x', '=', '2', ')', ' ', '$', 'y', '$', ' ', '\\', '(', 'z',
    '\\', ')']
  (¬ ['$', '$'] <:+: t ∧ ParensStandClear t
      ∧ InlinesStandClear (convertParens.between .all t).text)
    ∧ ¬ ['$', '$'] <:+: (convertAllInlines t).text
  := by
  intro t
  have ht : ¬ ['$', '$'] <:+: t := by decide
  have hclear : ¬ ['$', '$'] <:+: (convertAllInlines t).text := by decide
  obtain ⟨hparens, hinlines⟩ := (not_doubled_convertAllInlines_iff ht).mp hclear
  exact ⟨⟨ht, hparens, hinlines⟩, hclear⟩

/-- A blank body makes a doubled dollar. -/
theorem doubled_convertAllInlines_blank :
  let t := ['\\', '(', ' ', '\\', ')']
  ¬ ['$', '$'] <:+: t ∧ convertInlines t = ⟨['$', '$'], .ofInline 1⟩
    ∧ ['$', '$'] <:+: (convertAllInlines t).text
  := by
  decide

end DollarMath
