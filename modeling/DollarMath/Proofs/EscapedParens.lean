import DollarMath.Proofs.Reached

/-!
# Escaped parentheses

A parenthesis behind a backslash is the delimiter of a formula in backslash parentheses, and
belongs to their conversion.  The conversion of plain parentheses keeps every `\(`.  It keeps every
`\)` as well, unless the body of a parenthesis that it rewrites ends with a backslash, up to blank
characters: such a backslash loses the closing parenthesis behind it when the parentheses are taken
away, and comes to stand before it when the body is trimmed and they stay.
-/

namespace DollarMath

/-! ### The parentheses behind backslashes -/

/-- A parenthesis of either side. -/
def isParen (c : Char) : Bool :=
  c = '(' || c = ')'

/-- A character that is no parenthesis counts for none. -/
theorem filter_isParen_eq_none {o : Option Char} (hopen : o ≠ some '(') (hclose : o ≠ some ')') :
  o.filter isParen = none
  := by
  rw [Option.filter_eq_none_iff]
  rintro c hc hparen
  rw [isParen, Bool.or_eq_true, decide_eq_true_eq, decide_eq_true_eq] at hparen
  rcases hparen with rfl | rfl
  · exact hopen hc
  · exact hclose hc

/-- For each backslash of a text, the parenthesis behind it, if one is there. -/
def parensBehind : Text → List (Option Char)
  | [] => []
  | c :: cs =>
    if c = '\\' then cs.head?.filter isParen :: parensBehind cs
    else parensBehind cs

/-- The parentheses of a text that stand behind a backslash, from left to right. -/
def escapedParens (t : Text) : List Char :=
  (parensBehind t).reduceOption

@[simp]
theorem parensBehind_nil :
  parensBehind [] = []
  := rfl

/-- What stands behind a backslash counts. -/
theorem parensBehind_backslash (t : Text) :
  parensBehind ('\\' :: t) = t.head?.filter isParen :: parensBehind t
  := rfl

/-- What stands behind another character does not. -/
theorem parensBehind_cons_of_ne {c : Char} (hc : c ≠ '\\') (t : Text) :
  parensBehind (c :: t) = parensBehind t
  := by
  rw [parensBehind, if_neg hc]

/-- Without backslashes nothing counts. -/
theorem parensBehind_of_not_mem {t : Text} (h : '\\' ∉ t) :
  parensBehind t = []
  := by
  induction t with
  | nil => rfl
  | cons c cs ih =>
    rw [List.mem_cons, not_or] at h
    rw [parensBehind_cons_of_ne (Ne.symm h.1), ih h.2]

/-- The parentheses behind the backslashes of two texts side by side, if none comes to stand
behind a backslash. -/
theorem parensBehind_append {s t : Text}
    (h : s.getLast? ≠ some '\\' ∨ t.head?.filter isParen = none) :
  parensBehind (s ++ t) = parensBehind s ++ parensBehind t
  := by
  induction s with
  | nil => rfl
  | cons c cs ih =>
    cases cs with
    | nil =>
      by_cases hc : c = '\\'
      · subst hc
        have hnone : t.head?.filter isParen = none := by simpa using h
        rw [List.singleton_append, parensBehind_backslash, hnone]
        rfl
      · rw [List.singleton_append, parensBehind_cons_of_ne hc, parensBehind_cons_of_ne hc]
        rfl
    | cons d ds =>
      rw [List.getLast?_cons_cons] at h
      by_cases hc : c = '\\'
      · subst hc
        rw [List.cons_append, parensBehind_backslash, ih h, parensBehind_backslash]
        rfl
      · rw [List.cons_append, parensBehind_cons_of_ne hc, ih h, parensBehind_cons_of_ne hc]

/-- A text without escaped parentheses has none behind any of its backslashes. -/
theorem parensBehind_of_separates {t : Text} (hopen : Separates '\\' '(' t)
    (hclose : Separates '\\' ')' t) :
  parensBehind t = List.replicate (t.count '\\') none
  := by
  induction t with
  | nil => rfl
  | cons c cs ih =>
    rw [← List.singleton_append, Separates.append_iff] at hopen hclose
    have ih := ih hopen.2.1 hclose.2.1
    by_cases hc : c = '\\'
    · subst hc
      have hnone : cs.head?.filter isParen = none := by
        apply filter_isParen_eq_none
        · exact fun hhead => hopen.2.2 ⟨rfl, hhead⟩
        · exact fun hhead => hclose.2.2 ⟨rfl, hhead⟩
      rw [parensBehind_backslash, hnone, ih, List.count_cons_self, List.replicate_succ]
    · rw [parensBehind_cons_of_ne hc, ih, List.count_cons_of_ne hc]

/-- The parentheses behind `n` backslashes, of which the last one may stand before a closing
parenthesis. -/
def closing (n : Nat) (b : Prop) [Decidable b] : List (Option Char) :=
  if b then List.replicate (n - 1) none ++ [some ')'] else List.replicate n none

/-- Two such lists are equal if both end with a closing parenthesis or neither does. -/
theorem closing_eq_iff {n : Nat} {b b' : Prop} [Decidable b] [Decidable b'] :
  closing n b = closing n b' ↔ (b ↔ b')
  := by
  have hmem : ∀ (b : Prop) [Decidable b], some ')' ∈ closing n b ↔ b := by
    intro b _
    rw [closing]
    split <;> simp [*]
  constructor
  · intro h
    rw [← hmem b, h, hmem b']
  · intro h
    simp only [closing, h]

/-- No backslash stands before an opening parenthesis. -/
theorem map_closing {n : Nat} {b : Prop} [Decidable b] (h : b → 0 < n) :
  (closing n b).map (· == some '(') = List.replicate n false
  := by
  rw [closing]
  split
  · next hb =>
    obtain ⟨m, rfl⟩ := Nat.exists_eq_add_of_lt (h hb)
    rw [Nat.zero_add, Nat.add_sub_cancel, List.map_append, List.map_replicate,
      List.replicate_succ']
    rfl
  · rw [List.map_replicate]
    rfl

/-- A text without escaped parentheses, before a text without backslashes. -/
theorem parensBehind_append_eq_closing {s t : Text} {b : Prop} [Decidable b]
    (hopen : Separates '\\' '(' s) (hclose : Separates '\\' ')' s)
    (ht : '\\' ∉ t) (hhead : t.head? ≠ some '(')
    (hb : b ↔ s.getLast? = some '\\' ∧ t.head? = some ')') :
  parensBehind (s ++ t) = closing (s.count '\\') b
  := by
  by_cases hlast : s.getLast? = some '\\'
  · obtain ⟨a, rfl⟩ := List.getLast?_eq_some_iff.mp hlast
    have ha : parensBehind a = List.replicate (a.count '\\') none := by
      apply parensBehind_of_separates
      · exact (Separates.append_iff.mp hopen).1
      · exact (Separates.append_iff.mp hclose).1
    have hbackslash : parensBehind ('\\' :: t) = [t.head?.filter isParen] := by
      rw [parensBehind_backslash, parensBehind_of_not_mem ht]
    rw [List.append_assoc, List.singleton_append, parensBehind_append (.inr rfl), ha, hbackslash,
      List.count_append, List.count_singleton_self, closing, Nat.add_sub_cancel]
    by_cases hparen : t.head? = some ')'
    · rw [if_pos (hb.mpr ⟨hlast, hparen⟩), hparen]
      rfl
    · rw [if_neg fun h => hparen (hb.mp h).2, filter_isParen_eq_none hhead hparen,
        List.replicate_succ']
  · rw [parensBehind_append (.inl hlast), parensBehind_of_separates hopen hclose,
      parensBehind_of_not_mem ht, List.append_nil, closing, if_neg fun h => hlast (hb.mp h).1]

/-! ### Parentheses that are rewritten -/

namespace Paren

/-- The last backslash of a body stands before the closing parenthesis of the source exactly when
it does so in the formula, whose parentheses stay if the trimmed body opens with another one. -/
def KeepsEscape (body : Text) : Prop :=
  body.getLast? = some '\\'
    ↔ (trim body).head? = some '(' ∧ (trim body).getLast? = some '\\'

instance (body : Text) : Decidable (KeepsEscape body) :=
  inferInstanceAs (Decidable (_ ↔ _))

namespace GroupForm

variable {source formula body primes : Text} (h : GroupForm source formula body primes)
include h

/-- No formula in backslash parentheses closes in the body of a plain formula. -/
theorem separates_body_close :
  Separates '\\' ')' body
  := by
  have hmath := h.isMath
  simp only [Paren.isMath, Bool.and_eq_true, Bool.not_eq_true'] at hmath
  rw [separates_iff, ← occurs_iff, hmath.1.1.2]
  exact Bool.false_ne_true

/-- The parentheses behind the backslashes of a plain formula: only one that closes it. -/
theorem parensBehind_source :
  parensBehind source = closing (body.count '\\') (body.getLast? = some '\\')
  := by
  have hprimes : '\\' ∉ primes := h.not_mem_primes (by decide)
  rw [h.source_eq, List.singleton_append, parensBehind_cons_of_ne (by decide)]
  apply parensBehind_append_eq_closing h.separates_body h.separates_body_close
  · simp [hprimes]
  · simp
  · simp

/-- Those of what is written for it: only one that is added. -/
theorem parensBehind_formula :
  parensBehind formula = closing (body.count '\\')
    ((trim body).head? = some '(' ∧ (trim body).getLast? = some '\\')
  := by
  have hopen := h.separates_body.trim
  have hclose := h.separates_body_close.trim
  have hprimes : '\\' ∉ primes := h.not_mem_primes (by decide)
  rw [h.formula_eq, formulaOf, ← count_trim (by decide)]
  split
  · next hhead =>
    have hgroup : ['$'] ++ (['('] ++ trim body ++ [')']) ++ primes ++ ['$']
        = '$' :: '(' :: (trim body ++ ([')'] ++ primes ++ ['$'])) := by simp
    rw [hgroup, parensBehind_cons_of_ne (by decide), parensBehind_cons_of_ne (by decide)]
    apply parensBehind_append_eq_closing hopen hclose
    · simp [hprimes]
    · simp
    · simp [hhead]
  · next hhead =>
    have hfirst : ∀ c, isParen c = true → (primes ++ ['$']).head? ≠ some c := by
      intro c hc hhead
      rcases List.mem_append.mp (List.mem_of_head? hhead) with hmem | hmem
      · rw [h.primes c hmem] at hc
        cases hc
      · rw [List.mem_singleton.mp hmem] at hc
        cases hc
    have hgroup : ['$'] ++ trim body ++ primes ++ ['$'] = '$' :: (trim body ++ (primes ++ ['$'])) :=
      by simp
    rw [hgroup, parensBehind_cons_of_ne (by decide)]
    apply parensBehind_append_eq_closing hopen hclose
    · simp [hprimes]
    · exact hfirst '(' (by decide)
    · simp only [hhead, hfirst ')' (by decide), false_and, and_false]

/-- A formula has the parentheses of its source behind its backslashes if the closing one stays
where it is seen from the last backslash. -/
theorem parensBehind_formula_eq_iff :
  parensBehind formula = parensBehind source ↔ KeepsEscape body
  := by
  rw [h.parensBehind_source, h.parensBehind_formula, closing_eq_iff, KeepsEscape]
  exact Iff.comm

/-- No opening parenthesis behind a backslash is lost or made. -/
theorem map_parensBehind_formula :
  (parensBehind formula).map (· == some '(') = (parensBehind source).map (· == some '(')
  := by
  rw [h.parensBehind_source, h.parensBehind_formula, map_closing, map_closing]
  · exact fun hlast => List.count_pos_iff.mpr (List.mem_of_getLast? hlast)
  · rintro ⟨-, hlast⟩
    exact List.count_pos_iff.mpr (mem_of_mem_trim (List.mem_of_getLast? hlast))

end GroupForm

/-- Every backslash of the parentheses that are rewritten keeps its parenthesis. -/
def KeepsEscapes (t : Text) : Prop :=
  ∀ m ∈ (read (pairs t)).findAll t, m.value.formula?.isSome →
    ∀ j ∈ partner (pairs t) m.start, KeepsEscape (t.extract (m.start + 1) j)

instance (t : Text) : Decidable (KeepsEscapes t) :=
  inferInstanceAs (Decidable (∀ m ∈ _, _ → ∀ j ∈ _, _))

/-- What pieces are written as, with the formulas in plain parentheses between dollars. -/
def written (ps : List (Piece Item)) : Text :=
  ps.flatMap (Piece.written fun m => m.value.formula?)

/-- The text `u` at the place `p`, compared with what its pieces are written as: the opening
parentheses behind backslashes are the same, and all of them are if so are those of each formula. -/
structure Compares (p : Place) (u : Text) (ps : List (Piece Item)) : Prop where
  /-- Behind a backslash no formula starts. -/
  head : p.escaped = true → (written ps).head? = u.head?
  /-- The same backslashes stand before an opening parenthesis. -/
  openings : (parensBehind (written ps)).map (· == some '(')
    = (parensBehind u).map (· == some '(')
  /-- The formulas tell whether the parentheses behind the backslashes are the same. -/
  parens : parensBehind (written ps) = parensBehind u
    ↔ ∀ m, .found m ∈ ps → ∀ w ∈ m.value.formula?, parensBehind w = parensBehind m.source

namespace Compares

variable {p : Place} {u : Text} {ps : List (Piece Item)}

/-- There is nothing to compare. -/
theorem nil (p : Place) :
  Compares p [] []
  := by
  constructor
  · exact fun _ => rfl
  · rfl
  · exact iff_of_true rfl nofun

/-- A character that stays. -/
theorem char {c : Char} (h : Compares (p.next c) u ps) :
  Compares p (c :: u) (.char c :: ps)
  := by
  have hwritten : written (.char c :: ps) = c :: written ps := rfl
  by_cases hc : c = '\\'
  · subst hc
    have hhead := h.head (by rfl)
    constructor
    · exact fun _ => rfl
    · rw [hwritten, parensBehind_backslash, parensBehind_backslash, hhead, List.map_cons,
        List.map_cons, h.openings]
    · rw [hwritten, parensBehind_backslash, parensBehind_backslash, hhead, List.cons.injEq,
        h.parens]
      simp
  · constructor
    · exact fun _ => rfl
    · rw [hwritten, parensBehind_cons_of_ne hc, parensBehind_cons_of_ne hc, h.openings]
    · rw [hwritten, parensBehind_cons_of_ne hc, parensBehind_cons_of_ne hc, h.parens]
      simp

/-- A match that stands behind no backslash, and does not end with one in either form. -/
theorem found {m : Match Item} (hescaped : p.escaped = false)
    (hsource : m.source.getLast? ≠ some '\\')
    (hwritten : (m.value.formula?.getD m.source).getLast? ≠ some '\\')
    (hopenings : (parensBehind (m.value.formula?.getD m.source)).map (· == some '(')
      = (parensBehind m.source).map (· == some '('))
    (h : Compares (p.after m.source) u ps) :
  Compares p (m.source ++ u) (.found m :: ps)
  := by
  have hparens : parensBehind (written (.found m :: ps))
      = parensBehind (m.value.formula?.getD m.source) ++ parensBehind (written ps) :=
    parensBehind_append (.inl hwritten)
  have hlength : (parensBehind (m.value.formula?.getD m.source)).length
      = (parensBehind m.source).length := by
    simpa using congrArg List.length hopenings
  constructor
  · intro hbehind
    rw [hescaped] at hbehind
    cases hbehind
  · rw [hparens, parensBehind_append (.inl hsource), List.map_append, List.map_append, hopenings,
      h.openings]
  · have hmatch : parensBehind (m.value.formula?.getD m.source) = parensBehind m.source
        ↔ ∀ w ∈ m.value.formula?, parensBehind w = parensBehind m.source := by
      cases m.value.formula? with
      | none => simp
      | some w => simp
    have hall : (∀ m', .found m' ∈ .found m :: ps → ∀ w ∈ m'.value.formula?,
          parensBehind w = parensBehind m'.source)
        ↔ (∀ w ∈ m.value.formula?, parensBehind w = parensBehind m.source)
          ∧ ∀ m', .found m' ∈ ps → ∀ w ∈ m'.value.formula?,
            parensBehind w = parensBehind m'.source := by
      simp only [List.mem_cons, Piece.found.injEq, forall_eq_or_imp]
    rw [hparens, parensBehind_append (.inl hsource), hall, ← hmatch, ← h.parens]
    constructor
    · exact fun heq => List.append_inj heq hlength
    · rintro ⟨hfirst, hrest⟩
      rw [hfirst, hrest]

end Compares

/-- The pieces of a text compare with it. -/
theorem compares_pieces (t : Text) :
  Compares .start t ((read (pairs t)).pieces t)
  := by
  have hall : ∀ p u,
      (∀ m, .found m ∈ (read (pairs t)).piecesFrom 0 p u → m ∈ (read (pairs t)).findAll t) →
        Compares p u ((read (pairs t)).piecesFrom 0 p u) := by
    intro p u
    apply (read (pairs t)).piecesFrom_induction fun p u ps =>
      (∀ m, .found m ∈ ps → m ∈ (read (pairs t)).findAll t) → Compares p u ps
    · intro p _
      apply Compares.nil
    · intro p c cs _ ih hmem
      apply Compares.char
      exact ih fun m hm => hmem m (List.mem_cons_of_mem _ hm)
    · rintro p ⟨start, source, value, rest⟩ n hm ih hmem
      have ih := ih fun m' hm' => hmem m' (List.mem_cons_of_mem _ hm')
      have hread := hm.read
      cases value with
      | backslash e =>
        obtain ⟨hinline, hsource⟩ : Delimiter.IsInline p.escaped e ∧ source = e.source :=
          Delimiter.reads_inline.of_read (m := ⟨start, source, e, rest⟩)
            (read_eq_backslash_iff.mp hread) hm.source_eq
        have hlast : source.getLast? ≠ some '\\' := by
          rw [hsource, hinline.getLast?_source]
          decide
        exact Compares.found hinline.1 hlast hlast rfl ih
      | plain w =>
        obtain ⟨body, primes, hform⟩ := form_of_formula (hmem _ List.mem_cons_self) rfl
        exact Compares.found (escaped_of_read hread) hform.getLast?_source_ne
          hform.getLast?_formula_ne hform.map_parensBehind_formula ih
  exact hall .start t fun m => Reader.mem_findAll_iff.mpr

/-- A formula that is found keeps the parentheses behind its backslashes if its body does. -/
theorem parensBehind_eq_iff {t : Text} {m : Match Item} {w : Text}
    (hm : m ∈ (read (pairs t)).findAll t) (hw : m.value.formula? = some w) :
  parensBehind w = parensBehind m.source
    ↔ ∀ j ∈ partner (pairs t) m.start, KeepsEscape (t.extract (m.start + 1) j)
  := by
  obtain ⟨j, hj, hform⟩ := exists_form_of_mathAt (mathAt_start hm (Item.eq_plain hw))
  have hsource : t.extract m.start m.span.stop = m.source := Reader.extract_of_mem_findAll hm
  rw [hsource] at hform
  rw [hform.parensBehind_formula_eq_iff, hj]
  simp

/-- The backslashes of a text keep the opening parentheses behind them when its parentheses are
converted.  They keep the closing ones as well exactly when so do those of the bodies, and then
the escaped parentheses of the text stay the same. -/
theorem parensBehind_convertParens (t : Text) :
  (parensBehind (convertParens t).text).map (· == some '(') = (parensBehind t).map (· == some '(')
    ∧ (parensBehind (convertParens t).text = parensBehind t ↔ KeepsEscapes t)
    ∧ (KeepsEscapes t → escapedParens (convertParens t).text = escapedParens t)
  := by
  have htext : (convertParens t).text = written ((read (pairs t)).pieces t) :=
    (read (pairs t)).text_replace _ t
  obtain ⟨-, hopenings, hparens⟩ := compares_pieces t
  have hkeeps : (∀ m, .found m ∈ (read (pairs t)).pieces t → ∀ w ∈ m.value.formula?,
      parensBehind w = parensBehind m.source) ↔ KeepsEscapes t := by
    constructor
    · intro h m hm hformula
      obtain ⟨w, hw⟩ := Option.isSome_iff_exists.mp hformula
      exact (parensBehind_eq_iff hm hw).mp (h m (Reader.mem_findAll_iff.mp hm) w hw)
    · intro h m hpiece w hw
      have hm := Reader.mem_findAll_iff.mpr hpiece
      exact (parensBehind_eq_iff hm hw).mpr (h m hm (Option.isSome_of_mem hw))
  rw [hkeeps, ← htext] at hparens
  rw [← htext] at hopenings
  refine ⟨hopenings, hparens, fun h => ?_⟩
  rw [escapedParens, hparens.mpr h, escapedParens]

/-- A body that ends with a backslash and opens with a parenthesis, so that its own parentheses
stay; then a formula in backslash parentheses, and one in plain ones. -/
theorem parensBehind_convertParens_kept :
  let t := ['(', '(', '1', ')', '+', '\\', ')', ' ', '\\', '(', 'a', '\\', ')', ' ', '(', 'x', '=',
    '2', ')']
  KeepsEscapes t ∧ escapedParens (convertParens t).text = escapedParens t
    ∧ escapedParens t = [')', '(', ')'] ∧ (convertParens t).tally = .ofInline 2
  := by
  intro t
  have h : KeepsEscapes t := by decide
  obtain ⟨-, -, hkept⟩ := parensBehind_convertParens t
  exact ⟨h, hkept h, by decide, by decide⟩

/-- The parenthesis of a body that ends with a backslash is taken away, and the backslash of a
trimmed body comes to stand before one. -/
theorem escapedParens_convertParens_ne :
  let t := ['(', '1', '+', '1', '\\', ')']
  let t' := ['(', '(', '1', ')', '+', '\\', ' ', ')']
  (convertParens t = ⟨['$', '1', '+', '1', '\\', '$'], .ofInline 1⟩
      ∧ escapedParens t = [')'] ∧ escapedParens (convertParens t).text = [])
    ∧ convertParens t' = ⟨['$', '(', '(', '1', ')', '+', '\\', ')', '$'], .ofInline 1⟩
      ∧ escapedParens t' = [] ∧ escapedParens (convertParens t').text = [')']
  := by
  decide

end Paren

end DollarMath
