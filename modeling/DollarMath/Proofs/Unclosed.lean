import DollarMath.Proofs.Apart
import DollarMath.Proofs.Neighbours
import DollarMath.Proofs.Pairing
import DollarMath.Proofs.Reading
import Mathlib.Data.List.DropRight

/-!
# Unclosed formulas

An opening backslash parenthesis without a closing one on its line starts no formula.  If the
line is joined with a later one, it may find a closing one there, and take it from the formula
that it belongs to.  A parenthesis converted to a formula loses the line feeds at its ends.
As long as it keeps one of them behind an opening backslash parenthesis, every formula in
backslash parentheses is read afterwards as before.
-/

namespace DollarMath

open scoped List

/-! ### Lines -/

/-- The line at the end of a text, from its last line feed on. -/
def lastLine (t : Text) : Text :=
  t.rtakeWhile (· ≠ '\n')

/-- A text from its first line feed on. -/
def laterLines (t : Text) : Text :=
  t.dropWhile (· ≠ '\n')

/-- What has no line feed goes on with the last line. -/
theorem lastLine_append {s t : Text} (h : '\n' ∉ t) :
  lastLine (s ++ t) = lastLine s ++ t
  := by
  rw [lastLine, lastLine, List.rtakeWhile, List.rtakeWhile, List.reverse_append,
    List.takeWhile_append_of_pos, List.reverse_append, List.reverse_reverse]
  intro c hc
  rw [decide_eq_true_eq]
  rintro rfl
  exact h (List.mem_reverse.mp hc)

/-- The later lines start behind the first line feed. -/
theorem laterLines_append_of_not_mem {s t : Text} (h : '\n' ∉ s) :
  laterLines (s ++ t) = laterLines t
  := by
  rw [laterLines, List.dropWhile_append_of_pos]
  · rfl
  · intro c hc
    rw [decide_eq_true_eq]
    rintro rfl
    exact h hc

/-- If a text has a line feed, its later lines go on with what follows. -/
theorem laterLines_append_of_mem {s t : Text} (h : '\n' ∈ s) :
  laterLines (s ++ t) = laterLines s ++ t ∧ laterLines s ≠ []
  := by
  induction s with
  | nil => cases h
  | cons c cs ih =>
    by_cases hc : c = '\n'
    · simp [laterLines, hc]
    · have hcs := ih ((List.mem_cons.mp h).resolve_left fun heq => hc heq.symm)
      simpa [laterLines, hc] using hcs

/-- The later lines of a text are none, or start with a line feed. -/
theorem laterLines_cases (t : Text) :
  laterLines t = [] ∨ ∃ u, laterLines t = '\n' :: u
  := by
  induction t with
  | nil =>
    left
    rfl
  | cons c cs ih =>
    by_cases hc : c = '\n'
    · right
      use cs
      simp [laterLines, hc]
    · simpa [laterLines, hc] using ih

/-- The later lines start with their line feed, if there are any. -/
theorem takeWhile_laterLines (t : Text) :
  (laterLines t).takeWhile (· ≠ '\n') = []
  := by
  rcases laterLines_cases t with h | ⟨u, h⟩
  · rw [h]
    rfl
  · rw [h]
    rfl

namespace Delimiter

/-- The formulas in backslash parentheses in a text from a place on. -/
abbrev inlines (p : Place) (t : Text) : List Enclosure :=
  inline.reader.values p t

/-- It does not matter where the later lines stand: they start with a line feed, or there are none.
-/
theorem inlines_laterLines (p q : Place) (t : Text) :
  inlines p (laterLines t) = inlines q (laterLines t)
  := by
  rcases laterLines_cases t with h | ⟨u, h⟩
  · rw [h]
    rfl
  · rw [h, inlines, inlines, Reader.values_of_passes (passes_inline_of_ne (by decide)),
      Reader.values_of_passes (passes_inline_of_ne (by decide))]
    apply reads_inline.seesEscape.values_congr
    rfl

/-- What is read on the later lines is read in the whole text. -/
theorem inlines_laterLines_sublist (p q : Place) (t : Text) :
  inlines p (laterLines t) <+ inlines q t
  := by
  have hcat : t.takeWhile (· ≠ '\n') ++ laterLines t = t := List.takeWhile_append_dropWhile
  have hentries := entries_inline_append (p := q) (s := t.takeWhile (· ≠ '\n')) (t := laterLines t)
    (by rw [takeWhile_laterLines]; exact List.not_mem_nil)
  rw [hcat] at hentries
  rw [inlines_laterLines p (q.after (t.takeWhile (· ≠ '\n')))]
  rw [inlines, inlines, Reader.values, Reader.values, hentries, List.filterMap_append]
  apply List.sublist_append_right

/-! ### Texts where no formula starts -/

/-- A text where no formula starts, whatever stands around it. -/
def IsInert (s : Text) : Prop :=
  ∀ p u c v t, s = u ++ c :: v → inline.reader.Passes p (c :: (v ++ t))

/-- No formula starts in a text without an opening delimiter, if the text does not end with a
backslash. -/
theorem isInert_of_separates
    {s : Text} (h : Separates '\\' '(' s) (hlast : s.getLast? ≠ some '\\') :
  IsInert s
  := by
  rintro p u c v t rfl
  rw [reads_inline.passes_iff]
  rintro e he - ⟨z, hz⟩
  rw [he.source_eq] at hz
  obtain ⟨rfl, hrest⟩ := List.cons.inj hz
  cases v with
  | nil =>
    apply hlast
    apply List.getLast?_concat
  | cons d v =>
    obtain ⟨rfl, -⟩ := List.cons.inj hrest
    apply separates_iff.mp h
    use u, v
    rw [List.append_assoc]
    rfl

/-- The formulas behind a text where none starts. -/
theorem IsInert.inlines_append {s : Text} (h : IsInert s) (p : Place) (t : Text) :
  inlines p (s ++ t) = inlines (p.after s) t
  := by
  apply Reader.values_append_of_forall_passes
  intro u c v hs
  apply h _ u c v t hs

/-- No formula starts in the later lines of a text where none starts. -/
theorem isInert_laterLines {s : Text} (h : IsInert s) :
  IsInert (laterLines s)
  := by
  intro p u c v t hs
  apply h p (s.takeWhile (· ≠ '\n') ++ u) c v t
  rw [List.append_assoc, ← hs]
  apply List.takeWhile_append_dropWhile.symm

/-- Behind a text of several lines where no formula starts. -/
theorem IsInert.inlines_laterLines_append
    {s : Text} (h : IsInert s) (hline : '\n' ∈ s) (hlast : s.getLast? ≠ some '\\') (p : Place)
    (t : Text) :
  inlines p (laterLines (s ++ t)) = inlines .start t
  := by
  obtain ⟨hlater, hne⟩ := laterLines_append_of_mem (t := t) hline
  rw [hlater, (isInert_laterLines h).inlines_append]
  apply reads_inline.seesEscape.values_congr
  rw [Place.escaped_after_eq_false hne]
  · rfl
  · rw [← List.getLast?_append_of_ne_nil (s.takeWhile (· ≠ '\n')) hne, laterLines,
      List.takeWhile_append_dropWhile]
    apply hlast

/-! ### Unclosed formulas -/

/-- A closing delimiter on the line, behind the first character, makes a formula. -/
theorem exists_isInline_of_closing {c : Char} {t : Text} (hline : '\n' ∉ c :: t)
    (h : ['\\', ')'] <:+: t) :
  ∃ e, IsInline false e ∧ e.source <+: '\\' :: '(' :: c :: t
  := by
  cases hbody : Pattern.upTo (.literal ['\\', ')']) t with
  | none => exact absurd h ((Pattern.upTo_literal_eq_none_iff (List.cons_ne_nil _ _)).mp hbody)
  | some r =>
    obtain ⟨-, hb, hfirst⟩ := Pattern.upTo_literal_eq_some_iff (w := ['\\']).mp hbody
    use ⟨[], [], ['\\', '('], c :: r.1, ['\\', ')']⟩
    constructor
    · refine ⟨rfl, c, r.1, rfl, ?_, hfirst⟩
      intro hmem
      apply hline
      have hsub : c :: r.1 ⊆ c :: t := by
        apply List.cons_subset_cons
        apply List.Subset.trans (List.subset_append_left _ _) hb.subset
      apply hsub hmem
    · simpa [Enclosure.source, List.cons_prefix_cons] using hb

/-- Where an opening delimiter is not read, nothing is read on the line. -/
theorem forall_passes_of_passes_opening
    {p : Place} {t : Text} (hp : p.escaped = false)
    (h : inline.reader.Passes p ('\\' :: '(' :: t)) {u v : Text} {c : Char}
    (hu : '\\' :: '(' :: t.takeWhile (· ≠ '\n') = u ++ c :: v) :
  inline.reader.Passes (p.after u) (c :: (v ++ laterLines t))
  := by
  have hcat : t.takeWhile (· ≠ '\n') ++ laterLines t = t := List.takeWhile_append_dropWhile
  have hline : '\n' ∉ t.takeWhile (· ≠ '\n') := by
    intro hmem
    simpa using List.mem_takeWhile_imp hmem
  generalize t.takeWhile (· ≠ '\n') = line at hcat hline hu
  have hopening : '\\' :: '(' :: t = ('\\' :: '(' :: line) ++ laterLines t := by
    rw [List.cons_append, List.cons_append, hcat]
  rw [hopening] at h
  apply passes_inline_append (t := c :: v)
    (.inr (by rw [takeWhile_laterLines]; exact List.not_mem_nil))
  rw [reads_inline.passes_iff] at h ⊢
  rintro e he hne ⟨z, hz⟩
  rw [← hz] at hu
  match u with
  | [] =>
    apply h e he hne
    rw [hu, List.nil_append, List.append_assoc]
    apply List.prefix_append
  | [d] =>
    rw [he.source_eq] at hu
    cases hu
  | d :: d' :: u =>
    have hrest : line = (u ++ (['\\', '('] ++ e.body)) ++ (['\\', ')'] ++ z) := by
      rw [he.source_eq] at hu
      simp only [List.cons_append, List.cons.injEq] at hu
      simp [hu.2.2]
    cases hx : u ++ (['\\', '('] ++ e.body) with
    | nil => simp at hx
    | cons c' x =>
      rw [hx, List.cons_append] at hrest
      rw [hrest] at h hline
      obtain ⟨e', he', hfront⟩ := exists_isInline_of_closing hline
        ⟨x, z, List.append_assoc _ _ _⟩
      rw [← hp] at he'
      apply h e' he'
      · rw [he'.source_eq]
        apply List.cons_ne_nil
      · apply hfront.trans
        apply List.prefix_append

/-- Where an opening delimiter is not read, no formula is read on the line. -/
theorem inlines_of_passes_opening
    {p : Place} {t : Text} (hp : p.escaped = false)
    (h : inline.reader.Passes p ('\\' :: '(' :: t)) :
  inlines p ('\\' :: '(' :: t) = inlines .start (laterLines t)
  := by
  have hcat : '\\' :: '(' :: t = ('\\' :: '(' :: t.takeWhile (· ≠ '\n')) ++ laterLines t := by
    rw [List.cons_append, List.cons_append]
    exact congrArg (fun s => '\\' :: '(' :: s) List.takeWhile_append_dropWhile.symm
  rw [hcat, inlines, Reader.values_append_of_forall_passes, inlines_laterLines]
  exact fun u c v hu => forall_passes_of_passes_opening hp h hu

end Delimiter

/-! ### Parentheses converted to formulas -/

namespace Paren.GroupForm

variable {source formula body primes : Text} (h : GroupForm source formula body primes)
include h

/-- No formula in backslash parentheses opens in the body of a plain formula. -/
theorem separates_body :
  Separates '\\' '(' body
  := by
  have hmath := h.isMath
  simp only [Paren.isMath, Bool.and_eq_true, Bool.not_eq_true'] at hmath
  rw [separates_iff, ← occurs_iff, hmath.1.1.1]
  exact Bool.false_ne_true

theorem separates_primes :
  Separates '\\' '(' primes
  := Separates.of_not_mem (h.not_mem_primes (by decide))

/-- A formula in plain parentheses does not end with a backslash. -/
theorem getLast?_source_ne :
  source.getLast? ≠ some '\\'
  := by
  intro hlast
  rw [h.source_eq, ← List.append_assoc,
    List.getLast?_append_of_ne_nil _ (by simp : [')'] ++ primes ≠ [])] at hlast
  rcases List.mem_cons.mp (List.mem_of_getLast? hlast) with heq | hmem
  · cases heq
  · exact h.not_mem_primes (by decide) hmem

/-- No formula in backslash parentheses starts in one in plain parentheses. -/
theorem isInert_source :
  Delimiter.IsInert source
  := by
  apply Delimiter.isInert_of_separates _ h.getLast?_source_ne
  rw [h.source_eq]
  apply (Separates.singleton _ _ _).append
  · apply h.separates_body.append
    · apply (Separates.singleton _ _ _).append h.separates_primes
      left
      simp
    · right
      simp
  · left
    simp

/-- Nor does what is written for it end with a backslash. -/
theorem getLast?_formula_ne :
  formula.getLast? ≠ some '\\'
  := by
  rw [h.formula_eq, formulaOf, List.getLast?_concat]
  simp

/-- Nor does one start in what is written for it. -/
theorem isInert_formula :
  Delimiter.IsInert formula
  := by
  apply Delimiter.isInert_of_separates _ h.getLast?_formula_ne
  rw [h.formula_eq, formulaOf]
  have hinner : Separates '\\' '(' (trim body) := h.separates_body.trim
  have hgroup : ∀ g, Separates '\\' '(' g →
      Separates '\\' '(' (['$'] ++ g ++ primes ++ ['$']) := by
    intro g hg
    apply Separates.append
    · apply ((Separates.singleton _ _ _).append hg _).append h.separates_primes
      · right
        intro hhead
        exact h.not_mem_primes (by decide) (List.mem_of_mem_head? hhead)
      · left
        simp
    · apply Separates.singleton
    · right
      simp
  split
  · apply hgroup
    apply ((Separates.singleton _ _ _).append hinner _).append (Separates.singleton _ _ _)
    · right
      simp
    · left
      simp
  · apply hgroup _ hinner

/-- What is written for a formula has no line feed that the formula has not. -/
theorem newline_mem_source (hmem : '\n' ∈ formula) :
  '\n' ∈ source
  := by
  have hprimes : '\n' ∉ primes := h.not_mem_primes (by decide)
  rw [h.formula_eq, formulaOf] at hmem
  have htrim : '\n' ∈ trim body := by
    split at hmem
    · simpa [hprimes] using hmem
    · simpa [hprimes] using hmem
  rw [h.source_eq]
  simp [mem_of_mem_trim htrim]

end Paren.GroupForm

/-- A parenthesis converted to a formula does not stand behind a backslash. -/
theorem Paren.escaped_of_read
    {pairs : List Pair} {p : Place} {t w : Text} {n : Nat}
    (h : read pairs p t = some (.plain w, n)) :
  p.escaped = false
  := by
  obtain ⟨hopen, -⟩ := neighbours_of_read h
  rw [Place.escaped, decide_eq_false_iff_not]
  intro hbefore
  rw [mayOpen, hbefore] at hopen
  revert hopen
  decide

/-- The scanner of parentheses reads backslash parentheses as their own reader does. -/
theorem Paren.read_eq_backslash_iff
    {pairs : List Pair} {p : Place} {t : Text} {e : Enclosure} {n : Nat} :
  read pairs p t = some (.backslash e, n) ↔ Delimiter.inline.reader p t = some (e, n)
  := by
  rw [read]
  split
  · next e' n' he =>
    rw [he]
    simp
  · next hnone =>
    rw [hnone]
    simp

/-! ### What conversion keeps -/

/-- An opening delimiter stands on the last line of a text. -/
def opensInline (t : Text) : Bool :=
  occurs ['\\', '('] (lastLine t)

/-- An opening delimiter stands on the last line of a text, perhaps with its parenthesis behind
it. -/
def Opened (s t : Text) : Prop :=
  ['\\', '('] <:+: lastLine s ++ t.take 1

/-- An opening delimiter stays the last one as long as its line goes on. -/
theorem Opened.append {a s t : Text} (h : Opened a (s ++ t)) (hne : s ≠ []) (hline : '\n' ∉ s) :
  Opened (a ++ s) t
  := by
  rw [Opened, lastLine_append hline]
  apply h.trans
  cases s with
  | nil => exact absurd rfl hne
  | cons c s =>
    use [], s ++ t.take 1
    simp

/-- A line that is opened holds an opening delimiter. -/
theorem Opened.opensInline {a t : Text} (h : Opened a t)
    (ha : (Place.start.after a).escaped = false) :
  opensInline a = true
  := by
  rw [DollarMath.opensInline, occurs_iff]
  by_contra hnot
  apply separates_iff.mp _ h
  apply (separates_iff.mpr hnot).append
  · cases t with
    | nil => exact List.IsChain.nil
    | cons c t => exact Separates.singleton _ _ c
  · left
    intro hlast
    obtain ⟨b, hb⟩ := a.rtakeWhile_suffix (· ≠ '\n')
    have hne : lastLine a ≠ [] := by
      intro hnil
      rw [hnil] at hlast
      cases hlast
    have hbefore : (Place.start.after a).before = some '\\' := by
      rw [Place.before_start_after, ← hb]
      apply (List.getLast?_append_of_ne_nil b hne).trans hlast
    rw [Place.escaped, hbefore] at ha
    cases ha

/-- A text `u` that stands behind `s` may be rewritten to `v`: the formulas read in `u` are read
in `v`, and if one is open before it, those of its later lines are. -/
structure KeepsInlines (s u v : Text) : Prop where
  /-- No opening parenthesis comes to stand in front. -/
  opening : v.head? = some '(' → u.head? = some '('
  /-- What is read is kept. -/
  kept : ∀ q, q.escaped = (Place.start.after s).escaped →
    Delimiter.inlines (Place.start.after s) u <+ Delimiter.inlines q v
  /-- Behind an opening delimiter, what is read on later lines is kept. -/
  later : Opened s u →
    Delimiter.inlines .start (laterLines u) <+ Delimiter.inlines .start (laterLines v)

namespace KeepsInlines

open Delimiter

/-- There is nothing to keep. -/
theorem nil (s : Text) :
  KeepsInlines s [] []
  := by
  constructor
  · exact fun h => h
  · exact fun q _ => List.Sublist.refl _
  · exact fun _ => List.Sublist.refl _

/-- A character at which no formula starts. -/
theorem char
    {s u v : Text} {c : Char} (hpass : inline.reader.Passes (Place.start.after s) (c :: u))
    (h : KeepsInlines (s ++ [c]) u v) :
  KeepsInlines s (c :: u) (c :: v)
  := by
  have hafter : Place.start.after (s ++ [c]) = (Place.start.after s).next c :=
    Place.after_concat _ s c
  have hkept : ∀ q, q.escaped = (Place.start.after s).escaped →
      inlines (Place.start.after s) (c :: u) <+ inlines q (c :: v) := by
    intro q hq
    rcases Reader.passes_or_exists_isRead inline.reader q c v with hpass' | ⟨m, n, hm, hcat⟩
    · rw [inlines, inlines, Reader.values_of_passes hpass, Reader.values_of_passes hpass', ← hafter]
      apply h.kept
      rw [hafter]
      rfl
    · obtain ⟨hallowed, hsource⟩ := reads_inline.of_isRead hm
      have hline := hallowed.newline_not_mem_source
      rw [← hsource] at hline
      have hlater : laterLines (c :: v) = laterLines m.rest := by
        rw [hcat, laterLines_append_of_not_mem hline]
      have hopening : c = '\\' ∧ v.head? = some '(' := by
        rw [hsource, hallowed.source_eq] at hcat
        obtain ⟨rfl, rfl⟩ := List.cons.inj hcat
        exact ⟨rfl, rfl⟩
      obtain ⟨rfl, hv⟩ := hopening
      obtain ⟨x, rfl⟩ := List.head?_eq_some_iff.mp (h.opening hv)
      have hescaped : (Place.start.after s).escaped = false := by rw [← hq, hallowed.1]
      rw [inlines_of_passes_opening hescaped hpass, hcat, inlines, inlines, hm.values_eq]
      apply List.Sublist.cons
      have hkept := h.later (by
        use lastLine s, []
        rw [lastLine_append (by simp)]
        simp)
      have hv' : laterLines ('\\' :: v) = laterLines v :=
        laterLines_append_of_not_mem (s := ['\\']) (by simp)
      rw [← hv', hlater] at hkept
      apply hkept.trans
      apply inlines_laterLines_sublist
  constructor
  · exact fun h => h
  · exact hkept
  · intro hopened
    by_cases hc : c = '\n'
    · subst hc
      have hu : laterLines ('\n' :: u) = '\n' :: u := by simp [laterLines]
      have hv : laterLines ('\n' :: v) = '\n' :: v := by simp [laterLines]
      have hkept := hkept (Place.start.after s) rfl
      rw [← hu, ← hv] at hkept
      rw [inlines_laterLines .start (Place.start.after s) ('\n' :: u),
        inlines_laterLines .start (Place.start.after s) ('\n' :: v)]
      apply hkept
    · have hline : '\n' ∉ [c] := by simpa using fun heq => hc heq.symm
      have hlater := h.later (Opened.append (s := [c]) hopened (List.cons_ne_nil _ _) hline)
      rw [← List.singleton_append, laterLines_append_of_not_mem hline,
        ← List.singleton_append (l := v), laterLines_append_of_not_mem hline]
      exact hlater

/-- A formula that is kept as it stands. -/
theorem formula
    {s v : Text} {m : Match Enclosure} {n : Nat}
    (hm : Reader.IsRead inline.reader (Place.start.after s) m n)
    (h : KeepsInlines (s ++ m.source) m.rest v) :
  KeepsInlines s (m.source ++ m.rest) (m.source ++ v)
  := by
  obtain ⟨hallowed, hsource⟩ := reads_inline.of_isRead hm
  have hline := hallowed.newline_not_mem_source
  rw [← hsource] at hline
  constructor
  · intro hhead
    rw [hsource, hallowed.head?_source] at hhead
    cases hhead
  · intro q hq
    have hne : m.value.source ≠ [] := by
      rw [hallowed.source_eq]
      apply List.cons_ne_nil
    rw [← hq] at hallowed
    have hnew := (reads_inline.isRead hallowed hne v).values_eq
    dsimp only at hnew
    rw [← hsource] at hnew
    rw [inlines, inlines, hm.values_eq, hnew, ← Place.after_append]
    apply List.Sublist.cons_cons
    apply h.kept
    rw [Place.after_append]
    apply Place.escaped_after_congr hq
  · intro hopened
    rw [laterLines_append_of_not_mem hline, laterLines_append_of_not_mem hline]
    apply h.later (hopened.append hm.source_ne_nil hline)

/-- A plain formula that is rewritten: no formula of its line is lost, if a delimiter that is open
on the line finds a line feed in both texts. -/
theorem group
    {s u v source formula body primes : Text} (hform : Paren.GroupForm source formula body primes)
    (hs : (Place.start.after s).escaped = false)
    (hline : opensInline s = true → '\n' ∈ source → '\n' ∈ formula)
    (h : KeepsInlines (s ++ source) u v) :
  KeepsInlines s (source ++ u) (formula ++ v)
  := by
  have hsource : source ≠ [] := by
    rw [hform.source_eq]
    apply List.cons_ne_nil
  have hformula : formula ≠ [] := by
    rw [hform.formula_eq, Paren.formulaOf]
    apply List.append_ne_nil_of_right_ne_nil _ (List.cons_ne_nil _ _)
  have hbehind : (Place.start.after (s ++ source)).escaped = false := by
    rw [Place.after_append]
    apply Place.escaped_after_eq_false hsource hform.getLast?_source_ne
  constructor
  · intro hhead
    rw [hform.formula_eq] at hhead
    cases hhead
  · intro q _
    rw [hform.isInert_source.inlines_append, hform.isInert_formula.inlines_append,
      ← Place.after_append]
    apply h.kept
    rw [hbehind]
    apply Place.escaped_after_eq_false hformula hform.getLast?_formula_ne
  · intro hopened
    by_cases hmem : '\n' ∈ source
    · have hmem' := hline (hopened.opensInline hs) hmem
      rw [hform.isInert_source.inlines_laterLines_append hmem hform.getLast?_source_ne,
        hform.isInert_formula.inlines_laterLines_append hmem' hform.getLast?_formula_ne,
        inlines, reads_inline.seesEscape.values_congr (p := .start) hbehind.symm]
      apply h.kept
      rw [hbehind]
      rfl
    · have hmem' : '\n' ∉ formula := fun hmem' => hmem (hform.newline_mem_source hmem')
      rw [laterLines_append_of_not_mem hmem, laterLines_append_of_not_mem hmem']
      apply h.later (hopened.append hsource hmem)

end KeepsInlines

/-- Parentheses keep the formulas that are read, if none of them takes its line feeds away
behind an opening delimiter. -/
theorem inlines_sublist_convertParens
    {t : Text}
    (h : ∀ m ∈ (Paren.read (Paren.pairs t)).findAll t, ∀ w ∈ m.value.formula?,
      opensInline (t.take m.start) = true → '\n' ∈ m.source → '\n' ∈ w) :
  Delimiter.inlines .start t <+ Delimiter.inlines .start (convertParens t).text
  := by
  let f : Match Paren.Item → Option Text := fun m => m.value.formula?
  have hall : ∀ p u, ∀ s, t = s ++ u → p = Place.start.after s →
      (∀ m, .found m ∈ (Paren.read (Paren.pairs t)).piecesFrom 0 p u →
        m ∈ (Paren.read (Paren.pairs t)).findAll t) →
      KeepsInlines s u ((Paren.read (Paren.pairs t)).writtenFrom f p u) := by
    intro p u
    apply (Paren.read (Paren.pairs t)).piecesFrom_induction fun p u ps =>
      ∀ s, t = s ++ u → p = Place.start.after s →
      (∀ m, .found m ∈ ps → m ∈ (Paren.read (Paren.pairs t)).findAll t) →
      KeepsInlines s u (ps.flatMap (Piece.written f))
    · intro p s _ _ _
      apply KeepsInlines.nil
    · rintro p c cs hpass ih s ht rfl hmem
      apply KeepsInlines.char
      · intro e k hread
        apply hpass _ k (Paren.read_eq_backslash_iff.mpr hread)
      · apply ih (s ++ [c])
        · rw [ht, List.append_assoc]
          rfl
        · apply (Place.after_concat _ _ _).symm
        · exact fun m hm => hmem m (List.mem_cons_of_mem _ hm)
    · rintro p ⟨start, source, value, rest⟩ n hm ih s ht rfl hmem
      have hread := hm.read
      dsimp only at hread ih ⊢
      have ih := ih (s ++ source) (by rw [ht, List.append_assoc]) (Place.after_append _ _ _).symm
        fun m hm => hmem m (List.mem_cons_of_mem _ hm)
      cases value with
      | backslash e =>
        apply KeepsInlines.formula (m := ⟨start, source, e, rest⟩) (n := n) _ ih
        exact ⟨hm.start_eq, hm.source_ne_nil, Paren.read_eq_backslash_iff.mp hread, hm.source_eq⟩
      | plain w =>
        obtain ⟨body, primes, hform⟩ := Paren.form_of_formula (hmem _ List.mem_cons_self) rfl
        apply KeepsInlines.group hform (Paren.escaped_of_read hread) _ ih
        have htake : t.take start = s := by
          have hstart : start = s.length := by
            apply hm.start_eq.trans
            simp [Place.start]
          rw [ht, hstart]
          apply List.take_left
        have hline := h _ (hmem _ List.mem_cons_self) w rfl
        rw [htake] at hline
        apply hline
  have hkept := (hall .start t [] rfl rfl fun m => Reader.mem_findAll_iff.mpr).kept .start rfl
  rw [convertParens, Replaced.inline, Reader.text_replace]
  apply hkept

end DollarMath
