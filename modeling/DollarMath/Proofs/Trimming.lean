import DollarMath.Quote
import Mathlib.Data.List.Basic
import Mathlib.Data.List.TakeWhile

/-!
# Trimming and unquoting

Trimming takes blank characters from the two ends of a text, and unquoting takes quote marks
and blank characters only.  So characters of any other kind are kept, in their order.
-/

namespace DollarMath

/-- A text of blank characters only. -/
def IsBlankText (t : Text) : Prop :=
  ∀ c ∈ t, isBlank c = true

/-- Spaces and tabs are blank. -/
theorem isBlank_of_isSpaceOrTab {c : Char} (h : isSpaceOrTab c = true) :
  isBlank c = true
  := by
  simp only [isSpaceOrTab, Bool.or_eq_true, decide_eq_true_eq] at h
  rcases h with rfl | rfl
  · decide
  · decide

/-- Blank characters are taken away from the front. -/
theorem exists_eq_append_trimLeft (t : Text) :
  ∃ a, IsBlankText a ∧ t = a ++ trimLeft t
  := by
  use t.takeWhile isBlank
  constructor
  · intro c hc
    apply List.mem_takeWhile_imp hc
  · apply List.takeWhile_append_dropWhile.symm

/-- Blank characters are taken away from the end. -/
theorem exists_eq_trimRight_append (t : Text) :
  ∃ b, IsBlankText b ∧ t = trimRight t ++ b
  := by
  obtain ⟨a, ha, ht⟩ := exists_eq_append_trimLeft t.reverse
  use a.reverse
  constructor
  · intro c hc
    apply ha c (List.mem_reverse.mp hc)
  · conv_lhs => rw [← t.reverse_reverse, ht, List.reverse_append]
    rfl

/-- A text is its trimmed part between two blank ones. -/
theorem exists_eq_append_trim (t : Text) :
  ∃ a b, IsBlankText a ∧ IsBlankText b ∧ t = a ++ (trim t ++ b)
  := by
  obtain ⟨a, ha, hleft⟩ := exists_eq_append_trimLeft t
  obtain ⟨b, hb, hright⟩ := exists_eq_trimRight_append (trimLeft t)
  use a, b, ha, hb
  rw [trim, ← hright]
  apply hleft

/-- A trimmed text is a part of the text. -/
theorem trim_isInfix (t : Text) :
  trim t <:+: t
  := by
  obtain ⟨a, b, -, -, ht⟩ := exists_eq_append_trim t
  use a, b
  rw [List.append_assoc]
  exact ht.symm

/-! ### The ends of a trimmed text -/

/-- No blank is left in front. -/
theorem isBlank_of_head?_trimLeft {t : Text} {c : Char} (h : (trimLeft t).head? = some c) :
  isBlank c = false
  := by
  have hhead := List.head?_dropWhile_not isBlank t
  rw [trimLeft] at h
  rw [h] at hhead
  exact hhead

/-- No blank is left at the end. -/
theorem isBlank_of_getLast?_trimRight {t : Text} {c : Char}
    (h : (trimRight t).getLast? = some c) :
  isBlank c = false
  := by
  rw [trimRight, List.getLast?_reverse] at h
  apply isBlank_of_head?_trimLeft h

/-- A trimmed text does not start with a blank. -/
theorem isBlank_of_head?_trim {t : Text} {c : Char} (h : (trim t).head? = some c) :
  isBlank c = false
  := by
  obtain ⟨b, -, hb⟩ := exists_eq_trimRight_append (trimLeft t)
  apply isBlank_of_head?_trimLeft (t := t)
  rw [hb, List.head?_append]
  change (trimRight (trimLeft t)).head? = some c at h
  rw [h]
  rfl

/-- Nor does it end with one. -/
theorem isBlank_of_getLast?_trim {t : Text} {c : Char} (h : (trim t).getLast? = some c) :
  isBlank c = false
  := isBlank_of_getLast?_trimRight h

/-- Trimming keeps a text without a blank character at its ends. -/
theorem trim_eq_self {t : Text} (hhead : ∀ c, t.head? = some c → isBlank c = false)
    (hlast : ∀ c, t.getLast? = some c → isBlank c = false) :
  trim t = t
  := by
  have hdrop : ∀ s : Text, (∀ c, s.head? = some c → isBlank c = false) →
      s.dropWhile isBlank = s := by
    intro s hs
    cases s with
    | nil => rfl
    | cons c cs => rw [List.dropWhile_cons_of_neg (by simp [hs c rfl])]
  rw [trim, trimLeft, hdrop t hhead, trimRight, hdrop, List.reverse_reverse]
  intro c hc
  rw [List.head?_reverse] at hc
  apply hlast c hc

/-- A trimmed text has nothing left to trim. -/
@[simp]
theorem trim_trim (t : Text) :
  trim (trim t) = trim t
  := by
  apply trim_eq_self
  · exact fun c hc => isBlank_of_head?_trim hc
  · exact fun c hc => isBlank_of_getLast?_trim hc

section Filter

variable {p : Char → Bool} (hp : ∀ c, isBlank c = true → p c = false)
include hp

/-- A blank text has no character of a class without blanks. -/
theorem IsBlankText.filter_eq_nil {t : Text} (h : IsBlankText t) :
  t.filter p = []
  := by
  rw [List.filter_eq_nil_iff]
  intro c hc
  simp [hp c (h c hc)]

/-- Trimming keeps the characters of a class without blank ones. -/
theorem filter_trim (t : Text) :
  (trim t).filter p = t.filter p
  := by
  obtain ⟨a, b, ha, hb, ht⟩ := exists_eq_append_trim t
  conv_rhs => rw [ht]
  simp [ha.filter_eq_nil hp, hb.filter_eq_nil hp]

namespace Quote

/-- The lines of a text keep the characters of a class without line ends. -/
theorem filter_flatten_bareLines (t : Text) :
  (bareLines t).flatten.filter p = t.filter p
  := by
  induction t using bareLines.induct with
  | case1 => rfl
  | case2 cs ih => simp [bareLines, ih, hp '\n' (by decide)]
  | case3 cs ih => simp [bareLines, ih, hp '\n' (by decide), hp '\r' (by decide)]
  | case4 c cs hlf hcrlf hnil ih =>
    rw [hnil] at ih
    simp [bareLines, hnil, List.filter_cons, ← ih]
  | case5 c cs hlf hcrlf l ls hcons ih =>
    rw [hcons] at ih
    simp [bareLines, hcons, List.filter_cons, ← ih]

/-- A line without its quote mark keeps the characters of a class without the mark, spaces and tabs.
-/
theorem filter_dropMark (hmark : p '>' = false) (l : Text) :
  (dropMark l).filter p = l.filter p
  := by
  rw [dropMark.eq_def]
  split
  · next cs =>
    have hspaces : (cs.takeWhile isSpaceOrTab).filter p = [] := by
      apply IsBlankText.filter_eq_nil hp
      intro c hc
      apply isBlank_of_isSpaceOrTab
      apply List.mem_takeWhile_imp hc
    have hcs := List.takeWhile_append_dropWhile (p := isSpaceOrTab) (l := cs)
    rw [List.filter_cons_of_neg (by simp [hmark])]
    conv_rhs => rw [← hcs, List.filter_append, hspaces]
    rfl
  · rfl

/-- Joined lines have the characters of the lines, but for spaces. -/
theorem filter_intercalate_space (ls : List Text) :
  (List.intercalate [' '] ls).filter p = ls.flatten.filter p
  := by
  induction ls with
  | nil => rfl
  | cons l ls ih =>
    cases ls with
    | nil => simp
    | cons l' ls =>
      rw [List.intercalate_cons_cons]
      simp [hp ' ' (by decide), ih]

/-- Unquoting keeps the characters of a class without blank ones and without the quote
mark. -/
theorem filter_unquote (hmark : p '>' = false) (t : Text) :
  (unquote t).filter p = t.filter p
  := by
  rw [unquote, filter_trim hp, filter_intercalate_space hp, ← filter_flatten_bareLines hp t]
  simp only [List.filter_flatten, List.map_map]
  congr 1
  apply List.map_congr_left
  intro l _
  apply filter_dropMark hp hmark l

end Quote

end Filter

/-- Trimming keeps the number of a character that is not blank. -/
theorem count_trim {c : Char} (hc : isBlank c = false) (t : Text) :
  (trim t).count c = t.count c
  := by
  have hp : ∀ a, isBlank a = true → (!isBlank a) = false := by simp
  rw [← List.count_filter (p := fun a => !isBlank a) (l := trim t) (by simpa using hc),
    filter_trim hp, List.count_filter (by simpa using hc)]

/-- Unquoting keeps the number of a character that is neither blank nor the quote mark. -/
theorem Quote.count_unquote {c : Char} (hc : isBlank c = false) (hmark : c ≠ '>') (t : Text) :
  (unquote t).count c = t.count c
  := by
  let p : Char → Bool := fun a => !isBlank a && a != '>'
  have hp : ∀ a, isBlank a = true → p a = false := by simp +contextual [p]
  have hpc : p c = true := by simp [p, hc, hmark]
  rw [← List.count_filter (l := unquote t) hpc, filter_unquote hp (by decide),
    List.count_filter hpc]

/-- The characters of a trimmed text are characters of the text. -/
theorem mem_of_mem_trim {c : Char} {t : Text} (h : c ∈ trim t) :
  c ∈ t
  := by
  obtain ⟨a, b, -, -, ht⟩ := exists_eq_append_trim t
  rw [ht]
  apply List.mem_append_right a (List.mem_append_left b h)

namespace Quote

/-- A line holds no line feed. -/
theorem newline_not_mem_of_mem_bareLines {t l : Text} (h : l ∈ bareLines t) :
  '\n' ∉ l
  := by
  induction t using bareLines.induct generalizing l with
  | case1 =>
    obtain rfl := List.mem_singleton.mp h
    apply List.not_mem_nil
  | case2 cs ih | case3 cs ih =>
    rw [bareLines] at h
    rcases List.mem_cons.mp h with rfl | h
    · apply List.not_mem_nil
    · apply ih h
  | case4 c cs hlf hcrlf hnil ih =>
    rw [bareLines, hnil] at h
    · obtain rfl := List.mem_singleton.mp h
      simpa using fun heq => hlf heq.symm
    · apply hlf
    · apply hcrlf
  | case5 c cs hlf hcrlf l' ls hcons ih =>
    rw [bareLines, hcons] at h
    · rcases List.mem_cons.mp h with rfl | h
      · have hl' : '\n' ∉ l' := ih (by simp [hcons])
        simpa [hl'] using fun heq => hlf heq.symm
      · apply ih (by simp [hcons, h])
    · apply hlf
    · apply hcrlf

/-- An unquoted text is one line. -/
theorem newline_not_mem_unquote (t : Text) :
  '\n' ∉ unquote t
  := by
  intro h
  have h := mem_of_mem_trim h
  suffices ∀ ls : List Text, (∀ l ∈ ls, '\n' ∉ l) → '\n' ∉ List.intercalate [' '] ls by
    apply this _ _ h
    intro l hl
    obtain ⟨l', hl', rfl⟩ := List.mem_map.mp hl
    have hnl := newline_not_mem_of_mem_bareLines hl'
    rw [dropMark.eq_def]
    split
    · intro hmem
      apply hnl (List.mem_cons_of_mem _ ((List.dropWhile_sublist _).subset hmem))
    · apply hnl
  intro ls
  induction ls with
  | nil => simp
  | cons l ls ih =>
    intro hls
    cases ls with
    | nil => simpa using hls l List.mem_cons_self
    | cons l' ls =>
      rw [List.intercalate_cons_cons]
      have hl := hls l List.mem_cons_self
      have ih := ih fun l' hl' => hls l' (List.mem_cons_of_mem _ hl')
      simp [hl, ih]

end Quote

end DollarMath
