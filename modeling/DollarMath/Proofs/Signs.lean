import DollarMath.Likeness
import DollarMath.Proofs.Trimming
import Mathlib.Data.List.Infix

/-!
# Signs of mathematics

A text is read from left to right to find out whether it looks like mathematics: digits are
passed over as far as they go, blank characters are skipped, and a word is looked for where no
word is going on.  What is found can be told without the reading, by the characters of the text
and where they stand.
-/

namespace DollarMath

/-! ### Grouped digits -/

/-- What a group starts with: a mark or a blank in braces, and a digit. -/
theorem startsWithGroup_iff {t : Text} :
  startsWithGroup t = true
    ↔ ∃ c d r, t = '\x7b' :: c :: '\x7d' :: d :: r ∧ (c = ',' ∨ c = '.' ∨ isBlank c = true)
      ∧ isDigit d = true
  := by
  constructor
  · intro h
    rw [startsWithGroup.eq_def] at h
    split at h
    · next c d r =>
      simp only [Bool.and_eq_true, Bool.or_eq_true, decide_eq_true_eq] at h
      exact ⟨c, d, r, rfl, by tauto, h.2⟩
    · cases h
  · rintro ⟨c, d, r, rfl, hc, hd⟩
    simp only [startsWithGroup, Bool.and_eq_true, Bool.or_eq_true, decide_eq_true_eq]
    exact ⟨by tauto, hd⟩

/-- A group mark in braces between two digits. -/
def IsGrouped (g : Text) : Prop :=
  ∃ a c b, g = [a, '\x7b', c, '\x7d', b] ∧ isDigit a = true ∧ isDigit b = true
    ∧ (c = ',' ∨ c = '.' ∨ isBlank c = true)

/-- Grouped digits stand in front if a digit and a group do. -/
theorem exists_isGrouped_prefix_iff {c : Char} {cs : Text} :
  (∃ g, IsGrouped g ∧ g <+: c :: cs) ↔ isDigit c = true ∧ startsWithGroup cs = true
  := by
  rw [startsWithGroup_iff]
  constructor
  · rintro ⟨_, ⟨a, m, b, rfl, ha, hb, hm⟩, r, heq⟩
    obtain ⟨rfl, rfl⟩ := List.cons.inj heq
    exact ⟨ha, m, b, r, rfl, hm, hb⟩
  · rintro ⟨hc, m, b, r, rfl, hm, hb⟩
    exact ⟨_, ⟨c, m, b, rfl, hc, hb, hm⟩, r, rfl⟩

/-- A grouped number stands in five characters in a row. -/
theorem hasGroupedDigits_iff {t : Text} :
  hasGroupedDigits t = true ↔ ∃ g, IsGrouped g ∧ g <:+: t
  := by
  induction t with
  | nil =>
    simp only [hasGroupedDigits, Bool.false_eq_true, List.infix_nil, false_iff, not_exists, not_and]
    rintro _ ⟨a, c, b, rfl, -⟩
    apply List.cons_ne_nil
  | cons c cs ih =>
    rw [hasGroupedDigits, Bool.or_eq_true, Bool.and_eq_true, ih, ← exists_isGrouped_prefix_iff,
      ← exists_or]
    simp only [List.infix_cons_iff, and_or_left]

/-! ### Bare numbers -/

/-- One digit or more, and nothing else. -/
structure IsDigits (t : Text) : Prop where
  /-- There is a digit. -/
  ne_nil : t ≠ []
  /-- There are digits only. -/
  all : ∀ c ∈ t, isDigit c = true

/-- Digits, and perhaps a point and more digits. -/
def IsUnsigned (t : Text) : Prop :=
  IsDigits t ∨ ∃ whole part, t = whole ++ '.' :: part ∧ IsDigits whole ∧ IsDigits part

/-- A number, perhaps with a minus before it. -/
def IsNumber (t : Text) : Prop :=
  ∃ sign u, t = sign ++ u ∧ (sign = [] ∨ sign = ['-']) ∧ IsUnsigned u

/-- A number without a minus starts with a digit. -/
theorem IsUnsigned.exists_cons {t : Text} (h : IsUnsigned t) :
  ∃ c cs, t = c :: cs ∧ isDigit c = true
  := by
  obtain ⟨whole, rest, rfl, hwhole⟩ : ∃ whole rest, t = whole ++ rest ∧ IsDigits whole := by
    rcases h with h | ⟨whole, part, rfl, hwhole, -⟩
    · exact ⟨t, [], (List.append_nil t).symm, h⟩
    · exact ⟨whole, _, rfl, hwhole⟩
  obtain ⟨c, cs, rfl⟩ := List.exists_cons_of_ne_nil hwhole.ne_nil
  exact ⟨c, cs ++ rest, rfl, hwhole.all c List.mem_cons_self⟩

/-- A number is read as its minus, if it has one, and the rest. -/
theorem isNumber_iff {t : Text} :
  IsNumber t ↔ IsUnsigned (match t with | '-' :: cs => cs | cs => cs)
  := by
  have hminus : ∀ cs, ¬ IsUnsigned ('-' :: cs) := by
    intro cs h
    obtain ⟨c, _, heq, hc⟩ := h.exists_cons
    obtain ⟨rfl, -⟩ := List.cons.inj heq
    revert hc
    decide
  constructor
  · rintro ⟨_, u, rfl, rfl | rfl, hu⟩
    · split
      · next cs heq =>
        rw [List.nil_append] at heq
        rw [heq] at hu
        exact absurd hu (hminus cs)
      · exact hu
    · exact hu
  · split
    · next cs => exact fun h => ⟨['-'], cs, rfl, .inr rfl, h⟩
    · exact fun h => ⟨[], _, rfl, .inl rfl, h⟩

/-- The digits at the front of a number without a minus go up to its point, or to its end. -/
theorem isUnsigned_iff {t : Text} :
  IsUnsigned t
    ↔ (t ≠ [] ∧ t.dropWhile isDigit = [])
      ∨ ∃ part, t.dropWhile isDigit = '.' :: part ∧ t.head?.any isDigit = true ∧ IsDigits part
  := by
  have hcat := List.takeWhile_append_dropWhile (p := isDigit) (l := t)
  have hfront : ∀ c ∈ t.takeWhile isDigit, isDigit c = true := fun c hc =>
    List.mem_takeWhile_imp hc
  constructor
  · rintro (h | ⟨whole, part, rfl, hwhole, hpart⟩)
    · left
      exact ⟨h.ne_nil, List.dropWhile_eq_nil_iff.mpr h.all⟩
    · right
      obtain ⟨c, cs, rfl⟩ := List.exists_cons_of_ne_nil hwhole.ne_nil
      refine ⟨part, ?_, hwhole.all c List.mem_cons_self, hpart⟩
      rw [List.dropWhile_append_of_pos hwhole.all]
      apply List.dropWhile_cons_of_neg
      decide
  · rintro (⟨hne, hnil⟩ | ⟨part, hdrop, hhead, hpart⟩)
    · left
      exact ⟨hne, List.dropWhile_eq_nil_iff.mp hnil⟩
    · right
      rw [hdrop] at hcat
      refine ⟨t.takeWhile isDigit, part, hcat.symm, ⟨?_, hfront⟩, hpart⟩
      intro hnil
      have hpoint : isDigit '.' = false := by decide
      rw [hnil, List.nil_append] at hcat
      rw [← hcat, List.head?_cons, Option.any_some, hpoint] at hhead
      cases hhead

/-- A bare number is a number between blank characters. -/
theorem isBareNumber_iff {t : Text} :
  isBareNumber t = true ↔ IsNumber (trim t)
  := by
  rw [isNumber_iff, isUnsigned_iff]
  unfold isBareNumber
  extract_lets u
  change _ ↔ (u ≠ [] ∧ u.dropWhile isDigit = [])
    ∨ ∃ part, u.dropWhile isDigit = '.' :: part ∧ u.head?.any isDigit = true ∧ IsDigits part
  split
  · next hnil => simp [hnil]
  · next part hpoint =>
    have hdigits : IsDigits part ↔ part.isEmpty = false ∧ part.all isDigit = true := by
      rw [List.isEmpty_eq_false_iff, List.all_eq_true]
      exact ⟨fun h => ⟨h.ne_nil, h.all⟩, fun h => ⟨h.1, h.2⟩⟩
    simp [hpoint, hdigits, and_assoc]
  · next hnil hpoint =>
    simp only [Bool.false_eq_true, false_iff, not_or, not_and, not_exists]
    exact ⟨fun _ => hnil, fun part h => absurd h (hpoint part)⟩

/-! ### Relations -/

/-- No character of a checked list is blank. -/
theorem isBlank_of_mem {cs : List Char} {c : Char} (hcs : cs.all (fun c => !isBlank c) = true)
    (hc : c ∈ cs) :
  isBlank c = false
  := by
  have hnot := List.all_eq_true.mp hcs c hc
  rwa [Bool.not_eq_true'] at hnot

/-- An operator or a relation is not blank. -/
theorem isBlank_of_isRelation {o : Char} (h : isRelation o = true) :
  isBlank o = false
  := isBlank_of_mem (by decide) (of_decide_eq_true h)

/-- No letter is blank. -/
theorem isBlank_of_isLatinLetter {c : Char} (h : isLatinLetter c = true) :
  isBlank c = false
  := by
  have hrange : (97 ≤ c.toNat ∧ c.toNat ≤ 122) ∨ (65 ≤ c.toNat ∧ c.toNat ≤ 90) := by
    simpa [isLatinLetter, Char.le_def, UInt32.le_iff_toNat_le] using h
  simp only [isBlank, blankRanges, CodeRanges.has, Bool.and_eq_false_iff, Bool.or_eq_false_iff,
    decide_eq_false_iff_not]
  omega

/-- Blank characters are skipped up to the first one that is not blank. -/
theorem trimLeft_append_cons {x : Text} {c : Char} (hx : IsBlankText x) (hc : isBlank c = false)
    (cs : Text) :
  trimLeft (x ++ c :: cs) = c :: cs
  := by
  rw [trimLeft, List.dropWhile_append_of_pos hx]
  apply List.dropWhile_cons_of_neg
  rw [hc]
  apply Bool.false_ne_true

/-- A letter, an operator or a relation, and a letter, with blank characters between them, at the
front of a text. -/
def IsRelationFront (t : Text) : Prop :=
  ∃ a x o y b rest, t = a :: (x ++ o :: (y ++ b :: rest))
    ∧ isLatinLetter a = true ∧ IsBlankText x
    ∧ o ∈ ['=', '<', '>', '+', '-', '*', '/'] ∧ IsBlankText y ∧ isLatinLetter b = true

/-- A relation at the front of a text is read part by part. -/
theorem startsWithRelation_iff {t : Text} :
  startsWithRelation t = true ↔ IsRelationFront t
  := by
  constructor
  · intro h
    cases t with
    | nil => cases h
    | cons a cs =>
      rw [startsWithRelation] at h
      split at h
      · cases h
      · next o ds hfirst =>
        obtain ⟨x, hx, hcs⟩ := exists_eq_append_trimLeft cs
        obtain ⟨y, hy, hds⟩ := exists_eq_append_trimLeft ds
        rw [Bool.and_eq_true, Bool.and_eq_true, Option.any_eq_true] at h
        obtain ⟨⟨ha, ho⟩, b, hb, hletter⟩ := h
        obtain ⟨rest, hsecond⟩ := List.head?_eq_some_iff.mp hb
        rw [hsecond] at hds
        rw [hfirst, hds] at hcs
        rw [hcs]
        exact ⟨a, x, o, y, b, rest, rfl, ha, hx, of_decide_eq_true ho, hy, hletter⟩
  · rintro ⟨a, x, o, y, b, rest, rfl, ha, hx, ho, hy, hb⟩
    have ho : isRelation o = true := decide_eq_true ho
    rw [startsWithRelation, trimLeft_append_cons hx (isBlank_of_isRelation ho)]
    dsimp only
    rw [trimLeft_append_cons hy (isBlank_of_isLatinLetter hb), ha, ho, List.head?_cons,
      Option.any_some, hb]
    rfl

/-! ### Words -/

/-- A text `w` between `u` and `v` that is one of the longest runs of characters of plain words:
it holds no other characters, and none of them stands next to it. -/
structure IsWordRun (u w v : Text) : Prop where
  /-- All characters of the run are characters of plain words. -/
  all : ∀ c ∈ w, isWordChar c = true
  /-- The run does not go on to the left. -/
  before : ∀ c ∈ u.getLast?, isWordChar c = false
  /-- The run does not go on to the right. -/
  behind : ∀ c ∈ v.head?, isWordChar c = false

/-- Two Latin letters or more, and nothing else. -/
structure IsLatinWord (w : Text) : Prop where
  /-- There are two letters or more. -/
  length : 2 ≤ w.length
  /-- There are letters only. -/
  all : ∀ c ∈ w, isLatinLetter c = true

/-- A text starts with a word if its first run of word characters is one. -/
theorem startsWithLatinWord_iff {t : Text} :
  startsWithLatinWord t = true ↔ ∃ w v, t = w ++ v ∧ IsWordRun [] w v ∧ IsLatinWord w
  := by
  rw [startsWithLatinWord, Bool.and_eq_true, List.all_eq_true, decide_eq_true_eq]
  constructor
  · rintro ⟨hall, hlength⟩
    refine ⟨t.takeWhile isWordChar, t.dropWhile isWordChar, ?_, ?_, hlength, hall⟩
    · exact List.takeWhile_append_dropWhile.symm
    · refine ⟨fun c hc => List.mem_takeWhile_imp hc, by simp, ?_⟩
      intro c hc
      have hstop := List.head?_dropWhile_not isWordChar t
      rw [Option.mem_def.mp hc] at hstop
      simpa using hstop
  · rintro ⟨w, v, rfl, hrun, hword⟩
    have htake : (w ++ v).takeWhile isWordChar = w := by
      rw [List.takeWhile_append_of_pos hrun.all]
      cases v with
      | nil => exact List.append_nil w
      | cons c cs =>
        have hc := hrun.behind c rfl
        rw [List.takeWhile_cons_of_neg (by simp [hc]), List.append_nil]
    rw [htake]
    exact ⟨hword.all, hword.length⟩

/-- A word is looked for where none is going on, so it is a longest run. -/
theorem hasLatinWord_iff {inside : Bool} {t : Text} :
  hasLatinWord inside t = true
    ↔ ∃ u w v, t = u ++ (w ++ v) ∧ (u = [] → inside = false) ∧ IsWordRun u w v ∧ IsLatinWord w
  := by
  induction t generalizing inside with
  | nil =>
    simp only [hasLatinWord, Bool.false_eq_true, false_iff, not_exists, not_and]
    intro u w v heq _ _ hword
    simp only [List.nil_eq, List.append_eq_nil_iff] at heq
    have hlength := hword.length
    rw [heq.2.1] at hlength
    cases hlength
  | cons c cs ih =>
    rw [hasLatinWord, Bool.or_eq_true, Bool.and_eq_true, Bool.not_eq_true', startsWithLatinWord_iff,
      ih]
    constructor
    · rintro (⟨hinside, w, v, heq, hrun, hword⟩ | ⟨u, w, v, rfl, hfirst, hrun, hword⟩)
      · exact ⟨[], w, v, heq, fun _ => hinside, hrun, hword⟩
      · refine ⟨c :: u, w, v, rfl, by simp, ⟨hrun.all, ?_, hrun.behind⟩, hword⟩
        intro d hd
        cases u with
        | nil =>
          obtain rfl : c = d := by simpa using hd
          exact hfirst rfl
        | cons a u =>
          rw [List.getLast?_cons_cons] at hd
          exact hrun.before d hd
    · rintro ⟨u, w, v, heq, hfirst, hrun, hword⟩
      cases u with
      | nil => exact .inl ⟨hfirst rfl, w, v, heq, hrun, hword⟩
      | cons a u =>
        obtain ⟨rfl, rfl⟩ := List.cons.inj heq
        right
        refine ⟨u, w, v, rfl, ?_, ⟨hrun.all, ?_, hrun.behind⟩, hword⟩
        · rintro rfl
          exact hrun.before c rfl
        · intro d hd
          apply hrun.before d
          rw [List.getLast?_cons]
          simp [Option.mem_def.mp hd]

/-! ### Six signs -/

/-- A text that has a sign of mathematics, by the characters in it and where they stand. -/
inductive HasSign (t : Text) : Prop
  /-- A backslash, a mark of an index or an exponent, or one of five symbols. -/
  | mark (c : Char) (hc : c ∈ t) (hmark : c ∈ ['\\', '_', '^', '→', '∞', '±', '≥', '≤'])
  /-- Two digits with a group mark in braces between them. -/
  | group (g : Text) (hg : g <:+: t) (hgroup : IsGrouped g)
  /-- A digit, and an operator, a relation or a comma. -/
  | reckoning (d o : Char) (hd : d ∈ t) (hdigit : isDigit d = true) (ho : o ∈ t)
    (hoperator : o ∈ ['+', '-', '*', '/', '=', '<', '>', ','])
  /-- A number and nothing else but blank characters around it. -/
  | number (h : IsNumber (trim t))
  /-- A relation between two letters at the front. -/
  | relation (h : IsRelationFront t)
  /-- A letter, and an operator, a relation or a comma, and no word. -/
  | letters (a o : Char) (ha : a ∈ t) (hletter : isLatinLetter a = true) (ho : o ∈ t)
    (hoperator : o ∈ ['+', '-', '*', '/', '=', '<', '>', ','])
    (hword : ∀ u w v, t = u ++ (w ++ v) → IsWordRun u w v → ¬ IsLatinWord w)

/-- A text looks like mathematics exactly when it has one of the six signs. -/
theorem looksMath_iff {t : Text} :
  looksMath t = true ↔ HasSign t
  := by
  have hoperator : t.any isOperator = true
      ↔ ∃ o ∈ t, o ∈ ['+', '-', '*', '/', '=', '<', '>', ','] := by
    simp only [List.any_eq_true, isOperator, decide_eq_true_eq]
  have hword : hasLatinWord false t = false
      ↔ ∀ u w v, t = u ++ (w ++ v) → IsWordRun u w v → ¬ IsLatinWord w := by
    rw [← Bool.not_eq_true, hasLatinWord_iff]
    simp
  simp only [looksMath, Bool.or_eq_true, Bool.and_eq_true, Bool.not_eq_true', or_assoc, and_assoc,
    hasGroupedDigits_iff, isBareNumber_iff, startsWithRelation_iff, hoperator, hword]
  constructor
  · rintro (h | ⟨g, hgroup, hg⟩ | ⟨⟨o, ho, hoperator⟩, h⟩ | h | h | ⟨⟨o, ho, hoperator⟩, h, hword⟩)
    · obtain ⟨c, hc, hmark⟩ := List.any_eq_true.mp h
      exact .mark c hc (of_decide_eq_true hmark)
    · exact .group g hg hgroup
    · obtain ⟨d, hd, hdigit⟩ := List.any_eq_true.mp h
      exact .reckoning d o hd hdigit ho hoperator
    · exact .number h
    · exact .relation h
    · obtain ⟨a, ha, hletter⟩ := List.any_eq_true.mp h
      exact .letters a o ha hletter ho hoperator hword
  · intro h
    cases h with
    | mark c hc hmark => exact .inl (List.any_eq_true.mpr ⟨c, hc, decide_eq_true hmark⟩)
    | group g hg hgroup => exact .inr (.inl ⟨g, hgroup, hg⟩)
    | reckoning d o hd hdigit ho hoperator =>
      exact .inr (.inr (.inl ⟨⟨o, ho, hoperator⟩, List.any_eq_true.mpr ⟨d, hd, hdigit⟩⟩))
    | number h => exact .inr (.inr (.inr (.inl h)))
    | relation h => exact .inr (.inr (.inr (.inr (.inl h))))
    | letters a o ha hletter ho hoperator hword =>
      exact .inr (.inr (.inr (.inr (.inr
        ⟨⟨o, ho, hoperator⟩, List.any_eq_true.mpr ⟨a, ha, hletter⟩, hword⟩))))

end DollarMath
