import DollarMath.Paren
import DollarMath.Proofs.Characters
import DollarMath.Proofs.MixedPieces
import DollarMath.Proofs.Signs

/-!
# What looks like mathematics with mixed line ends

Whether a text looks like mathematics is told by characters side by side, by words and by
commands, and none of these runs over a line end.  There is one exception: the digits of a number
may be grouped by a line feed in braces, but not by a carriage return and a line feed.
-/

namespace DollarMath

open LineEnds

/-- A text with a number that is split between two of its digits by a carriage return and a line
feed in braces. -/
def HasSplitNumber (t : Text) : Prop :=
  ∃ a b, isDigit a = true ∧ isDigit b = true ∧ [a, '\x7b', '\r', '\n', '\x7d', b] <:+: t

/-- What holds a part with a split number holds the number. -/
theorem HasSplitNumber.of_isInfix {s t : Text} (h : HasSplitNumber s) (hs : s <:+: t) :
  HasSplitNumber t
  := by
  obtain ⟨a, b, ha, hb, hinside⟩ := h
  exact ⟨a, b, ha, hb, hinside.trans hs⟩

namespace LineEnds

/-! ### Literals -/

theorem IsPaired.prefix_dropReturns_iff {t w : Text} (h : IsPaired t)
    (hw : ∀ c ∈ w, c ≠ '\r' ∧ c ≠ '\n') :
  w <+: dropReturns t ↔ w <+: t
  := by
  induction w generalizing t with
  | nil => simp
  | cons c w ih =>
    obtain ⟨⟨hr, hn⟩, hw⟩ := List.forall_mem_cons.mp hw
    constructor
    · rintro ⟨x, hx⟩
      obtain ⟨y, rfl, hy⟩ := h.of_dropReturns_eq_cons hn hx.symm
      rw [List.cons_prefix_cons]
      exact ⟨rfl, (ih (isPaired_cons.mp h).2 hw).mp ⟨x, hy.symm⟩⟩
    · rintro ⟨x, rfl⟩
      rw [List.cons_append] at h ⊢
      rw [dropReturns_cons hr, List.cons_prefix_cons]
      exact ⟨rfl, (ih (isPaired_cons.mp h).2 hw).mpr ⟨x, rfl⟩⟩

/-- A text without line ends occurs with the carriage returns and without. -/
theorem IsPaired.occurs_dropReturns {t w : Text} (h : IsPaired t) (hne : w ≠ [])
    (hw : ∀ c ∈ w, c ≠ '\r' ∧ c ≠ '\n') :
  occurs w (dropReturns t) = occurs w t
  := by
  induction t with
  | nil => rfl
  | cons c cs ih =>
    have ih := ih (isPaired_cons.mp h).2
    have hfront := h.prefix_dropReturns_iff hw
    rw [← List.isPrefixOf_iff_prefix, ← List.isPrefixOf_iff_prefix, ← Bool.eq_iff_iff] at hfront
    by_cases hc : c = '\r'
    · obtain ⟨d, w, rfl⟩ := List.exists_cons_of_ne_nil hne
      have hd : (d == c) = false := by
        rw [hc]
        simpa using (hw d List.mem_cons_self).1
      rw [occurs, List.isPrefixOf, hd, Bool.false_and, Bool.false_or, ← ih, hc, dropReturns_return]
    · rw [dropReturns_cons hc] at hfront ⊢
      rw [occurs, occurs, hfront, ih]

/-! ### Unquoting -/

namespace IsMixed

variable {t : Text} (h : IsMixed t)
include h

/-- The lines without their line ends are the same. -/
theorem bareLines_dropReturns :
  Quote.bareLines (dropReturns t) = Quote.bareLines t
  := by
  induction t using Quote.bareLines.induct with
  | case1 => rfl
  | case2 cs ih =>
    rw [dropReturns_cons (by decide), Quote.bareLines, Quote.bareLines, ih (isMixed_cons.mp h).2]
  | case3 cs ih =>
    rw [dropReturns_return, dropReturns_cons (by decide), Quote.bareLines, Quote.bareLines,
      ih (isMixed_cons.mp (isMixed_cons.mp h).2).2]
  | case4 c cs hlf hcrlf hnil ih | case5 c cs hlf hcrlf l ls hcons ih =>
    obtain ⟨hnext, hcs⟩ := isMixed_cons.mp h
    have hc : c ≠ '\r' := by
      intro hc
      obtain ⟨ds, hds⟩ := List.head?_eq_some_iff.mp (hnext hc)
      exact hcrlf ds hc hds
    rw [dropReturns_cons hc, Quote.bareLines, Quote.bareLines, ih hcs]
    · exact hlf
    · exact hcrlf
    · exact hlf
    · exact fun _ hcr => absurd hcr hc

/-- A quoted text is unquoted to the same line. -/
theorem unquote_dropReturns :
  Quote.unquote (dropReturns t) = Quote.unquote t
  := by
  rw [Quote.unquote, Quote.unquote, h.bareLines_dropReturns]

/-- An unquoted text has no carriage returns. -/
theorem return_not_mem_unquote :
  '\r' ∉ Quote.unquote t
  := by
  rw [← h.unquote_dropReturns]
  intro hmem
  rcases Quote.mem_of_mem_unquote hmem with hmem | heq
  · exact return_not_mem_dropReturns t hmem
  · cases heq

/-! ### Commands and words -/

/-- The same commands are read. -/
theorem command_commutes :
  Reader.Commutes id command command t
  where
  eq_none c hc p cs := by rcases hc with rfl | rfl <;> exact ⟨rfl, rfl⟩
  read u c cs ht hc hn := by
    subst ht
    have hcs := (isPaired_cons.mp h.of_append_right.isPaired).2
    rw [dropReturns_cons hc]
    by_cases hb : c = '\\'
    · subst hb
      have hname := hcs.takeWhile_dropReturns (q := isLatinLetter) (by decide) (by decide)
      have htake := List.prefix_iff_eq_take.mp (cs.takeWhile_prefix isLatinLetter)
      have hdrop : dropReturns (('\\' :: cs).take ((cs.takeWhile isLatinLetter).length + 1))
          = '\\' :: cs.takeWhile isLatinLetter := by
        rw [List.take_succ_cons, dropReturns_cons (by decide), ← htake,
          dropReturns_takeWhile (by decide)]
      simp only [command, hname]
      split
      · rfl
      · rw [Option.map_some, hdrop]
        rfl
    · have hnone : ∀ p cs, command p (c :: cs) = none := by
        intro p cs
        rw [command.eq_def]
        split
        · next heq => exact absurd (List.cons.inj heq).1 hb
        · rfl
      rw [hnone, hnone]
      rfl

/-- A text has a command with its carriage returns and without. -/
theorem hasCommand_dropReturns :
  hasCommand (dropReturns t) = hasCommand t
  := by
  rw [hasCommand, hasCommand, h.command_commutes.findAll_dropReturns, List.isEmpty_map]

/-- The commands are dropped alike. -/
theorem dropCommands_dropReturns :
  dropCommands (dropReturns t) = dropReturns (dropCommands t)
  := congrArg Replaced.text (h.command_commutes.replace_dropReturns fun _ _ => rfl)

/-- What is left without the commands has mixed line ends. -/
theorem isMixed_dropCommands :
  IsMixed (dropCommands t)
  := by
  apply h.command_commutes.isMixed_replace h
  intro m _ w hw
  obtain rfl := Option.some.inj hw
  exact isMixed_nil

end IsMixed

/-- A word starts at a letter with two more behind it. -/
theorem hasWord_cons (c : Char) (t : Text) :
  hasWord (c :: t) = (isLetter c && decide (2 ≤ (t.takeWhile isLetter).length) || hasWord t)
  := by
  cases t with
  | nil => simp [hasWord]
  | cons d t =>
    by_cases hd : isLetter d = true
    · cases t with
      | nil => simp [hasWord, hd]
      | cons e t =>
        by_cases he : isLetter e = true
        · simp [hasWord, hd, he]
        · simp [hasWord, hd, he]
    · cases t with
      | nil => simp [hasWord, hd]
      | cons e t => simp [hasWord, hd]

/-- A text has a word with its carriage returns and without. -/
theorem IsPaired.hasWord_dropReturns {t : Text} (h : IsPaired t) :
  hasWord (dropReturns t) = hasWord t
  := by
  induction t with
  | nil => rfl
  | cons c cs ih =>
    obtain ⟨-, hcs⟩ := isPaired_cons.mp h
    by_cases hc : c = '\r'
    · have hletter : isLetter '\r' = false := by decide
      rw [hc, dropReturns_return, hasWord_cons, hletter, Bool.false_and, Bool.false_or, ih hcs]
    · rw [dropReturns_cons hc, hasWord_cons, hasWord_cons, ih hcs,
        hcs.takeWhile_dropReturns (by decide) (by decide)]

/-! ### The signs of mathematics -/

/-- A digit stands in no line end. -/
theorem isDigit_ne {d : Char} (hd : isDigit d = true) :
  d ≠ '\r' ∧ d ≠ '\n'
  := by
  constructor
  · rintro rfl
    revert hd
    decide
  · rintro rfl
    revert hd
    decide

theorem IsPaired.startsWithGroup_dropReturns {t : Text} (h : IsPaired t)
    (hsplit : ∀ d, isDigit d = true → ¬ ['\x7b', '\r', '\n', '\x7d', d] <+: t) :
  startsWithGroup (dropReturns t) = startsWithGroup t
  := by
  rw [Bool.eq_iff_iff, startsWithGroup_iff, startsWithGroup_iff]
  constructor
  · rintro ⟨c, d, r, heq, hc, hd⟩
    obtain ⟨y, rfl, hy⟩ := h.of_dropReturns_eq_cons (by decide) heq
    have hpair := (isPaired_cons.mp h).2
    have hbehind : ∀ z, IsPaired z → dropReturns z = '\x7d' :: d :: r →
        ∃ r', z = '\x7d' :: d :: r' := by
      intro z hz hbrace
      obtain ⟨z, rfl, hdigit⟩ := hz.of_dropReturns_eq_cons (by decide) hbrace
      obtain ⟨r', rfl, -⟩ :=
        (isPaired_cons.mp hz).2.of_dropReturns_eq_cons (isDigit_ne hd).2 hdigit
      exact ⟨r', rfl⟩
    obtain ⟨z, hz, rfl | ⟨-, rfl⟩⟩ := hpair.cases_of_dropReturns_eq_cons hy
    · obtain ⟨r', rfl⟩ := hbehind z (isPaired_cons.mp hpair).2 hz
      exact ⟨c, d, r', rfl, hc, hd⟩
    · obtain ⟨r', rfl⟩ := hbehind z (hpair.drop 2) hz
      exact absurd ⟨r', rfl⟩ (hsplit d hd)
  · rintro ⟨c, d, r, rfl, hc, hd⟩
    have hcr : c ≠ '\r' := by
      rintro rfl
      have hnext := (isPaired_cons.mp (isPaired_cons.mp h).2).1 rfl _ rfl
      revert hnext
      decide
    refine ⟨c, d, dropReturns r, ?_, hc, hd⟩
    rw [dropReturns_cons (by decide), dropReturns_cons hcr, dropReturns_cons (by decide),
      dropReturns_cons (isDigit_ne hd).1]

/-- A text has a grouped number with its carriage returns and without, unless it splits one. -/
theorem IsPaired.hasGroupedDigits_dropReturns {t : Text} (h : IsPaired t)
    (hsplit : ¬ HasSplitNumber t) :
  hasGroupedDigits (dropReturns t) = hasGroupedDigits t
  := by
  induction t with
  | nil => rfl
  | cons c cs ih =>
    obtain ⟨-, hcs⟩ := isPaired_cons.mp h
    have ih := ih hcs fun hcut => hsplit (hcut.of_isInfix (List.suffix_cons c cs).isInfix)
    by_cases hc : c = '\r'
    · have hdigit : isDigit '\r' = false := by decide
      rw [hc, dropReturns_return, hasGroupedDigits, hdigit, Bool.false_and, Bool.false_or, ih]
    · rw [dropReturns_cons hc, hasGroupedDigits, hasGroupedDigits, ih]
      by_cases hdigit : isDigit c = true
      · rw [hcs.startsWithGroup_dropReturns]
        intro d hd hfront
        apply hsplit
        refine ⟨c, d, hdigit, hd, List.IsPrefix.isInfix ?_⟩
        rw [List.cons_prefix_cons]
        exact ⟨rfl, hfront⟩
      · rw [Bool.not_eq_true] at hdigit
        rw [hdigit, Bool.false_and, Bool.false_and]

/-- Behind the digits at the front, a line end is left. -/
theorem newline_mem_dropWhile {t : Text} (h : '\n' ∈ t) :
  '\n' ∈ t.dropWhile isDigit
  := by
  rw [← List.takeWhile_append_dropWhile (p := isDigit) (l := t), List.mem_append] at h
  apply h.resolve_left
  intro hmem
  exact absurd (List.mem_takeWhile_imp hmem) (by decide)

/-- A bare number does not go over a line end. -/
theorem isBareNumber_eq_false {t : Text} (h : '\n' ∈ trim t) :
  isBareNumber t = false
  := by
  unfold isBareNumber
  extract_lets unsigned
  have hmem : '\n' ∈ unsigned := by
    unfold unsigned
    split
    · next cs heq =>
      rw [heq] at h
      simpa using h
    · exact h
  have hrest := newline_mem_dropWhile hmem
  split
  · next hnil =>
    rw [hnil] at hrest
    cases hrest
  · next cs hdot =>
    rw [hdot] at hrest
    have hall : cs.all isDigit = false := by
      rw [List.all_eq_false]
      exact ⟨'\n', by simpa using hrest, by decide⟩
    rw [hall, Bool.and_false]
  · rfl

/-- A text is a number with its carriage returns and without. -/
theorem IsPaired.isBareNumber_dropReturns {t : Text} (h : IsPaired t) :
  isBareNumber (dropReturns t) = isBareNumber t
  := by
  by_cases hcr : '\r' ∈ trim t
  · have hn := (isMixed_trim h).newline_mem hcr
    rw [isBareNumber_eq_false hn, isBareNumber_eq_false]
    rw [trim_dropReturns, mem_dropReturns (by decide)]
    exact hn
  · rw [isBareNumber, isBareNumber, trim_dropReturns, dropReturns_eq_self hcr]

/-- A text starts with a relation with its carriage returns and without. -/
theorem IsPaired.startsWithRelation_dropReturns {t : Text} (h : IsPaired t) :
  startsWithRelation (dropReturns t) = startsWithRelation t
  := by
  have hnone : ∀ (c : Char) (cs : Text), isLatinLetter c = false →
      startsWithRelation (c :: cs) = false := by
    intro c cs hc
    rw [startsWithRelation]
    split
    · rfl
    · rw [hc, Bool.false_and, Bool.false_and]
  cases t with
  | nil => rfl
  | cons c cs =>
    obtain ⟨hnext, hcs⟩ := isPaired_cons.mp h
    by_cases hc : c = '\r'
    · rw [hc, dropReturns_return, hnone '\r' cs (by decide)]
      cases cs with
      | nil => rfl
      | cons d ds =>
        obtain rfl := hnext hc d rfl
        rw [dropReturns_cons (by decide), hnone '\n' _ (by decide)]
    · rw [dropReturns_cons hc, startsWithRelation, startsWithRelation,
        trimLeft_dropReturns]
      have htrim : IsPaired (trimLeft cs) := hcs.of_isInfix (List.dropWhile_suffix _).isInfix
      cases hleft : trimLeft cs with
      | nil => rfl
      | cons o ds =>
        have ho : o ≠ '\r' := by
          rintro rfl
          have hhead := isBlank_of_head?_trimLeft (t := cs) (by rw [hleft]; rfl)
          revert hhead
          decide
        rw [hleft] at htrim
        have hds : IsPaired (trimLeft ds) :=
          (isPaired_cons.mp htrim).2.of_isInfix (List.dropWhile_suffix _).isInfix
        rw [dropReturns_cons ho]
        dsimp only
        rw [trimLeft_dropReturns, hds.any_head?_dropReturns (by decide) (by decide)]

/-- Where a line ends, no word is going on. -/
theorem hasLatinWord_of_head? {t : Text} (h : ∀ c ∈ t.head?, isWordChar c = false)
    (inside inside' : Bool) :
  hasLatinWord inside t = hasLatinWord inside' t
  := by
  cases t with
  | nil => rfl
  | cons c cs =>
    have hc := h c rfl
    have hword : startsWithLatinWord (c :: cs) = false := by
      rw [startsWithLatinWord, List.takeWhile_cons_of_neg (by simp [hc])]
      rfl
    rw [hasLatinWord, hasLatinWord, hword, Bool.and_false, Bool.and_false]

/-- A text has a Latin word with its carriage returns and without. -/
theorem IsPaired.hasLatinWord_dropReturns {t : Text} (h : IsPaired t) (inside : Bool) :
  hasLatinWord inside (dropReturns t) = hasLatinWord inside t
  := by
  induction t generalizing inside with
  | nil => rfl
  | cons c cs ih =>
    obtain ⟨hnext, hcs⟩ := isPaired_cons.mp h
    by_cases hc : c = '\r'
    · have hline : ∀ d ∈ cs.head?, isWordChar d = false := by
        intro d hd
        rw [hnext hc d hd]
        decide
      have hword : startsWithLatinWord ('\r' :: cs) = false := by
        rw [startsWithLatinWord, List.takeWhile_cons_of_neg (by decide)]
        rfl
      rw [hc, dropReturns_return, hasLatinWord, hword, Bool.and_false, Bool.false_or, ih hcs]
      exact hasLatinWord_of_head? hline _ _
    · have hrun := h.takeWhile_dropReturns (q := isWordChar) (by decide) (by decide)
      rw [dropReturns_cons hc] at hrun ⊢
      rw [hasLatinWord, hasLatinWord, startsWithLatinWord, startsWithLatinWord, hrun, ih hcs]

/-- A text looks like mathematics with its carriage returns and without, unless it splits a
number. -/
theorem IsPaired.looksMath_dropReturns {t : Text} (h : IsPaired t) (hsplit : ¬ HasSplitNumber t) :
  looksMath (dropReturns t) = looksMath t
  := by
  rw [looksMath, looksMath, any_dropReturns (by decide), any_dropReturns (by decide),
    any_dropReturns (by decide), any_dropReturns (by decide),
    h.hasGroupedDigits_dropReturns hsplit, h.isBareNumber_dropReturns,
    h.startsWithRelation_dropReturns, h.hasLatinWord_dropReturns]

namespace IsMixed

variable {t : Text} (h : IsMixed t) (hsplit : ¬ HasSplitNumber t)
include h hsplit

/-- The body of a bracket is mathematics with its carriage returns and without. -/
theorem isBracketMath_dropReturns :
  isBracketMath (dropReturns t) = isBracketMath t
  := by
  have hfoot : (dropReturns t).head? ≠ some '^' ↔ t.head? ≠ some '^' :=
    not_congr (h.isPaired.head?_dropReturns_iff (by decide))
  rw [isBracketMath, isBracketMath, h.hasCommand_dropReturns,
    h.isPaired.looksMath_dropReturns hsplit]
  simp only [hfoot]

/-- The body of a parenthesis is mathematics with its carriage returns and without. -/
theorem isMath_dropReturns :
  Paren.isMath (dropReturns t) = Paren.isMath t
  := by
  rw [Paren.isMath, Paren.isMath, h.isPaired.occurs_dropReturns (by simp) (by simp),
    h.isPaired.occurs_dropReturns (by simp) (by simp), h.dropCommands_dropReturns,
    h.isMixed_dropCommands.isPaired.hasWord_dropReturns, h.isPaired.looksMath_dropReturns hsplit]

end IsMixed

end LineEnds

end DollarMath
