import DollarMath.Proofs.Brackets
import DollarMath.Proofs.Pairing
import DollarMath.Proofs.Spared

/-!
# Marks of displays

A display between backslash brackets starts at an opening bracket behind a single backslash, and
stops at the next closing bracket behind a backslash.  The text before a bracket shows in the number
of backslashes at its end only, so these marks can be listed in one pass.  The conversion of
displays leaves no display, if none holds an opening mark in its body; all conversions from the
bracket blocks on take marks away, and make none.
-/

namespace DollarMath

open scoped List

/-- The number of backslashes at the end of a text, with `n` of them before it. -/
def backslashes (n : Nat) : Text → Nat
  | [] => n
  | c :: cs => backslashes (if c = '\\' then n + 1 else 0) cs

/-- The brackets of a text that may start a display, `true`, and those that may stop one, `false`,
with `n` backslashes before the text. -/
def displayMarks (n : Nat) : Text → List Bool
  | [] => []
  | c :: cs =>
    let rest := displayMarks (if c = '\\' then n + 1 else 0) cs
    if c = '[' ∧ n = 1 then true :: rest
    else if c = ']' ∧ 0 < n then false :: rest
    else rest

/-- The backslashes before the end of two texts. -/
theorem backslashes_append (n : Nat) (s t : Text) :
  backslashes n (s ++ t) = backslashes (backslashes n s) t
  := by
  induction s generalizing n with
  | nil => rfl
  | cons c s ih => exact ih _

/-- The marks of two texts, where the second one may go on with the backslashes of the first. -/
theorem displayMarks_append (n : Nat) (s t : Text) :
  displayMarks n (s ++ t) = displayMarks n s ++ displayMarks (backslashes n s) t
  := by
  induction s generalizing n with
  | nil => rfl
  | cons c s ih =>
    rw [List.cons_append, displayMarks, displayMarks, ih]
    split
    · rfl
    · split
      · rfl
      · rfl

/-- A text that ends otherwise ends with no backslash. -/
theorem backslashes_eq_zero {s : Text} (hne : s ≠ []) (h : s.getLast? ≠ some '\\') (n : Nat) :
  backslashes n s = 0
  := by
  obtain ⟨s, c, rfl⟩ := (List.eq_nil_or_concat' s).resolve_left hne
  rw [List.getLast?_concat] at h
  rw [backslashes_append, backslashes, if_neg fun heq => h (congrArg some heq)]
  rfl

/-- Without brackets there are no marks. -/
theorem displayMarks_eq_nil {s : Text} (hopen : '[' ∉ s) (hclose : ']' ∉ s) (n : Nat) :
  displayMarks n s = []
  := by
  induction s generalizing n with
  | nil => rfl
  | cons c s ih =>
    rw [List.mem_cons, not_or] at hopen hclose
    rw [displayMarks, if_neg fun heq => hopen.1 heq.1.symm, if_neg fun heq => hclose.1 heq.1.symm]
    exact ih hopen.2 hclose.2 _

/-! ### Displays -/

/-- A display between backslash brackets stands in a text. -/
def HoldsBackslashed (t : Text) : Prop :=
  ∃ x b y, t = x ++ (['\\', '['] ++ (b ++ (['\\', ']'] ++ y))) ∧ x.getLast? ≠ some '\\'

/-- A closing mark is a closing delimiter. -/
theorem exists_of_closing_mem {t : Text} (h : false ∈ displayMarks 0 t) :
  ['\\', ']'] <:+: t
  := by
  suffices ∀ n, false ∈ displayMarks n t → ['\\', ']'] <:+: List.replicate n '\\' ++ t from
    this 0 h
  clear h
  intro n
  induction t generalizing n with
  | nil => exact fun h => nomatch h
  | cons c cs ih =>
    intro h
    rw [displayMarks] at h
    have hlater : false ∈ displayMarks (if c = '\\' then n + 1 else 0) cs →
        ['\\', ']'] <:+: List.replicate n '\\' ++ c :: cs := by
      intro hmem
      have hinfix := ih _ hmem
      split at hinfix
      · next hc => rwa [hc, List.append_cons, ← List.replicate_succ']
      · exact hinfix.trans ((List.suffix_cons c cs).trans (List.suffix_append _ _)).isInfix
    split at h
    · exact hlater ((List.mem_cons.mp h).resolve_left nofun)
    · split at h
      · next hc =>
        obtain ⟨rfl, hpos⟩ := hc
        obtain ⟨k, rfl⟩ := Nat.exists_eq_add_of_lt hpos
        refine ⟨List.replicate k '\\', cs, ?_⟩
        rw [Nat.zero_add, List.replicate_succ']
        simp
      · exact hlater h

/-- The marks of a text tell whether a display stands in it. -/
theorem holdsBackslashed_iff {t : Text} :
  HoldsBackslashed t ↔ [true, false] <+ displayMarks 0 t
  := by
  constructor
  · rintro ⟨x, b, y, rfl, hx⟩
    have hzero : backslashes 0 x = 0 := by
      by_cases hnil : x = []
      · rw [hnil]
        rfl
      · exact backslashes_eq_zero hnil hx 0
    have hclose : false ∈ displayMarks 0 (b ++ (['\\', ']'] ++ y)) := by
      rw [displayMarks_append, displayMarks_append]
      apply List.mem_append_right
      apply List.mem_append_left
      simp [displayMarks]
    rw [displayMarks_append, displayMarks_append, hzero]
    apply List.sublist_append_of_sublist_right
    exact (List.singleton_sublist.mpr hclose).cons_cons true
  · suffices ∀ n x u, backslashes 0 x = n → [true, false] <+ displayMarks n u →
        HoldsBackslashed (x ++ u) from this 0 [] t rfl
    intro n x u
    induction u generalizing n x with
    | nil => exact fun _ h => nomatch h
    | cons c cs ih =>
      intro hx h
      rw [displayMarks] at h
      have hnext : backslashes 0 (x ++ [c]) = if c = '\\' then n + 1 else 0 := by
        rw [backslashes_append, hx]
        rfl
      have hlater : [true, false] <+ displayMarks (if c = '\\' then n + 1 else 0) cs →
          HoldsBackslashed (x ++ c :: cs) := by
        intro hsub
        rw [List.append_cons]
        exact ih _ _ hnext hsub
      split at h
      · next hc =>
        obtain ⟨rfl, rfl⟩ := hc
        have hmem := List.singleton_sublist.mp (List.cons_sublist_cons.mp h)
        obtain ⟨b, y, rfl⟩ := exists_of_closing_mem hmem
        rcases List.eq_nil_or_concat' x with rfl | ⟨x, d, rfl⟩
        · cases hx
        · rw [backslashes_append, backslashes, backslashes] at hx
          obtain rfl : d = '\\' := by
            by_contra hd
            rw [if_neg hd] at hx
            cases hx
          rw [if_pos rfl, Nat.add_right_cancel_iff] at hx
          refine ⟨x, b, y, by simp, ?_⟩
          intro hlast
          obtain ⟨x, rfl⟩ := List.getLast?_eq_some_iff.mp hlast
          rw [backslashes_append] at hx
          cases hx
      · split at h
        · exact hlater (List.Sublist.of_cons_of_ne (by decide) h)
        · exact hlater h

/-- No display is read behind a backslash or where none stands. -/
theorem passes_display_iff {p : Place} {t : Text} :
  Delimiter.display.reader.Passes p t
    ↔ p.escaped = true ∨ ∀ b y, t ≠ ['\\', '['] ++ (b ++ (['\\', ']'] ++ y))
  := by
  constructor
  · intro hpass
    rw [Classical.or_iff_not_imp_left, Bool.not_eq_true]
    rintro hescaped b y rfl
    cases hbody : Pattern.upTo (.literal ['\\', ']']) (b ++ (['\\', ']'] ++ y)) with
    | none =>
      exact (Pattern.upTo_literal_eq_none_iff (List.cons_ne_nil _ _)).mp hbody
        ⟨b, y, List.append_assoc _ _ _⟩
    | some r =>
      apply hpass ⟨[], [], ['\\', '['], r.1, ['\\', ']']⟩ (r.1.length + 3)
      change Delimiter.readDisplay p ('\\' :: '[' :: (b ++ (['\\', ']'] ++ y))) = _
      rw [Delimiter.readDisplay, hescaped, hbody]
      rfl
  · intro h e k hread
    change Delimiter.readDisplay p t = _ at hread
    rw [Delimiter.readDisplay.eq_def] at hread
    split at hread
    · next cs =>
      simp only [Option.ite_none_left_eq_some, Option.map_eq_some_iff] at hread
      obtain ⟨hescaped, ⟨b, m⟩, hbody, -⟩ := hread
      obtain ⟨rest, rfl, hrest⟩ := Pattern.exists_of_upTo_eq_some hbody
      obtain ⟨-, y, rfl⟩ := Pattern.literal_eq_some_iff.mp hrest
      exact (h.resolve_left hescaped) b y rfl
    · cases hread

/-- A display is found exactly where one stands in the text. -/
theorem findAll_display_eq_nil_iff {t : Text} :
  Delimiter.display.reader.findAll t = [] ↔ ¬ HoldsBackslashed t
  := by
  constructor
  · rintro hnil ⟨x, b, y, rfl, hx⟩
    have hpasses := Reader.passes_or_exists_of_getElem? Delimiter.display.reader
      (t := x ++ (['\\', '['] ++ (b ++ (['\\', ']'] ++ y)))) (i := x.length) (c := '\\') (by simp)
    rw [hnil] at hpasses
    rcases hpasses with ⟨-, hpass⟩ | ⟨m, hm, -⟩
    · rw [List.take_left, List.drop_left, passes_display_iff] at hpass
      rcases hpass with hescaped | hne
      · rw [Place.escaped, Place.before_start_after, decide_eq_true_eq] at hescaped
        exact hx hescaped
      · exact hne b y rfl
    · cases hm
  · intro h
    apply List.eq_nil_iff_forall_not_mem.mpr
    intro m hm
    obtain ⟨x, k, ht, -, hread, -⟩ := Reader.exists_of_mem_pieces hm
    have hnot : ¬ Delimiter.display.reader.Passes (Place.start.after x) (m.source ++ m.rest) :=
      fun hpass => hpass _ _ hread
    rw [passes_display_iff, not_or] at hnot
    obtain ⟨hescaped, hsource⟩ := hnot
    push Not at hsource
    obtain ⟨b, y, hsource⟩ := hsource
    refine h ⟨x, b, y, by rw [ht, hsource], ?_⟩
    rwa [Place.escaped, Place.before_start_after, decide_eq_true_eq] at hescaped

/-! ### Marks that are kept -/

/-- As many backslashes stand at the end of one text as at the end of another one, and its marks
are among those of the other one, whatever stands before them. -/
def HasMarksOf (t w : Text) : Prop :=
  ∀ n, backslashes n w = backslashes n t ∧ displayMarks n w <+ displayMarks n t

namespace HasMarksOf

/-- A text has its own marks. -/
theorem refl (t : Text) :
  HasMarksOf t t
  := fun n => ⟨rfl, List.Sublist.refl (displayMarks n t)⟩

/-- Texts side by side have the marks of those that they come from. -/
theorem append {s t u w : Text} (hs : HasMarksOf s u) (ht : HasMarksOf t w) :
  HasMarksOf (s ++ t) (u ++ w)
  := by
  intro n
  obtain ⟨hends, hmarks⟩ := hs n
  rw [backslashes_append, backslashes_append, displayMarks_append, displayMarks_append, hends]
  exact ⟨(ht _).1, hmarks.append (ht _).2⟩

/-- No display comes up where no mark does. -/
theorem holdsBackslashed {t w : Text} (h : HasMarksOf t w) (hw : HoldsBackslashed w) :
  HoldsBackslashed t
  := by
  rw [holdsBackslashed_iff] at hw ⊢
  exact hw.trans (h 0).2

/-- What stands around a body may be changed, if no backslash stands before the body or at the
end, and no brackets are written. -/
theorem of_body {a b a' b' : Text} (body : Text)
    (ha : a ≠ [] ∧ a.getLast? ≠ some '\\') (hb : b ≠ [] ∧ b.getLast? ≠ some '\\')
    (ha' : a' ≠ [] ∧ a'.getLast? ≠ some '\\') (hb' : b' ≠ [] ∧ b'.getLast? ≠ some '\\')
    (hopen : '[' ∉ a' ++ b') (hclose : ']' ∉ a' ++ b') :
  HasMarksOf (a ++ (body ++ b)) (a' ++ (body ++ b'))
  := by
  intro n
  rw [List.mem_append, not_or] at hopen hclose
  simp only [backslashes_append, displayMarks_append, backslashes_eq_zero ha.1 ha.2,
    backslashes_eq_zero hb.1 hb.2, backslashes_eq_zero ha'.1 ha'.2, backslashes_eq_zero hb'.1 hb'.2,
    displayMarks_eq_nil hopen.1 hclose.1, displayMarks_eq_nil hopen.2 hclose.2, List.nil_append,
    List.append_nil]
  refine ⟨trivial, ?_⟩
  apply List.sublist_append_of_sublist_right
  apply List.sublist_append_left

end HasMarksOf

/-- Blank characters at its end do not make a text end with a backslash. -/
theorem IsBlankText.getLast?_append_ne {a s : Text} (ha : IsBlankText a)
    (hs : s.getLast? ≠ some '\\') :
  (s ++ a).getLast? ≠ some '\\'
  := by
  rcases List.eq_nil_or_concat' a with rfl | ⟨a, c, rfl⟩
  · rwa [List.append_nil]
  · rw [← List.append_assoc, List.getLast?_concat]
    intro heq
    have hblank := ha c List.mem_concat_self
    rw [Option.some.inj heq] at hblank
    cases hblank

/-- A body that is trimmed, with what stands around it changed. -/
theorem HasMarksOf.of_trim {a b a' b' : Text} (body : Text)
    (ha : a ≠ [] ∧ a.getLast? ≠ some '\\') (hb : b ≠ [] ∧ b.getLast? ≠ some '\\')
    (ha' : a' ≠ [] ∧ a'.getLast? ≠ some '\\') (hb' : b' ≠ [] ∧ b'.getLast? ≠ some '\\')
    (hopen : '[' ∉ a' ++ b') (hclose : ']' ∉ a' ++ b') :
  HasMarksOf (a ++ (body ++ b)) (a' ++ (trim body ++ b'))
  := by
  obtain ⟨x, y, hx, -, hbody⟩ := exists_eq_append_trim body
  have hsource : a ++ (body ++ b) = (a ++ x) ++ (trim body ++ (y ++ b)) := by
    conv_lhs => rw [hbody]
    simp
  rw [hsource]
  apply of_body (trim body) _ _ ha' hb' hopen hclose
  · exact ⟨List.append_ne_nil_of_left_ne_nil ha.1 x, hx.getLast?_append_ne ha.2⟩
  · refine ⟨List.append_ne_nil_of_right_ne_nil y hb.1, ?_⟩
    rw [List.getLast?_append_of_ne_nil y hb.1]
    exact hb.2

/-- A body that is written as a display, perhaps behind a marker. -/
theorem HasMarksOf.displayOf {a b m : Text} (body : Text)
    (ha : a ≠ [] ∧ a.getLast? ≠ some '\\') (hb : b ≠ [] ∧ b.getLast? ≠ some '\\')
    (hopen : '[' ∉ m) (hclose : ']' ∉ m) :
  HasMarksOf (a ++ (body ++ b)) (m ++ displayOf body)
  := by
  have hwritten : m ++ DollarMath.displayOf body
      = (m ++ ['$', '$', '\n']) ++ (trim body ++ ['\n', '$', '$']) := by
    simp [DollarMath.displayOf]
  rw [hwritten]
  apply of_trim body ha hb
  · simp
  · simp
  · simp [hopen]
  · simp [hclose]

/-- A conversion makes no mark. -/
def KeepsMarks (t : Text) (c : Converted) : Prop :=
  HasMarksOf t c.text

/-- To make no mark is a law. -/
theorem keepsMarks_law :
  Law KeepsMarks
  where
  unchanged t := HasMarksOf.refl t
  andThen ha hf n := ⟨(hf n).1.trans (ha n).1, (hf n).2.trans (ha n).2⟩
  append ha hb := HasMarksOf.append ha hb

/-- A replacement makes no mark if nothing that it writes does. -/
theorem hasMarksOf_replace {α : Type} {r : Reader α} {f : Match α → Option Text} {t : Text}
    (h : ∀ m ∈ r.findAll t, ∀ v, f m = some v → HasMarksOf m.source v) :
  HasMarksOf t (r.replace f t).text
  := by
  apply r.replace_induction f fun u w _ => HasMarksOf u w
  · exact HasMarksOf.refl []
  · exact fun c u w _ ih => (HasMarksOf.refl [c]).append ih
  · exact fun m _ _ u w _ ih => (HasMarksOf.refl m.source).append ih
  · exact fun m hm v hv u w _ ih => (h m hm v hv).append ih

/-- The conversion of bracket blocks makes none. -/
theorem convertBracketBlocks_keepsMarks :
  convertBracketBlocks.Obeys KeepsMarks
  := by
  intro t
  apply hasMarksOf_replace
  intro m hm v hv
  obtain rfl := eq_of_ite_none_ite_eq_some hv
  obtain ⟨hform, hsource⟩ := Delimiter.form_of_mem_findAll hm
  obtain ⟨-, hmarker, ⟨s, n, hopening, -, hn⟩, ⟨n', s₁, s₂, hclosing, -, -, hs₂⟩⟩ := hform
  have heq : m.source = (m.value.indent ++ m.value.marker ++ ['['] ++ s ++ n)
      ++ (m.value.body ++ (n' ++ s₁ ++ [']'] ++ s₂)) := by
    rw [hsource, Enclosure.source, hopening, hclosing]
    simp
  have hblank : IsBlankText s₂ := fun c hc => isBlank_of_isSpaceOrTab (hs₂ c hc)
  rw [heq]
  apply HasMarksOf.displayOf
  · refine ⟨by simp, ?_⟩
    rcases hn with rfl | rfl
    · rw [List.getLast?_append_of_ne_nil _ (List.cons_ne_nil _ _)]
      decide
    · rw [List.getLast?_append_of_ne_nil _ (List.cons_ne_nil _ _)]
      decide
  · refine ⟨by simp, hblank.getLast?_append_ne ?_⟩
    rw [List.getLast?_concat]
    decide
  · exact fun hmem => hmarker.ne_of_mem (by decide) (by decide) hmem rfl
  · exact fun hmem => hmarker.ne_of_mem (by decide) (by decide) hmem rfl

/-- Nor does that of brackets. -/
theorem convertBrackets_keepsMarks :
  convertBrackets.Obeys KeepsMarks
  := by
  intro t
  apply hasMarksOf_replace
  intro m hm v hv
  obtain rfl := eq_of_ite_none_ite_eq_some hv
  obtain ⟨⟨hvalue, -⟩, hsource⟩ := Delimiter.form_of_mem_findAll hm
  have heq : m.source = ['['] ++ (m.value.body ++ [']']) := by
    rw [hsource, hvalue]
    rfl
  rw [heq, ← List.nil_append (DollarMath.displayOf _)]
  apply HasMarksOf.displayOf
  · simp
  · simp
  · simp
  · simp

/-- Nor does that of parentheses. -/
theorem convertParens_keepsMarks :
  convertParens.Obeys KeepsMarks
  := by
  intro t
  apply hasMarksOf_replace
  intro m hm v hv
  obtain ⟨body, primes, hform⟩ := Paren.form_of_formula hm hv
  obtain ⟨a, b, hformula, hne, hne', ha, hb⟩ := hform.exists_around
  have hlast : ([')'] ++ primes).getLast? ≠ some '\\' := by
    intro hlast
    rcases List.mem_append.mp (List.mem_of_getLast? hlast) with hmem | hmem
    · simp at hmem
    · exact hform.not_mem_primes (by decide) hmem
  rw [hform.source_eq, hformula]
  apply HasMarksOf.of_trim body ⟨by simp, by simp⟩ ⟨by simp, hlast⟩
  · exact ⟨hne, fun hmem => absurd (ha _ (List.mem_of_getLast? hmem)) (by decide)⟩
  · exact ⟨hne', fun hmem => absurd (hb _ (List.mem_of_getLast? hmem)) (by decide)⟩
  · rw [List.mem_append, not_or]
    exact ⟨fun hmem => absurd (ha _ hmem) (by decide), fun hmem => absurd (hb _ hmem) (by decide)⟩
  · rw [List.mem_append, not_or]
    exact ⟨fun hmem => absurd (ha _ hmem) (by decide), fun hmem => absurd (hb _ hmem) (by decide)⟩

/-- Nor does that of formulas in backslash parentheses. -/
theorem convertInlines_keepsMarks :
  convertInlines.Obeys KeepsMarks
  := by
  intro t
  apply hasMarksOf_replace
  intro m hm v hv
  obtain rfl := Option.some.inj hv
  obtain ⟨⟨hvalue, -⟩, hsource⟩ := Delimiter.form_of_mem_findAll hm
  have heq : m.source = ['\\', '('] ++ (m.value.body ++ ['\\', ')']) := by
    rw [hsource, hvalue]
    rfl
  rw [heq, inlineOf, List.append_assoc]
  apply HasMarksOf.of_trim
  · simp
  · simp
  · simp
  · simp
  · simp
  · simp

/-! ### Displays once converted -/

/-- Behind `n` backslashes, a text that is written for another one makes no closing mark and holds
no display. -/
structure LeavesNoDisplay (n : Nat) (t w : Text) : Prop where
  /-- A closing mark is one of the first text. -/
  closing : false ∈ displayMarks n w → false ∈ displayMarks n t
  /-- No closing mark follows an opening one. -/
  apart : ¬ [true, false] <+ displayMarks n w

namespace LeavesNoDisplay

/-- One more character stays, if no display starts at the backslash before it. -/
theorem cons {n : Nat} {c : Char} {t w : Text}
    (h : LeavesNoDisplay (if c = '\\' then n + 1 else 0) t w)
    (hopening : n = 1 → c = '[' → false ∉ displayMarks 0 t) :
  LeavesNoDisplay n (c :: t) (c :: w)
  := by
  obtain ⟨hclosing, hapart⟩ := h
  constructor
  · rw [displayMarks, displayMarks]
    split
    · intro hmem
      exact List.mem_cons_of_mem _ (hclosing ((List.mem_cons.mp hmem).resolve_left nofun))
    · split
      · exact fun _ => List.mem_cons_self
      · exact hclosing
  · rw [displayMarks]
    split
    · next hc =>
      obtain ⟨rfl, rfl⟩ := hc
      rw [List.cons_sublist_cons, List.singleton_sublist]
      exact fun hmem => hopening rfl rfl (hclosing hmem)
    · split
      · exact fun hsub => hapart (List.Sublist.of_cons_of_ne (by decide) hsub)
      · exact hapart

/-- One more display is written, if its body holds no opening mark. -/
theorem displayOf {n : Nat} {m : Match Enclosure} {t w : Text} (h : LeavesNoDisplay 0 t w)
    (hsource : m.source = ['\\', '['] ++ (m.value.body ++ ['\\', ']']))
    (hbody : true ∉ displayMarks 0 m.value.body) :
  LeavesNoDisplay n (m.source ++ t) (DollarMath.displayOf m.value.body ++ w)
  := by
  have hwritten := HasMarksOf.displayOf (a := [' ']) (b := [' ']) (m := []) m.value.body
    (by decide) (by decide) List.not_mem_nil List.not_mem_nil n
  simp only [List.nil_append, displayMarks_append, backslashes_append] at hwritten
  constructor
  · intro _
    rw [hsource, List.append_assoc, List.append_assoc]
    simp only [displayMarks_append, List.mem_append]
    right
    right
    left
    simp [displayMarks]
  · rw [displayMarks_append, hwritten.1]
    intro hsub
    obtain ⟨l, l', hl, hsubbody, hsubrest⟩ := List.sublist_append_iff.mp hsub
    cases l with
    | nil =>
      rw [List.nil_append] at hl
      rw [← hl] at hsubrest
      exact h.apart hsubrest
    | cons b l =>
      obtain ⟨rfl, -⟩ := List.cons.inj hl
      have hmem := (hsubbody.trans hwritten.2).mem List.mem_cons_self
      apply hbody
      simpa [displayMarks, backslashes] using hmem

end LeavesNoDisplay

/-- What is written for a display. -/
abbrev writeDisplay (m : Match Enclosure) : Option Text :=
  some (displayOf m.value.body)

/-- Behind a backslash at which no display is read, no closing mark follows an opening bracket. -/
theorem not_mem_displayMarks_of_passes {p : Place} {t : Text} (hescaped : p.escaped = false)
    (hpass : Delimiter.display.reader.Passes p ('\\' :: '[' :: t)) :
  false ∉ displayMarks 0 t
  := by
  intro hmem
  obtain ⟨b, y, rfl⟩ := exists_of_closing_mem hmem
  rcases passes_display_iff.mp hpass with h | h
  · rw [hescaped] at h
    cases h
  · apply h b y
    simp

/-- Once the displays are converted, there are no more of them, if none held an opening mark. -/
theorem findAll_convertDisplays {t : Text}
    (h : ∀ m ∈ Delimiter.display.reader.findAll t, true ∉ displayMarks 0 m.value.body) :
  Delimiter.display.reader.findAll (convertDisplays t).text = []
  := by
  suffices ∀ p u, (∀ m, .found m ∈ Delimiter.display.reader.piecesFrom 0 p u →
        m ∈ Delimiter.display.reader.findAll t) →
      ∀ n, (n = 0 → p.escaped = false) → (n = 1 → ∀ v, u = '[' :: v → false ∉ displayMarks 0 v) →
      LeavesNoDisplay n u (Delimiter.display.reader.writtenFrom writeDisplay p u) by
    have hall := this .start t (fun m hm => Reader.mem_findAll_iff.mpr hm) 0 (fun _ => rfl)
      fun hone => absurd hone Nat.zero_ne_one
    rw [Reader.writtenFrom, ← Reader.pieces, ← Reader.text_replace] at hall
    rw [findAll_display_eq_nil_iff, holdsBackslashed_iff]
    exact hall.apart
  intro p u
  apply Delimiter.display.reader.piecesFrom_induction fun p u ps =>
    (∀ m, .found m ∈ ps → m ∈ Delimiter.display.reader.findAll t) →
      ∀ n, (n = 0 → p.escaped = false) → (n = 1 → ∀ v, u = '[' :: v → false ∉ displayMarks 0 v) →
      LeavesNoDisplay n u (ps.flatMap (Piece.written writeDisplay))
  · intro p _ n _ _
    constructor
    · exact id
    · simp [displayMarks]
  · intro p c cs hpass ih hmem n hn hopening
    apply LeavesNoDisplay.cons
    · apply ih fun m hm => hmem m (List.mem_cons_of_mem _ hm)
      · intro hzero
        have hc : c ≠ '\\' := fun hc => by simp [hc] at hzero
        simpa [Place.escaped, Place.next] using hc
      · rintro hone v rfl
        obtain ⟨rfl, hone⟩ := (ite_eq_iff.mp hone).resolve_right fun h => Nat.zero_ne_one h.2
        obtain rfl := Nat.succ.inj hone
        exact not_mem_displayMarks_of_passes (hn rfl) hpass
    · rintro rfl rfl
      exact hopening rfl cs rfl
  · intro p m k hm ih hmem n hn hopening
    have hfound := hmem m List.mem_cons_self
    obtain ⟨hform, hsource⟩ := Delimiter.form_of_mem_findAll hfound
    have heq : m.source = ['\\', '['] ++ (m.value.body ++ ['\\', ']']) := by
      rw [hsource, show m.value = _ from hform]
      rfl
    apply LeavesNoDisplay.displayOf _ heq (h m hfound)
    apply ih fun m hm => hmem m (List.mem_cons_of_mem _ hm)
    · intro _
      apply Place.escaped_after_eq_false hm.source_ne_nil
      rw [heq, ← List.append_assoc, List.getLast?_append_of_ne_nil _ (List.cons_ne_nil _ _)]
      decide
    · exact fun hone => absurd hone Nat.zero_ne_one

/-- Nor do the other conversions bring one up. -/
theorem findAll_display_convertMath {t : Text}
    (h : ∀ m ∈ Delimiter.display.reader.findAll t, true ∉ displayMarks 0 m.value.body) :
  Delimiter.display.reader.findAll ((convertAllInlines.between .displays)
    (convertBrackets (convertBracketBlocks (convertDisplays t).text).text).text).text = []
  := by
  have hnone := findAll_convertDisplays h
  rw [findAll_display_eq_nil_iff] at hnone ⊢
  intro hholds
  apply hnone
  apply (convertBracketBlocks_keepsMarks _).holdsBackslashed
  apply (convertBrackets_keepsMarks _).holdsBackslashed
  apply HasMarksOf.holdsBackslashed _ hholds
  exact keepsMarks_law.between
    (keepsMarks_law.convertAllInlines convertParens_keepsMarks convertInlines_keepsMarks)
    .displays _

/-- A quoted display is a display. -/
theorem findAll_quotedDisplay_eq_nil {t : Text} (h : Delimiter.display.reader.findAll t = []) :
  Delimiter.quotedDisplay.reader.findAll t = []
  := by
  apply List.eq_nil_iff_forall_not_mem.mpr
  intro m hm
  obtain ⟨hform, hsource⟩ := Delimiter.form_of_mem_findAll hm
  obtain ⟨x, k, ht, -⟩ := Reader.exists_of_mem_pieces hm
  obtain ⟨⟨hindent, hmarker⟩, ⟨s₁, s₂, n, hopening, hs₁, -⟩, ⟨n', s₃, s₄, hclosing, -⟩⟩ := hform
  have hblank : IsBlankText s₁ := fun c hc => isBlank_of_isSpaceOrTab (hs₁ c hc)
  apply findAll_display_eq_nil_iff.mp h
  refine ⟨x ++ ['>'] ++ s₁, s₂ ++ n ++ m.value.body ++ n' ++ ['>'] ++ s₃, s₄ ++ m.rest, ?_, ?_⟩
  · rw [ht, hsource, Enclosure.source, hindent, hmarker, hopening, hclosing]
    simp
  · apply hblank.getLast?_append_ne
    rw [List.getLast?_concat]
    decide

end DollarMath
