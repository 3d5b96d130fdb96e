import DollarMath.Proofs.Candidates
import DollarMath.Proofs.Outside
import Mathlib.Algebra.Order.BigOperators.Group.List
import Mathlib.Algebra.Order.Group.Nat

/-!
# Lines written anew

A line edit writes something without dollars for whole lines without dollars.  It moves the
dollars behind it, and leaves every dollar between the characters around it.  So the dollar
mathematics of the text stands at the same dollars afterwards, and a line edit within it is an
edit of that mathematics.
-/

namespace DollarMath

open scoped List

/-- An edit of whole lines: a text without dollars that is written for a text without dollars,
between line feeds or the ends of the text. -/
structure LineEdit where
  /-- What stands before the lines. -/
  front : Text
  /-- The lines as they are. -/
  old : Text
  /-- The lines as they are written. -/
  new : Text
  /-- What stands behind the lines. -/
  back : Text
  old_ne_nil : old ≠ []
  new_ne_nil : new ≠ []
  dollar_not_mem_old : '$' ∉ old
  dollar_not_mem_new : '$' ∉ new
  /-- The lines start behind a line feed. -/
  front_ends : ∀ c, front.getLast? = some c → c = '\n'
  /-- The lines end before a line feed. -/
  back_starts : ∀ c, back.head? = some c → c = '\n'

namespace LineEdit

variable (e : LineEdit)

/-- The text before the edit. -/
def source : Text :=
  e.front ++ (e.old ++ e.back)

/-- The text after the edit. -/
def target : Text :=
  e.front ++ (e.new ++ e.back)

/-- The edit that takes back what this one does. -/
def swap : LineEdit where
  front := e.front
  old := e.new
  new := e.old
  back := e.back
  old_ne_nil := e.new_ne_nil
  new_ne_nil := e.old_ne_nil
  dollar_not_mem_old := e.dollar_not_mem_new
  dollar_not_mem_new := e.dollar_not_mem_old
  front_ends := e.front_ends
  back_starts := e.back_starts

/-- The characters that are written anew. -/
def span : Span :=
  ⟨e.front.length, e.front.length + e.old.length⟩

/-- The character at the position is not written anew. -/
def Keeps (i : Nat) : Prop :=
  i < e.front.length ∨ e.front.length + e.old.length ≤ i

/-- Where a position is after the edit. -/
def move (i : Nat) : Nat :=
  if i ≤ e.front.length then i
  else e.front.length + e.new.length + (i - (e.front.length + e.old.length))

/-- Where a span is after the edit. -/
def moveSpan (s : Span) : Span :=
  ⟨e.move s.start, e.move s.stop⟩

/-! ### Positions -/

variable {e} {i j : Nat}

/-- Positions stay in their order. -/
theorem move_mono (h : i ≤ j) :
  e.move i ≤ e.move j
  := by
  unfold move
  split <;> split <;> omega

/-- The position behind one that is kept moves with it. -/
theorem move_succ (h : e.Keeps i) :
  e.move (i + 1) = e.move i + 1
  := by
  have hpos := List.length_pos_iff.mpr e.old_ne_nil
  unfold move
  rcases h with h | h <;> split <;> split <;> omega

/-- It is kept on the way back. -/
theorem swap_keeps (h : e.Keeps i) :
  e.swap.Keeps (e.move i)
  := by
  have hpos := List.length_pos_iff.mpr e.old_ne_nil
  unfold Keeps move swap
  dsimp only
  rcases h with h | h <;> split <;> omega

/-- The edit and the one that takes it back move a position to where it was. -/
theorem swap_move_move (h : e.Keeps i) :
  e.swap.move (e.move i) = i
  := by
  have hold := List.length_pos_iff.mpr e.old_ne_nil
  have hnew := List.length_pos_iff.mpr e.new_ne_nil
  unfold move swap
  dsimp only
  rcases h with h | h <;> split_ifs <;> omega

/-- The same character stands at a position that is kept. -/
theorem getElem?_move (h : e.Keeps i) :
  e.target[e.move i]? = e.source[i]?
  := by
  have hpos := List.length_pos_iff.mpr e.old_ne_nil
  rw [target, source, move]
  rcases h with h | h
  · rw [if_pos (Nat.le_of_lt h), List.getElem?_append_left h, List.getElem?_append_left h]
  · rw [if_neg (by omega), List.getElem?_append_right (by omega),
      List.getElem?_append_right (by omega), List.getElem?_append_right (by omega),
      List.getElem?_append_right (by omega)]
    congr 1
    omega

/-- Every character after the edit that is not written anew was in the text before. -/
theorem exists_move {k : Nat} (h : e.swap.Keeps k) :
  ∃ i, e.Keeps i ∧ e.move i = k ∧ e.source[i]? = e.target[k]?
  := ⟨e.swap.move k, swap_keeps h, swap_move_move h, getElem?_move h⟩

/-- Dollars are kept. -/
theorem keeps_of_dollar (h : e.source[i]? = some '$') :
  e.Keeps i
  := by
  by_contra hnot
  rw [Keeps, not_or, Nat.not_lt, Nat.not_le] at hnot
  rw [source, List.getElem?_append_right hnot.1, List.getElem?_append_left (by omega)] at h
  exact e.dollar_not_mem_old (List.mem_of_getElem? h)

/-- The character behind a dollar is not written anew. -/
theorem keeps_succ (h : e.source[i]? = some '$') :
  e.Keeps (i + 1)
  := by
  rcases keeps_of_dollar h with hlt | hle
  · by_cases heq : i + 1 = e.front.length
    · rw [source, List.getElem?_append_left hlt] at h
      have hlast := e.front_ends '$' (by rw [List.getLast?_eq_getElem?, ← heq]; exact h)
      cases hlast
    · exact .inl (by omega)
  · exact .inr (by omega)

/-- The character before a dollar is not written anew. -/
theorem keeps_pred (h : e.source[i + 1]? = some '$') :
  e.Keeps i
  := by
  rcases keeps_of_dollar h with hlt | hle
  · exact .inl (by omega)
  · by_cases heq : i + 1 = e.front.length + e.old.length
    · rw [source, heq, List.getElem?_append_right (by omega),
        List.getElem?_append_right (by omega)] at h
      have hfirst := e.back_starts '$' (by
        rw [List.head?_eq_getElem?, ← h]
        congr 1
        omega)
      cases hfirst
    · exact .inr (by omega)

/-- The lines start behind a line feed, unless they start the text. -/
theorem getElem?_before (h : i + 1 = e.front.length) :
  e.source[i]? = some '\n'
  := by
  have hlt : i < e.front.length := by omega
  have hlast : e.front.getLast? = some e.front[i] := by
    rw [List.getLast?_eq_getElem?, ← h, Nat.add_sub_cancel, List.getElem?_eq_getElem hlt]
  rw [source, List.getElem?_append_left hlt, List.getElem?_eq_getElem hlt, e.front_ends _ hlast]

/-! ### Dollars -/

/-- They stand in the new text. -/
theorem dollar_move (h : e.source[i]? = some '$') :
  e.target[e.move i]? = some '$'
  := by
  rw [getElem?_move (keeps_of_dollar h), h]

/-- No others do. -/
theorem exists_dollar {k : Nat} (h : e.target[k]? = some '$') :
  ∃ i, e.source[i]? = some '$' ∧ e.move i = k
  := by
  obtain ⟨i, -, hk, hi⟩ := exists_move (keeps_of_dollar (e := e.swap) h)
  exact ⟨i, hi.trans h, hk⟩

/-- Positions behind a dollar stay behind it. -/
theorem move_lt (h : e.source[i]? = some '$') (hlt : i < j) :
  e.move i < e.move j
  := by
  have hle : e.move (i + 1) ≤ e.move j := move_mono hlt
  rw [move_succ (keeps_of_dollar h)] at hle
  exact hle

/-- Positions that are apart were apart before. -/
theorem lt_of_move_lt (h : e.move i < e.move j) :
  i < j
  := by
  by_contra hle
  exact Nat.not_le_of_lt h (move_mono (Nat.le_of_not_lt hle))

/-- Two dollars side by side stay side by side. -/
theorem dollars_move (h : ['$', '$'] <+: e.source.drop i) :
  ['$', '$'] <+: e.target.drop (e.move i) ∧ e.move (i + 2) = e.move i + 2
  := by
  obtain ⟨hfirst, hsecond⟩ := Dollars.dollars_prefix_iff.mp h
  have hsucc := move_succ (keeps_of_dollar hfirst)
  constructor
  · rw [Dollars.dollars_prefix_iff, ← hsucc]
    exact ⟨dollar_move hfirst, dollar_move hsecond⟩
  · rw [move_succ (keeps_of_dollar hsecond), hsucc]

/-- Between a dollar before the lines and a position behind them stands a line feed. -/
theorem exists_newline_between {k : Nat} (hi : e.source[i]? = some '$') (hk : ¬ e.swap.Keeps k)
    (hik : e.move i < k) (hkj : k < e.move j) :
  ∃ m, i < m ∧ m < j ∧ e.source[m]? = some '\n'
  := by
  rw [Keeps, not_or, Nat.not_lt, Nat.not_le] at hk
  obtain ⟨hfront, hnew⟩ := hk
  change e.front.length ≤ k at hfront
  change k < e.front.length + e.new.length at hnew
  have hi' : i < e.front.length := by
    apply (keeps_of_dollar hi).resolve_right
    intro hle
    have hpos := List.length_pos_iff.mpr e.old_ne_nil
    rw [move, if_neg (by omega)] at hik
    omega
  have hj : e.front.length < j := by
    by_contra hle
    rw [move, if_pos (by omega)] at hkj
    omega
  obtain ⟨m, hm⟩ := Nat.exists_eq_add_of_lt hi'
  have hfeed := getElem?_before (e := e) (i := i + m) hm.symm
  cases m with
  | zero =>
    rw [Nat.add_zero, hi] at hfeed
    cases hfeed
  | succ m => exact ⟨i + (m + 1), by omega, by omega, hfeed⟩

/-! ### Candidates -/

/-- A display is one where it has moved to. -/
theorem isDisplayAt_move (h : Dollars.IsDisplayAt e.source i j) :
  Dollars.IsDisplayAt e.target (e.move i) (e.move j)
  := by
  obtain ⟨hopen, htwo⟩ := dollars_move h.opening
  constructor
  · exact hopen
  · refine ⟨⟨?_, (dollars_move h.closing.1.2).1⟩, ?_⟩
    · rw [← htwo]
      exact move_mono h.closing.1.1
    · rintro k ⟨hk, hfits⟩
      have hkeeps := keeps_of_dollar (e := e.swap) (Dollars.dollars_prefix_iff.mp hfits).1
      have hback : e.move (e.swap.move k) = k := swap_move_move (e := e.swap) hkeeps
      rw [← hback]
      apply move_mono
      apply mem_lowerBounds.mp h.closing.2
      refine ⟨?_, (dollars_move (e := e.swap) hfits).1⟩
      have hlt : e.move (i + 1) < e.move (e.swap.move k) := by
        rw [hback, move_succ (keeps_of_dollar (Dollars.dollars_prefix_iff.mp h.opening).1)]
        exact hk
      exact lt_of_move_lt hlt

/-- So is an inline formula. -/
theorem isInlineAt_move (h : Dollars.IsInlineAt e.source i j) :
  Dollars.IsInlineAt e.target (e.move i) (e.move j)
  := by
  have hclose : e.source[j]? = some '$' := h.closing.1.2
  have hsucc := move_succ (keeps_of_dollar h.opening)
  constructor
  · exact dollar_move h.opening
  · intro k hk
    cases i with
    | zero => simp [move] at hk
    | succ i =>
      have hkeeps := keeps_pred h.opening
      rw [move_succ hkeeps, Nat.succ_inj] at hk
      rw [hk, getElem?_move hkeeps]
      exact h.before i rfl
  · rw [← hsucc, getElem?_move (keeps_succ h.opening)]
    exact h.first
  · refine ⟨⟨move_lt h.opening h.closing.1.1, dollar_move hclose⟩, ?_⟩
    rintro k ⟨hk, hdollar⟩
    obtain ⟨m, hm, rfl⟩ := exists_dollar hdollar
    apply move_mono
    apply mem_lowerBounds.mp h.closing.2 m ⟨lt_of_move_lt hk, hm⟩
  · intro k hik hkj hline
    by_cases hkeeps : e.swap.Keeps k
    · obtain ⟨m, -, rfl, hm⟩ := exists_move hkeeps
      exact h.oneLine m (lt_of_move_lt hik) (lt_of_move_lt hkj) (hm.trans hline)
    · obtain ⟨m, him, hmj, hfeed⟩ := exists_newline_between h.opening hkeeps hik hkj
      exact h.oneLine m him hmj hfeed
  · obtain ⟨m, rfl⟩ := Nat.exists_eq_add_of_lt h.closing.1.1
    have hkeeps : e.Keeps (i + m) := keeps_pred hclose
    rw [move_succ hkeeps, Nat.add_sub_cancel, getElem?_move hkeeps]
    exact h.last
  · rw [← move_succ (keeps_of_dollar hclose), getElem?_move (keeps_succ hclose)]
    exact h.after

/-- So is any candidate. -/
theorem isCandidate_move {scope : Dollars.Scope} {s : Span}
    (h : Dollars.IsCandidate scope e.source s) :
  Dollars.IsCandidate scope e.target (e.moveSpan s)
  := by
  rcases h with ⟨j, hdisplay, hstop⟩ | ⟨hscope, j, hinline, hstop⟩
  · left
    refine ⟨e.move j, isDisplayAt_move hdisplay, ?_⟩
    rw [moveSpan, hstop]
    exact (dollars_move hdisplay.closing.1.2).2
  · right
    refine ⟨hscope, e.move j, isInlineAt_move hinline, ?_⟩
    rw [moveSpan, hstop]
    exact move_succ (keeps_of_dollar hinline.closing.1.2)

/-! ### Spans -/

/-- The dollar mathematics is found where its dollars have moved. -/
theorem dollarSpans_target (scope : Dollars.Scope) (e : LineEdit) :
  dollarSpans scope e.target = (dollarSpans scope e.source).map e.moveSpan
  := by
  have hgreedy := Dollars.isGreedy_dollarSpans scope e.source
  symm
  apply Dollars.eq_dollarSpans_of_isGreedy
  constructor
  · intro s hs
    obtain ⟨d, hd, rfl⟩ := List.mem_map.mp hs
    exact isCandidate_move (hgreedy.candidates d hd)
  · rw [List.pairwise_map]
    exact hgreedy.ordered.imp fun hle => move_mono hle
  · intro s hs
    have hback : Dollars.IsCandidate scope e.source (e.swap.moveSpan s) :=
      isCandidate_move (e := e.swap) hs
    obtain ⟨d, hd, hstart, hstop⟩ := hgreedy.complete _ hback
    have hmove : e.move (e.swap.move s.start) = s.start :=
      swap_move_move (e := e.swap) (keeps_of_dollar (e := e.swap) hs.dollar_start)
    refine ⟨e.moveSpan d, List.mem_map_of_mem hd, ?_, ?_⟩
    · rw [← hmove]
      exact move_mono hstart
    · rw [← hmove]
      exact move_lt hback.dollar_start hstop

/-- Dollar mathematics stands apart from the lines, or around them. -/
theorem apart_or_around {scope : Dollars.Scope} {s : Span}
    (h : Dollars.IsCandidate scope e.source s) :
  e.span.Apart s ∨ s.start < e.span.start ∧ e.span.stop ≤ s.stop
  := by
  obtain ⟨k, hstop, hlast⟩ := h.dollar_stop
  rcases keeps_of_dollar h.dollar_start with hlt | hle
  · rcases keeps_of_dollar hlast with hlt' | hle'
    · left
      right
      rw [hstop]
      exact hlt'
    · right
      refine ⟨hlt, ?_⟩
      rw [hstop]
      exact Nat.le_succ_of_le hle'
  · left
    left
    exact hle

/-- What stands apart from the lines is kept. -/
theorem extract_moveSpan_of_apart {s : Span} (hs : s.start ≤ s.stop) (h : e.span.Apart s) :
  e.target.extract (e.move s.start) (e.move s.stop) = e.source.extract s.start s.stop
  := by
  have hpos := List.length_pos_iff.mpr e.old_ne_nil
  rcases h with hbehind | hbefore
  · change e.front.length + e.old.length ≤ s.start at hbehind
    rw [move, if_neg (by omega), move, if_neg (by omega), target, source,
      extract_append_of_ge (by omega), extract_append_of_ge (by omega),
      extract_append_of_ge (by omega), extract_append_of_ge (by omega)]
    congr 1 <;> omega
  · change s.stop ≤ e.front.length at hbefore
    rw [move, if_pos (by omega), move, if_pos (by omega), target, source,
      extract_append_of_le hs hbefore, extract_append_of_le hs hbefore]

/-- What stands around the lines is kept, but for the lines. -/
theorem extract_of_around {s : Span} (hstart : s.start < e.span.start)
    (hstop : e.span.stop ≤ s.stop) :
  e.source.extract s.start s.stop
    = e.front.drop s.start ++ (e.old ++ e.back.take (s.stop - e.span.stop))
  := by
  change s.start < e.front.length at hstart
  change e.front.length + e.old.length ≤ s.stop at hstop
  rw [source, span, extract_append_of_lt (by omega) (by omega), List.take_append,
    List.take_of_length_le (by omega), Nat.sub_sub]

/-- The characters of a span around the edit change with those of the edit. -/
theorem count_extract_moveSpan {s : Span} (hstart : s.start < e.span.start)
    (hstop : e.span.stop ≤ s.stop) (c : Char) :
  (e.target.extract (e.move s.start) (e.move s.stop)).count c + e.old.count c
    = (e.source.extract s.start s.stop).count c + e.new.count c
  := by
  have hpos := List.length_pos_iff.mpr e.old_ne_nil
  change s.start < e.front.length at hstart
  change e.front.length + e.old.length ≤ s.stop at hstop
  have hmove : e.move s.start = s.start := if_pos (by omega)
  have hmove' : e.move s.stop = e.swap.span.stop + (s.stop - e.span.stop) := if_neg (by omega)
  have htarget := extract_of_around (e := e.swap) (s := e.moveSpan s)
    (by rw [moveSpan, hmove]; exact hstart)
    (by rw [moveSpan, hmove']; apply Nat.le_add_right)
  have hsource := extract_of_around (e := e) hstart hstop
  change e.target.extract (e.move s.start) (e.move s.stop)
    = e.front.drop (e.move s.start) ++ (e.new ++ e.back.take (e.move s.stop - e.swap.span.stop))
    at htarget
  rw [htarget, hsource, hmove, hmove', Nat.add_sub_cancel_left]
  simp only [List.count_append]
  omega

/-! ### The characters of dollar mathematics -/

variable {scope : Dollars.Scope}

/-- A line edit apart from all dollar mathematics keeps it. -/
theorem dollarTexts_target
    (h : ∀ s ∈ dollarSpans scope e.source, e.span.Apart s) :
  dollarTexts scope e.target = dollarTexts scope e.source
  := by
  rw [dollarTexts_eq, dollarTexts_eq, dollarSpans_target, List.map_map]
  apply List.map_congr_left
  intro s hs
  apply extract_moveSpan_of_apart _ (h s hs)
  exact Nat.le_of_lt ((Dollars.isGreedy_dollarSpans scope e.source).candidates s hs).start_lt_stop

end LineEdit

/-- How many line feeds stand in the dollar mathematics of a text. -/
def mathLineFeeds (scope : Dollars.Scope) (t : Text) : Nat :=
  (dollarTexts scope t).flatten.count '\n'

namespace LineEdit

variable {e : LineEdit} {scope : Dollars.Scope}

/-- A line edit within dollar mathematics that takes line feeds away takes them from it. -/
theorem mathLineFeeds_target_lt
    (hcount : e.new.count '\n' < e.old.count '\n')
    (h : ¬ ∀ s ∈ dollarSpans scope e.source, e.span.Apart s) :
  mathLineFeeds scope e.target < mathLineFeeds scope e.source
  := by
  have hcandidates := (Dollars.isGreedy_dollarSpans scope e.source).candidates
  have hlt : ∀ s ∈ dollarSpans scope e.source, ¬ e.span.Apart s →
      (e.target.extract (e.move s.start) (e.move s.stop)).count '\n'
        < (e.source.extract s.start s.stop).count '\n' := by
    intro s hs hapart
    obtain ⟨hstart, hstop⟩ := (apart_or_around (hcandidates s hs)).resolve_left hapart
    have hlines := count_extract_moveSpan hstart hstop '\n'
    omega
  push Not at h
  obtain ⟨s, hs, hapart⟩ := h
  rw [mathLineFeeds, mathLineFeeds, List.count_flatten, List.count_flatten, dollarTexts_eq,
    dollarTexts_eq, dollarSpans_target, List.map_map, List.map_map, List.map_map]
  apply List.sum_lt_sum
  · intro s hs
    by_cases hs' : e.span.Apart s
    · have hle := Nat.le_of_lt (hcandidates s hs).start_lt_stop
      exact Nat.le_of_eq (congrArg (List.count '\n') (extract_moveSpan_of_apart hle hs'))
    · exact Nat.le_of_lt (hlt s hs hs')
  · exact ⟨s, hs, hlt s hs hapart⟩

/-- A line edit that takes line feeds away adds none to dollar mathematics. -/
theorem mathLineFeeds_target_le (hcount : e.new.count '\n' < e.old.count '\n') :
  mathLineFeeds scope e.target ≤ mathLineFeeds scope e.source
  := by
  by_cases h : ∀ s ∈ dollarSpans scope e.source, e.span.Apart s
  · rw [mathLineFeeds, mathLineFeeds, dollarTexts_target h]
  · exact Nat.le_of_lt (mathLineFeeds_target_lt hcount h)

/-- A span before the lines stands apart from the moved spans as it did before. -/
theorem apart_moveSpan_iff {d s : Span} (hd : d.start < d.stop) (h : d.stop ≤ e.span.start) :
  d.Apart (e.moveSpan s) ↔ d.Apart s
  := by
  change d.stop ≤ e.front.length at h
  unfold Span.Apart moveSpan move
  dsimp only
  split_ifs <;> omega

end LineEdit

/-! ### Several lines -/

/-- An edit of whole lines of a text, without dollars, that takes line feeds away. -/
structure Edit.IsLine (t : Text) (e : Edit) : Prop where
  start_lt_stop : e.span.start < e.span.stop
  stop_le : e.span.stop ≤ t.length
  /-- The lines hold no dollar. -/
  dollar_not_mem_old : '$' ∉ t.extract e.span.start e.span.stop
  /-- The text that is written holds no dollar. -/
  dollar_not_mem_text : '$' ∉ e.text
  text_ne_nil : e.text ≠ []
  /-- The lines start behind a line feed. -/
  before : ∀ k, k + 1 = e.span.start → t[k]? = some '\n'
  /-- The first line is not empty. -/
  first : t[e.span.start]? ≠ some '\n'
  /-- The lines end before a line feed. -/
  after : ∀ c, t[e.span.stop]? = some c → c = '\n'
  /-- There are fewer line feeds afterwards. -/
  fewer : e.text.count '\n' < (t.extract e.span.start e.span.stop).count '\n'

namespace Edit

variable {t : Text} {e : Edit} {es : List Edit} {scope : Dollars.Scope}

/-- The first one of several edits of lines, made after the others. -/
theorem exists_lineEdit (he : e.IsLine t) (h : ∀ e' ∈ es, e'.IsLine t)
    (hes : ∀ e' ∈ es, e.span.stop ≤ e'.span.start) :
  ∃ l : LineEdit, l.source = writeFrom t 0 es ∧ l.target = writeFrom t 0 (e :: es)
    ∧ l.span = e.span ∧ l.new.count '\n' < l.old.count '\n'
  := by
  have hlt := he.start_lt_stop
  have hle := he.stop_le
  have hfront : (t.extract 0 e.span.start).length = e.span.start :=
    length_extract (by omega)
  have hold : (t.extract e.span.start e.span.stop).length = e.span.stop - e.span.start :=
    length_extract hle
  have hback : ∀ c, (writeFrom t e.span.stop es).head? = some c → c = '\n' := by
    intro c hc
    rw [head?_writeFrom] at hc
    · exact he.after c hc
    · intro e' he'
      have hlt' := (h e' he').start_lt_stop
      have hle' := (h e' he').stop_le
      refine ⟨Nat.lt_of_le_of_ne (hes e' he') ?_, by omega⟩
      intro heq
      have hi : e'.span.start < t.length := by omega
      have hfeed := he.after t[e'.span.start] (by rw [heq, List.getElem?_eq_getElem hi])
      apply (h e' he').first
      rw [List.getElem?_eq_getElem hi, hfeed]
  refine ⟨⟨t.extract 0 e.span.start, t.extract e.span.start e.span.stop, e.text,
    writeFrom t e.span.stop es, ?_, he.text_ne_nil, he.dollar_not_mem_old,
    he.dollar_not_mem_text, ?_, hback⟩, ?_, rfl, ?_, he.fewer⟩
  · apply List.ne_nil_of_length_pos
    rw [hold]
    omega
  · intro c hc
    rw [List.getLast?_eq_getElem?, hfront, List.extract_eq_take_drop, List.drop_zero,
      List.getElem?_take] at hc
    obtain ⟨hpos, hc⟩ := Option.ite_none_right_eq_some.mp hc
    rw [he.before (e.span.start - 1) (by omega)] at hc
    exact (Option.some.inj hc).symm
  · have hwrite := writeFrom_eq_append (t := t) (i := 0) (Nat.zero_le e.span.stop) hes
    rw [hwrite, ← extract_append_extract t (Nat.zero_le _) (Nat.le_of_lt hlt),
      List.append_assoc]
    rfl
  · rw [LineEdit.span]
    dsimp only
    rw [hfront, hold, Nat.add_sub_cancel' (Nat.le_of_lt hlt)]

/-- A span before edits of lines stands apart from dollar mathematics as it did before. -/
theorem apart_writeFrom_iff (h : ∀ e ∈ es, e.IsLine t)
    (hes : es.Pairwise fun e e' => e.span.stop ≤ e'.span.start) {d : Span}
    (hd : d.start < d.stop) (hbefore : ∀ e ∈ es, d.stop ≤ e.span.start) :
  (∀ s ∈ dollarSpans scope (writeFrom t 0 es), d.Apart s)
    ↔ ∀ s ∈ dollarSpans scope t, d.Apart s
  := by
  induction es with
  | nil => rw [writeFrom, List.drop_zero]
  | cons e es ih =>
    obtain ⟨hnext, hes'⟩ := List.pairwise_cons.mp hes
    obtain ⟨he, h'⟩ := List.forall_mem_cons.mp h
    obtain ⟨hfirst, hbefore'⟩ := List.forall_mem_cons.mp hbefore
    obtain ⟨l, hsource, htarget, hspan, -⟩ := exists_lineEdit he h' hnext
    rw [← htarget, LineEdit.dollarSpans_target, List.forall_mem_map, ← ih h' hes' hbefore',
      ← hsource]
    apply forall₂_congr
    intro s _
    apply LineEdit.apart_moveSpan_iff hd
    rw [hspan]
    exact hfirst

/-- Edits of lines apart from all dollar mathematics keep it. -/
theorem dollarTexts_writeFrom (h : ∀ e ∈ es, e.IsLine t)
    (hes : es.Pairwise fun e e' => e.span.stop ≤ e'.span.start)
    (hapart : ∀ e ∈ es, ∀ s ∈ dollarSpans scope t, e.span.Apart s) :
  dollarTexts scope (writeFrom t 0 es) = dollarTexts scope t
  := by
  induction es with
  | nil => rw [writeFrom, List.drop_zero]
  | cons e es ih =>
    obtain ⟨hnext, hes'⟩ := List.pairwise_cons.mp hes
    obtain ⟨he, h'⟩ := List.forall_mem_cons.mp h
    obtain ⟨hfirst, hapart'⟩ := List.forall_mem_cons.mp hapart
    obtain ⟨l, hsource, htarget, hspan, -⟩ := exists_lineEdit he h' hnext
    rw [← htarget, LineEdit.dollarTexts_target, hsource, ih h' hes' hapart']
    rw [hspan, hsource]
    exact (apart_writeFrom_iff h' hes' he.start_lt_stop hnext).mpr hfirst

/-- Edits of lines, some of them within dollar mathematics, take line feeds from it. -/
theorem mathLineFeeds_writeFrom_lt (h : ∀ e ∈ es, e.IsLine t)
    (hes : es.Pairwise fun e e' => e.span.stop ≤ e'.span.start)
    (hnot : ¬ ∀ e ∈ es, ∀ s ∈ dollarSpans scope t, e.span.Apart s) :
  mathLineFeeds scope (writeFrom t 0 es) < mathLineFeeds scope t
  := by
  induction es with
  | nil => simp at hnot
  | cons e es ih =>
    obtain ⟨hnext, hes'⟩ := List.pairwise_cons.mp hes
    obtain ⟨he, h'⟩ := List.forall_mem_cons.mp h
    obtain ⟨l, hsource, htarget, hspan, hfewer⟩ := exists_lineEdit he h' hnext
    rw [← htarget]
    by_cases hlater : ∀ e' ∈ es, ∀ s ∈ dollarSpans scope t, e'.span.Apart s
    · have hfirst : ¬ ∀ s ∈ dollarSpans scope l.source, l.span.Apart s := by
        rw [hspan, hsource, apart_writeFrom_iff h' hes' he.start_lt_stop hnext]
        exact fun hfirst => hnot (List.forall_mem_cons.mpr ⟨hfirst, hlater⟩)
      have hkept := dollarTexts_writeFrom h' hes' hlater
      have hlt := LineEdit.mathLineFeeds_target_lt hfewer hfirst
      rw [hsource, mathLineFeeds, mathLineFeeds, hkept] at hlt
      exact hlt
    · apply Nat.lt_of_le_of_lt (LineEdit.mathLineFeeds_target_le hfewer)
      rw [hsource]
      exact ih h' hes' hlater

end Edit

/-- Edits of lines keep the dollar mathematics exactly when they stand apart from it. -/
theorem Edits.dollarTexts_text_iff
    {scope : Dollars.Scope} {t : Text} (es : Edits t) (h : ∀ e ∈ es.list, e.IsLine t) :
  dollarTexts scope es.text = dollarTexts scope t
    ↔ ∀ e ∈ es.list, ∀ s ∈ dollarSpans scope t, e.span.Apart s
  := by
  constructor
  · intro heq
    by_contra hnot
    have hlt := Edit.mathLineFeeds_writeFrom_lt h es.ordered hnot
    rw [mathLineFeeds, mathLineFeeds, ← Edits.text, heq] at hlt
    exact Nat.lt_irrefl _ hlt
  · exact Edit.dollarTexts_writeFrom h es.ordered

end DollarMath
