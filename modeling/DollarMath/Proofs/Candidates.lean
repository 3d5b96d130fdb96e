import DollarMath.Proofs.Explicit
import Mathlib.Data.List.Sort
import Mathlib.Order.Bounds.Basic

/-!
# Candidates

What dollar mathematics is can be told position by position.  A display opens at two dollars
and closes at the next two.  An inline formula opens at a dollar that stands behind no backslash
and no dollar and before a character that is neither blank nor a dollar, and closes at the next
dollar, if that one is on the same line, stands behind a character that is neither blank nor a
backslash, and is not followed by a digit.

The dollar mathematics of a text are the candidates that are met from left to right, each one
behind the one before it.
-/

namespace DollarMath

open scoped List

/-! ### Greedy lists of spans -/

/-- Spans that are taken from left to right: each one is a candidate behind the ones before it,
and no candidate starts outside of them. -/
structure IsGreedy (P : Span → Prop) (ss : List Span) : Prop where
  /-- Every span is a candidate. -/
  candidates : ∀ s ∈ ss, P s
  /-- Each span stands behind the spans before it. -/
  ordered : ss.Pairwise fun s s' => s.stop ≤ s'.start
  /-- Every candidate starts in a span. -/
  complete : ∀ s, P s → ∃ d ∈ ss, d.start ≤ s.start ∧ s.start < d.stop

namespace IsGreedy

variable {P : Span → Prop} {ss ss' : List Span}

/-- A span that starts in another one of the list is that one. -/
theorem eq_of_mem (h : IsGreedy P ss) (hne : ∀ s, P s → s.start < s.stop) {s d : Span}
    (hs : s ∈ ss) (hd : d ∈ ss) (hstart : d.start ≤ s.start) (hstop : s.start < d.stop) :
  s = d
  := by
  by_contra hsd
  have hapart : ss.Pairwise fun s d => s.stop ≤ d.start ∨ d.stop ≤ s.start :=
    h.ordered.imp fun hle => .inl hle
  have hsymm : Std.Symm fun s d : Span => s.stop ≤ d.start ∨ d.stop ≤ s.start :=
    ⟨fun _ _ h => h.symm⟩
  have hlt := hne s (h.candidates s hs)
  rcases hapart.forall hs hd hsd with hle | hle <;> omega

/-- Two greedy lists of spans that start apart and are not empty have the same members. -/
theorem mem_iff (h : IsGreedy P ss) (h' : IsGreedy P ss') (hne : ∀ s, P s → s.start < s.stop)
    (hinj : ∀ s d, P s → P d → s.start = d.start → s = d) (s : Span) :
  s ∈ ss ↔ s ∈ ss'
  := by
  induction hn : s.start using Nat.strongRecOn generalizing s with
  | ind n ih =>
    subst hn
    have hmem : ∀ {as bs : List Span}, IsGreedy P as → IsGreedy P bs →
        (∀ d : Span, d.start < s.start → d ∈ bs → d ∈ as) → s ∈ as → s ∈ bs := by
      intro as bs has hbs hearlier hs
      obtain ⟨d, hd, hstart, hstop⟩ := hbs.complete s (has.candidates s hs)
      rcases Nat.eq_or_lt_of_le hstart with heq | hlt
      · rwa [hinj s d (has.candidates s hs) (hbs.candidates d hd) heq.symm]
      · rwa [has.eq_of_mem hne hs (hearlier d hlt hd) hstart hstop]
    constructor
    · exact hmem h h' fun d hlt => (ih d.start hlt d rfl).mpr
    · exact hmem h' h fun d hlt => (ih d.start hlt d rfl).mp

/-- There is one greedy list of spans. -/
theorem eq (h : IsGreedy P ss) (h' : IsGreedy P ss') (hne : ∀ s, P s → s.start < s.stop)
    (hinj : ∀ s d, P s → P d → s.start = d.start → s = d) :
  ss = ss'
  := by
  have hlt : ∀ {ss : List Span}, IsGreedy P ss →
      ss.Pairwise fun s s' => s.start < s'.start := by
    intro ss h
    apply h.ordered.imp_of_mem
    intro s s' hs _ hle
    exact Nat.lt_of_lt_of_le (hne s (h.candidates s hs)) hle
  have : Std.Irrefl fun s s' : Span => s.start < s'.start := ⟨fun s => Nat.lt_irrefl s.start⟩
  apply (hlt h).eq_of_mem_iff (hlt h')
  exact fun {s} => h.mem_iff h' hne hinj s

end IsGreedy

/-! ### Candidates -/

namespace Pattern

theorem literal_eq_none_iff {w t : Text} :
  literal w t = none ↔ ¬ w <+: t
  := by
  simp [literal]

/-- A word is taken where it stands. -/
theorem prefix_of_literal_eq_some {w t : Text} {n : Nat} (h : literal w t = some n) :
  w <+: t
  := by
  obtain ⟨-, rest, rfl⟩ := literal_eq_some_iff.mp h
  apply List.prefix_append

end Pattern

namespace Dollars

/-- Two dollars at a position. -/
theorem dollars_prefix_iff {t : Text} {i : Nat} :
  ['$', '$'] <+: t.drop i ↔ t[i]? = some '$' ∧ t[i + 1]? = some '$'
  := by
  constructor
  · rintro ⟨u, hu⟩
    rw [← List.getElem?_drop, ← Nat.add_zero i, ← List.getElem?_drop, Nat.add_zero, ← hu]
    exact ⟨rfl, rfl⟩
  · rintro ⟨hfirst, hsecond⟩
    obtain ⟨hi, hfirst⟩ := List.getElem?_eq_some_iff.mp hfirst
    obtain ⟨hi', hsecond⟩ := List.getElem?_eq_some_iff.mp hsecond
    rw [List.drop_eq_getElem_cons hi, List.drop_eq_getElem_cons hi', hfirst, hsecond]
    exact ⟨_, rfl⟩

/-- A display that opens at the position `i` and whose closing dollars start at `j`. -/
structure IsDisplayAt (t : Text) (i j : Nat) : Prop where
  /-- Two dollars stand at the front. -/
  opening : ['$', '$'] <+: t.drop i
  /-- The next two dollars close the display. -/
  closing : IsLeast {k | i + 2 ≤ k ∧ ['$', '$'] <+: t.drop k} j

/-- An inline formula that opens at the position `i` and closes at `j`. -/
structure IsInlineAt (t : Text) (i j : Nat) : Prop where
  /-- A dollar stands at the front. -/
  opening : t[i]? = some '$'
  /-- No backslash and no dollar stands before it. -/
  before : ∀ k, k + 1 = i → t[k]? ≠ some '\\' ∧ t[k]? ≠ some '$'
  /-- The body starts with a character that is neither blank nor a dollar. -/
  first : ∃ c, t[i + 1]? = some c ∧ isBlank c = false ∧ c ≠ '$'
  /-- The next dollar closes the formula. -/
  closing : IsLeast {k | i < k ∧ t[k]? = some '$'} j
  /-- No line ends in between. -/
  oneLine : ∀ k, i < k → k < j → t[k]? ≠ some '\n'
  /-- The body ends with a character that is neither blank nor a backslash. -/
  last : ∃ c, t[j - 1]? = some c ∧ isBlank c = false ∧ c ≠ '\\'
  /-- No digit follows. -/
  after : ∀ c, t[j + 1]? = some c → isDigit c = false

/-- A span that dollar mathematics may take. -/
def IsCandidate (scope : Scope) (t : Text) (s : Span) : Prop :=
  (∃ j, IsDisplayAt t s.start j ∧ s.stop = j + 2)
    ∨ scope = .all ∧ ∃ j, IsInlineAt t s.start j ∧ s.stop = j + 1

variable {scope : Scope} {p : Place} {t cs : Text} {i n : Nat}

/-- A display that is read, by the positions of its dollars. -/
theorem read_display_iff {d : Dollars} {k : Nat} :
  read scope p ('$' :: '$' :: cs) = some (d, k)
    ↔ ∃ n, ['$', '$'] <+: cs.drop n ∧ (∀ m < n, ¬ ['$', '$'] <+: cs.drop m)
        ∧ d = .display (cs.take n) ∧ k = n + 4
  := by
  change (Pattern.upTo (.literal ['$', '$']) cs).map _ = _ ↔ _
  constructor
  · intro h
    obtain ⟨⟨body, m⟩, hbody, heq⟩ := Option.map_eq_some_iff.mp h
    obtain ⟨rfl, rfl⟩ := Prod.mk.inj heq
    obtain ⟨hfront, hfits, hfirst⟩ := Pattern.upTo_eq_some_iff.mp hbody
    refine ⟨body.length, Pattern.prefix_of_literal_eq_some hfits, ?_, ?_, rfl⟩
    · exact fun m hm => Pattern.literal_eq_none_iff.mp (hfirst m hm)
    · rw [← List.prefix_iff_eq_take.mp hfront]
  · rintro ⟨n, hfits, hfirst, rfl, rfl⟩
    have hlength : (cs.take n).length = n := by
      have hle := hfits.length_le
      rw [List.length_drop] at hle
      rw [List.length_take]
      apply Nat.min_eq_left
      simp only [List.length_cons] at hle
      omega
    have hbody : Pattern.upTo (.literal ['$', '$']) cs = some (cs.take n, 2) := by
      rw [Pattern.upTo_eq_some_iff, hlength]
      refine ⟨List.take_prefix n cs, ?_, fun m hm => Pattern.literal_eq_none_iff.mpr (hfirst m hm)⟩
      rw [Pattern.literal, if_pos (List.isPrefixOf_iff_prefix.mpr hfits)]
      rfl
    rw [hbody, Option.map_some, hlength]

/-- A single dollar opens no display. -/
theorem read_displays_eq_none (hcs : cs.head? ≠ some '$') :
  read .displays p ('$' :: cs) = none
  := by
  rw [read.eq_def]
  split
  · next heq => simp [(List.cons.inj heq).2] at hcs
  · rfl
  · rfl

/-- The characters before the next dollar are those that are none. -/
theorem takeWhile_dollar_eq_take (hclose : cs[n]? = some '$') (hbody : '$' ∉ cs.take n) :
  cs.takeWhile (· ≠ '$') = cs.take n ∧ (cs.take n).length = n
  := by
  obtain ⟨hn, hget⟩ := List.getElem?_eq_some_iff.mp hclose
  constructor
  · have hcat : cs = cs.take n ++ '$' :: cs.drop (n + 1) := by
      rw [← hget, List.getElem_cons_drop, List.take_append_drop]
    conv_lhs => rw [hcat]
    rw [List.takeWhile_append_of_pos]
    · simp
    · intro c hc
      rw [decide_eq_true_eq]
      rintro rfl
      exact hbody hc
  · rw [List.length_take, Nat.min_eq_left (Nat.le_of_lt hn)]

/-- An inline formula that is read, by the position of its closing dollar. -/
theorem read_inline_iff {d : Dollars} {k : Nat} (hcs : cs.head? ≠ some '$') :
  read .all p ('$' :: cs) = some (d, k)
    ↔ ∃ n, cs[n]? = some '$' ∧ '$' ∉ cs.take n ∧ isInlineBody p (cs.take n) = true
        ∧ cs[n + 1]?.any isDigit = false ∧ d = .inline (cs.take n) ∧ k = n + 2
  := by
  rw [read.eq_def]
  split
  · next heq => simp [(List.cons.inj heq).2] at hcs
  · next cs' _ heq =>
    obtain rfl := (List.cons.inj heq).2
    dsimp only
    constructor
    · intro h
      have hcat := List.takeWhile_append_dropWhile (p := (· ≠ '$')) (l := cs)
      have hbody : '$' ∉ cs.takeWhile (· ≠ '$') := fun hmem => by
        simpa using List.mem_takeWhile_imp hmem
      have hend := List.head?_dropWhile_not (· ≠ '$') cs
      generalize cs.takeWhile (· ≠ '$') = body at h hcat hbody
      generalize cs.dropWhile (· ≠ '$') = tail at hcat hend
      subst hcat
      rw [List.drop_left] at h
      cases tail with
      | nil => cases h
      | cons c after =>
        obtain ⟨hinline, heq⟩ := Option.ite_none_right_eq_some.mp h
        obtain ⟨rfl, rfl⟩ := Prod.mk.inj (Option.some.inj heq)
        obtain rfl : c = '$' := by simpa using hend
        refine ⟨body.length, ?_⟩
        have hafter : (body ++ '$' :: after)[body.length + 1]? = after.head? := by
          rw [List.getElem?_append_right (Nat.le_succ _), Nat.succ_sub (Nat.le_refl _),
            Nat.sub_self, List.getElem?_cons_succ, List.head?_eq_getElem?]
        simpa [hbody, hafter] using hinline
    · rintro ⟨n, hclose, hbody, hinline, hafter, rfl, rfl⟩
      obtain ⟨hn, -⟩ := List.getElem?_eq_some_iff.mp hclose
      obtain ⟨htake, hlength⟩ := takeWhile_dollar_eq_take hclose hbody
      rw [htake, hlength, List.drop_eq_getElem_cons hn]
      simp [hinline, hafter]
  · next h1 h2 => exact absurd rfl (h2 cs)

/-- A display ends at the first two dollars behind the two that open it. -/
theorem isDisplayAt_iff (ht : t.drop i = '$' :: '$' :: cs) :
  IsDisplayAt t i (i + 2 + n)
    ↔ ['$', '$'] <+: cs.drop n ∧ ∀ m < n, ¬ ['$', '$'] <+: cs.drop m
  := by
  have hdrop : ∀ m, t.drop (i + 2 + m) = cs.drop m := by
    intro m
    rw [Nat.add_assoc, ← List.drop_drop, ht, Nat.add_comm 2 m, List.drop_succ_cons,
      List.drop_succ_cons]
  constructor
  · rintro ⟨-, hclose⟩
    have hle := mem_lowerBounds.mp hclose.2
    refine ⟨hdrop n ▸ hclose.1.2, fun m hm hfits => ?_⟩
    have hlater := hle (i + 2 + m) ⟨Nat.le_add_right _ _, by rwa [hdrop]⟩
    omega
  · rintro ⟨hfits, hfirst⟩
    constructor
    · rw [ht]
      exact ⟨cs, rfl⟩
    · refine ⟨⟨Nat.le_add_right _ _, by rwa [hdrop]⟩, ?_⟩
      rintro k ⟨hk, hfits'⟩
      obtain ⟨m, rfl⟩ := Nat.exists_eq_add_of_le hk
      rw [hdrop] at hfits'
      by_contra hlt
      exact hfirst m (by omega) hfits'

/-- The body of an inline formula: what stands before the dollar, and what it starts, ends and goes
on with. -/
theorem isInlineBody_iff {body : Text} :
  isInlineBody p body = true
    ↔ (p.before ≠ some '\\' ∧ p.before ≠ some '$')
      ∧ (∃ c, body.head? = some c ∧ isBlank c = false)
      ∧ (∃ c, body.getLast? = some c ∧ isBlank c = false ∧ c ≠ '\\') ∧ '\n' ∉ body
  := by
  simp only [isInlineBody, Place.escaped, ne_eq, decide_not, List.contains_eq_mem,
    Bool.and_eq_true, Bool.not_eq_eq_eq_not, Bool.not_true, decide_eq_false_iff_not,
    Option.any_eq_true, and_assoc]

/-- The character before a position, seen from the place there. -/
theorem before_after_take_ne_iff {c : Char} (hi : i ≤ t.length) :
  (Place.start.after (t.take i)).before ≠ some c ↔ ∀ k, k + 1 = i → t[k]? ≠ some c
  := by
  rw [Place.before_start_after]
  cases i with
  | zero => simp
  | succ i =>
    rw [List.getLast?_take, if_neg (Nat.succ_ne_zero i), Nat.add_sub_cancel,
      List.getElem?_eq_getElem hi, Option.some_or]
    simp [List.getElem?_eq_getElem hi]

/-- The characters behind a position, among those that start there. -/
theorem getElem?_of_drop_eq_cons {c : Char} (ht : t.drop i = c :: cs) (m : Nat) :
  t[i + 1 + m]? = cs[m]?
  := by
  rw [Nat.add_assoc, ← List.getElem?_drop, ht, Nat.add_comm 1 m, List.getElem?_cons_succ]

/-- A character between two positions, among the characters behind the first one. -/
theorem forall_getElem?_ne_iff {c : Char} (ht : t.drop i = '$' :: cs) :
  (∀ k, i < k → k < i + 1 + n → t[k]? ≠ some c) ↔ c ∉ cs.take n
  := by
  have hget := getElem?_of_drop_eq_cons ht
  simp only [List.mem_iff_getElem?, List.getElem?_take, not_exists]
  constructor
  · intro h m hm
    obtain ⟨hlt, hm⟩ := Option.ite_none_right_eq_some.mp hm
    exact h (i + 1 + m) (by omega) (by omega) (by rw [hget, hm])
  · intro h k hik hk hc
    obtain ⟨m, rfl⟩ := Nat.exists_eq_add_of_le hik
    apply h m
    rw [if_pos (by omega), ← hget, hc]

/-- An inline formula ends at the next dollar, if what is between is a body and no digit follows. -/
theorem isInlineAt_iff (ht : t.drop i = '$' :: cs) :
  IsInlineAt t i (i + 1 + n)
    ↔ cs[n]? = some '$' ∧ '$' ∉ cs.take n
      ∧ isInlineBody (Place.start.after (t.take i)) (cs.take n) = true
      ∧ cs[n + 1]?.any isDigit = false
  := by
  have hi : i < t.length := by
    by_contra hle
    rw [List.drop_eq_nil_of_le (by omega)] at ht
    cases ht
  have hopen : t[i]? = some '$' := by
    rw [← Nat.add_zero i, ← List.getElem?_drop, ht, List.getElem?_cons_zero]
  have hget := getElem?_of_drop_eq_cons ht
  rw [isInlineBody_iff, before_after_take_ne_iff (Nat.le_of_lt hi),
    before_after_take_ne_iff (Nat.le_of_lt hi), ← forall_getElem?_ne_iff ht,
    ← forall_getElem?_ne_iff ht]
  cases n with
  | zero =>
    constructor
    · rintro ⟨-, -, ⟨c, hc, -, hne⟩, hclose, -⟩
      have hdollar : t[i + 1]? = some '$' := hclose.1.2
      rw [hc, Option.some_inj] at hdollar
      exact absurd hdollar hne
    · rintro ⟨-, -, ⟨-, ⟨c, hc, -⟩, -⟩, -⟩
      rw [List.take_zero] at hc
      cases hc
  | succ n =>
    have hfirst : (cs.take (n + 1)).head? = t[i + 1]? := by
      rw [List.head?_take, if_neg (Nat.succ_ne_zero n), List.head?_eq_getElem?, ← hget 0]
    have hlast : n < cs.length → (cs.take (n + 1)).getLast? = t[i + 1 + (n + 1) - 1]? := by
      intro hn
      rw [List.getLast?_take, if_neg (Nat.succ_ne_zero n), Nat.add_sub_cancel, ← Nat.add_assoc,
        Nat.add_sub_cancel, hget, List.getElem?_eq_getElem hn, Option.some_or]
    have hafter : t[i + 1 + (n + 1) + 1]? = cs[n + 1 + 1]? := hget (n + 1 + 1)
    constructor
    · rintro ⟨-, hbefore, ⟨c, hc, hblank, -⟩, hclose, hline, hend, hdigit⟩
      have hn : cs[n + 1]? = some '$' := by
        rw [← hget]
        exact hclose.1.2
      obtain ⟨hlt, -⟩ := List.getElem?_eq_some_iff.mp hn
      refine ⟨hn, ?_, ⟨⟨fun k hk => (hbefore k hk).1, fun k hk => (hbefore k hk).2⟩, ?_, ?_, hline⟩,
        ?_⟩
      · intro k hik hk hdollar
        have hle := mem_lowerBounds.mp hclose.2 k ⟨hik, hdollar⟩
        omega
      · exact ⟨c, by rw [hfirst, hc], hblank⟩
      · rw [hlast (by omega)]
        exact hend
      · rw [← hafter]
        cases hd : t[i + 1 + (n + 1) + 1]? with
        | none => rfl
        | some d => exact hdigit d hd
    · rintro ⟨hclose, hbody, ⟨⟨hbackslash, hdollar⟩, ⟨c, hc, hblank⟩, hend, hline⟩, hdigit⟩
      obtain ⟨hlt, -⟩ := List.getElem?_eq_some_iff.mp hclose
      constructor
      · exact hopen
      · exact fun k hk => ⟨hbackslash k hk, hdollar k hk⟩
      · rw [hfirst] at hc
        refine ⟨c, hc, hblank, ?_⟩
        rintro rfl
        exact hbody (i + 1) (by omega) (by omega) hc
      · refine ⟨⟨by omega, by rw [hget, hclose]⟩, ?_⟩
        rintro k ⟨hik, hk⟩
        by_contra hlt
        exact hbody k hik (by omega) hk
      · exact hline
      · rw [← hlast (by omega)]
        exact hend
      · intro d hd
        rw [← hafter, hd] at hdigit
        exact hdigit

/-- A candidate is what is read where it starts. -/
theorem isCandidate_iff_read {s : Span} :
  IsCandidate scope t s
    ↔ ∃ d k, read scope (Place.start.after (t.take s.start)) (t.drop s.start) = some (d, k + 1)
        ∧ s.stop = s.start + (k + 1)
  := by
  constructor
  · rintro (⟨j, hdisplay, hstop⟩ | ⟨rfl, j, hinline, hstop⟩)
    · obtain ⟨cs, hcs⟩ := hdisplay.opening
      obtain ⟨n, rfl⟩ := Nat.exists_eq_add_of_le hdisplay.closing.1.1
      obtain ⟨hfits, hfirst⟩ := (isDisplayAt_iff hcs.symm).mp hdisplay
      refine ⟨.display (cs.take n), n + 3, ?_, by omega⟩
      rw [← hcs]
      exact read_display_iff.mpr ⟨n, hfits, hfirst, rfl, rfl⟩
    · obtain ⟨hlt, hdollar⟩ := List.getElem?_eq_some_iff.mp hinline.opening
      obtain ⟨n, rfl⟩ := Nat.exists_eq_add_of_lt hinline.closing.1.1
      rw [Nat.add_right_comm] at hinline hstop
      have hdrop := List.drop_eq_getElem_cons hlt
      rw [hdollar] at hdrop
      have hcs : (t.drop (s.start + 1)).head? ≠ some '$' := by
        obtain ⟨c, hc, -, hne⟩ := hinline.first
        rw [List.head?_drop, hc]
        simpa using hne
      obtain ⟨hclose, hbody, hshape, hdigit⟩ := (isInlineAt_iff hdrop).mp hinline
      refine ⟨.inline ((t.drop (s.start + 1)).take n), n + 1, ?_, by omega⟩
      rw [hdrop]
      exact (read_inline_iff hcs).mpr ⟨n, hclose, hbody, hshape, hdigit, rfl, rfl⟩
  · rintro ⟨d, k, hread, hstop⟩
    cases hdrop : t.drop s.start with
    | nil =>
      rw [hdrop] at hread
      cases hread
    | cons c cs =>
      rw [hdrop] at hread
      obtain rfl : c = '$' := by
        by_contra hc
        exact passes_of_ne hc _ _ hread
      by_cases hcs : cs.head? = some '$'
      · left
        obtain ⟨cs, rfl⟩ := List.head?_eq_some_iff.mp hcs
        obtain ⟨n, hfits, hfirst, -, hk⟩ := read_display_iff.mp hread
        exact ⟨s.start + 2 + n, (isDisplayAt_iff hdrop).mpr ⟨hfits, hfirst⟩, by omega⟩
      · right
        cases scope with
        | displays =>
          rw [read_displays_eq_none hcs] at hread
          cases hread
        | all =>
          obtain ⟨n, hclose, hbody, hshape, hdigit, -, hk⟩ := (read_inline_iff hcs).mp hread
          refine ⟨rfl, s.start + 1 + n, ?_, by omega⟩
          exact (isInlineAt_iff hdrop).mpr ⟨hclose, hbody, hshape, hdigit⟩

/-- A candidate is not empty. -/
theorem IsCandidate.start_lt_stop {s : Span} (h : IsCandidate scope t s) :
  s.start < s.stop
  := by
  obtain ⟨d, k, -, hstop⟩ := isCandidate_iff_read.mp h
  omega

/-- At a position starts at most one candidate. -/
theorem IsCandidate.eq_of_start_eq {s s' : Span} (h : IsCandidate scope t s)
    (h' : IsCandidate scope t s') (hstart : s.start = s'.start) :
  s = s'
  := by
  obtain ⟨d, k, hread, hstop⟩ := isCandidate_iff_read.mp h
  obtain ⟨d', k', hread', hstop'⟩ := isCandidate_iff_read.mp h'
  rw [← hstart, hread] at hread'
  obtain ⟨rfl, heq⟩ := Prod.mk.inj (Option.some.inj hread')
  obtain ⟨start, stop⟩ := s
  obtain ⟨start', stop'⟩ := s'
  simp only [Span.mk.injEq] at *
  omega

/-- It stands in the text. -/
theorem IsCandidate.stop_le {s : Span} (h : IsCandidate scope t s) :
  s.stop ≤ t.length
  := by
  rcases h with ⟨j, hdisplay, hstop⟩ | ⟨-, j, hinline, hstop⟩
  · have hle := hdisplay.closing.1.2.length_le
    simp only [List.length_cons, List.length_nil, List.length_drop] at hle
    omega
  · obtain ⟨hlt, -⟩ := List.getElem?_eq_some_iff.mp hinline.closing.1.2
    omega

/-- A candidate starts with a dollar. -/
theorem IsCandidate.dollar_start {s : Span} (h : IsCandidate scope t s) :
  t[s.start]? = some '$'
  := by
  rcases h with ⟨j, hdisplay, -⟩ | ⟨-, j, hinline, -⟩
  · exact (dollars_prefix_iff.mp hdisplay.opening).1
  · exact hinline.opening

/-- A candidate ends with a dollar. -/
theorem IsCandidate.dollar_stop {s : Span} (h : IsCandidate scope t s) :
  ∃ k, s.stop = k + 1 ∧ t[k]? = some '$'
  := by
  rcases h with ⟨j, hdisplay, hstop⟩ | ⟨-, j, hinline, hstop⟩
  · exact ⟨j + 1, hstop, (dollars_prefix_iff.mp hdisplay.closing.1.2).2⟩
  · exact ⟨j, hstop, hinline.closing.1.2⟩

/-- The spans that are found are a greedy list of candidates. -/
theorem isGreedy_dollarSpans (scope : Scope) (t : Text) :
  IsGreedy (IsCandidate scope t) (dollarSpans scope t)
  := by
  constructor
  · intro s hs
    obtain ⟨m, hm, rfl⟩ := List.mem_map.mp hs
    obtain ⟨u, k, rfl, hstart, hread, htake⟩ := Reader.exists_of_mem_pieces hm
    have hcandidate : IsCandidate scope (u ++ (m.source ++ m.rest))
        ⟨u.length, u.length + (k + 1)⟩ := by
      rw [isCandidate_iff_read]
      refine ⟨m.value, k, ?_, rfl⟩
      rw [List.take_left, List.drop_left, hread]
    have hlength := congrArg List.length htake
    have hle := hcandidate.stop_le
    simp only [List.length_append, List.length_take] at hle hlength
    have hsource : m.source.length = k + 1 := by omega
    rw [Match.span, hstart, hsource]
    exact hcandidate
  · apply pairwise_dollarSpans
  · intro s hs
    obtain ⟨d, k, hread, hstop⟩ := isCandidate_iff_read.mp hs
    have hlt : s.start < t.length := Nat.lt_of_lt_of_le hs.start_lt_stop hs.stop_le
    rcases (read scope).passes_or_exists_of_getElem? (List.getElem?_eq_getElem hlt) with
      ⟨-, hpass⟩ | ⟨m, hm, hspan⟩
    · exact absurd hread (hpass d k)
    · exact ⟨m.span, List.mem_map_of_mem hm, hspan⟩

/-- They are the only one. -/
theorem eq_dollarSpans_of_isGreedy {ss : List Span} (h : IsGreedy (IsCandidate scope t) ss) :
  ss = dollarSpans scope t
  := by
  apply h.eq (isGreedy_dollarSpans scope t)
  · exact fun s hs => hs.start_lt_stop
  · exact fun s d hs hd => hs.eq_of_start_eq hd

/-- The spans of dollar mathematics are the greedy list of candidates. -/
theorem isGreedy_iff {ss : List Span} :
  IsGreedy (IsCandidate scope t) ss ↔ ss = dollarSpans scope t
  := by
  constructor
  · apply eq_dollarSpans_of_isGreedy
  · rintro rfl
    apply isGreedy_dollarSpans

end Dollars

end DollarMath
