import DollarMath.Proofs.Brackets
import DollarMath.Proofs.Edits
import DollarMath.Proofs.Layout
import DollarMath.Proofs.Settled

/-!
# Brackets that are left

The brackets of a text without dollars are converted once: what the conversion leaves it leaves
again.  A bracket that is found in the converted text touches a display, or it stands between the
displays.  Then it is a bracket of the text itself, found there and no mathematics, and what
follows it tells the same: the character behind it is kept, or a display stands where a bracket
stood, and neither makes it a link.
-/

namespace DollarMath

open scoped List

/-! ### Texts between edits -/

namespace Edit

/-- The text `s`, which stands between `x` and `z` when edits behind `i` are made in the text `t`,
is left by the edits: it stands at the position `k` of `t`. -/
structure IsLeft (t : Text) (i : Nat) (es : List Edit) (x s z : Text) (k : Nat) : Prop where
  /-- The text stands behind `i`. -/
  le : i ≤ k
  /-- The edits stand apart from the text. -/
  apart : ∀ e ∈ es, e.span.Apart ⟨k, k + s.length⟩
  /-- What is between the text and the edit before it, or `i`, is left as well. -/
  before : ∃ j ≤ k, (j = i ∨ ∃ e ∈ es, e.span.stop = j) ∧ t.extract j k <:+ x
  /-- The character behind the text is left, or an edit starts there. -/
  behind : ∃ v, t.drop k = s ++ v
    ∧ (v.head? = z.head? ∨ ∃ e ∈ es, e.span.start = k + s.length ∧ e.text.head? = z.head?)

variable {t : Text} {i : Nat} {es : List Edit} {x s z : Text}

/-- A text before all edits is left. -/
theorem IsLeft.of_drop {v : Text} (hdrop : t.drop i = x ++ (s ++ v))
    (hes : ∀ e ∈ es, i + x.length + s.length ≤ e.span.start)
    (hbehind : v.head? = z.head?
      ∨ ∃ e ∈ es, e.span.start = i + x.length + s.length ∧ e.text.head? = z.head?) :
  IsLeft t i es x s z (i + x.length)
  := by
  constructor
  · apply Nat.le_add_right
  · exact fun e he => .inr (hes e he)
  · refine ⟨i, Nat.le_add_right _ _, .inl rfl, ?_⟩
    rw [List.extract_eq_take_drop, hdrop, Nat.add_sub_cancel_left, List.take_left]
  · refine ⟨v, ?_, hbehind⟩
    rw [← List.drop_drop, hdrop, List.drop_left]

/-- A text that is left by the edits behind `e` is left by all of them. -/
theorem IsLeft.cons {e : Edit} {k : Nat} (h : IsLeft t e.span.stop es x s z k)
    (hi : i ≤ e.span.stop) (a : Text) :
  IsLeft t i (e :: es) (a ++ x) s z k
  := by
  constructor
  · exact Nat.le_trans hi h.le
  · exact List.forall_mem_cons.mpr ⟨.inl h.le, h.apart⟩
  · obtain ⟨j, hj, hstop, hbefore⟩ := h.before
    refine ⟨j, hj, .inr ?_, hbefore.trans (List.suffix_append a x)⟩
    rcases hstop with rfl | ⟨e', he', hstop⟩
    · exact ⟨e, List.mem_cons_self, rfl⟩
    · exact ⟨e', List.mem_cons_of_mem e he', hstop⟩
  · obtain ⟨v, hv, hbehind⟩ := h.behind
    refine ⟨v, hv, hbehind.imp_right ?_⟩
    rintro ⟨e', he', hstart⟩
    exact ⟨e', List.mem_cons_of_mem e he', hstart⟩

/-- A text that does not hold the ends of another one, and is not in it, stands before it or
behind it. -/
theorem append_eq_append_of_not_mem {a w u : Text} {d : Char}
    (hhead : w.head? = some d) (hlast : w.getLast? = some d) (hinside : ¬ s <:+: w)
    (hd : d ∉ s) (h : a ++ (w ++ u) = x ++ (s ++ z)) :
  (∃ c, a = x ++ (s ++ c) ∧ z = c ++ (w ++ u)) ∨ ∃ y, x = a ++ (w ++ y) ∧ u = y ++ (s ++ z)
  := by
  rcases List.append_eq_append_iff.mp h with ⟨b, rfl, hb⟩ | ⟨b, rfl, hb⟩
  · right
    rcases List.append_eq_append_iff.mp hb with ⟨y, rfl, hy⟩ | ⟨c, rfl, hc⟩
    · exact ⟨y, rfl, hy⟩
    · have hnil : c = [] := by
        by_contra hne
        rcases List.append_eq_append_iff.mp hc with ⟨c', rfl, -⟩ | ⟨c', rfl, -⟩
        · exact hinside ⟨b, c', by simp⟩
        · rw [List.getLast?_append_of_ne_nil _ hne] at hlast
          exact hd (List.mem_append_left _ (List.mem_of_getLast? hlast))
      subst hnil
      exact ⟨[], by simp, hc.symm⟩
  · left
    rcases List.append_eq_append_iff.mp hb with ⟨c, rfl, hc⟩ | ⟨c, rfl, hc⟩
    · exact ⟨c, rfl, hc⟩
    · cases c with
      | nil => exact ⟨[], by simp, hc.symm⟩
      | cons d' c =>
        have hfirst := congrArg List.head? hc
        rw [List.head?_append, hhead] at hfirst
        obtain rfl : d = d' := Option.some.inj hfirst
        exact absurd (List.mem_append_right b List.mem_cons_self) hd

/-- A text that stands in an edited text is left by the edits, if each edit writes a text that
does not hold it, and starts and ends with a character that is not in it. -/
theorem exists_isLeft {d : Char}
    (hes : es.Pairwise fun e e' => e.span.stop ≤ e'.span.start)
    (hi : ∀ e ∈ es, i ≤ e.span.start)
    (hwithin : ∀ e ∈ es, e.span.start ≤ e.span.stop ∧ e.span.stop ≤ t.length)
    (htext : ∀ e ∈ es, e.text.head? = some d ∧ e.text.getLast? = some d ∧ ¬ s <:+: e.text)
    (hd : d ∉ s) (h : writeFrom t i es = x ++ (s ++ z)) :
  ∃ k, IsLeft t i es x s z k
  := by
  induction es generalizing i x with
  | nil => exact ⟨_, IsLeft.of_drop h (by simp) (.inl rfl)⟩
  | cons e es ih =>
    obtain ⟨hnext, hes⟩ := List.pairwise_cons.mp hes
    obtain ⟨hstart, hi⟩ := List.forall_mem_cons.mp hi
    obtain ⟨⟨hle, hstop⟩, hwithin⟩ := List.forall_mem_cons.mp hwithin
    obtain ⟨⟨hhead, hlast, hinside⟩, htext⟩ := List.forall_mem_cons.mp htext
    rcases append_eq_append_of_not_mem hhead hlast hinside hd h with ⟨c, hc, rfl⟩ | ⟨y, rfl, hy⟩
    · have hlength := congrArg List.length hc
      rw [length_extract (Nat.le_trans hle hstop), List.length_append, List.length_append]
        at hlength
      have hdrop : t.drop i = x ++ (s ++ (c ++ t.drop e.span.start)) := by
        rw [← extract_append_drop t hstart, hc]
        simp
      refine ⟨_, IsLeft.of_drop hdrop ?_ ?_⟩
      · rw [List.forall_mem_cons]
        refine ⟨by omega, fun e' he' => ?_⟩
        have hlater := hnext e' he'
        omega
      · cases c with
        | nil =>
          right
          refine ⟨e, List.mem_cons_self, ?_, ?_⟩
          · rw [List.length_nil] at hlength
            omega
          · rw [List.nil_append, List.head?_append, hhead]
            rfl
        | cons d' c => exact .inl rfl
    · obtain ⟨k, hk⟩ := ih hes hnext hwithin htext hy
      rw [← List.append_assoc]
      exact ⟨k, hk.cons (Nat.le_trans hstart hle) _⟩

end Edit

/-! ### Brackets between displays -/

variable {t : Text}

/-- What the conversion of brackets writes for a match. -/
abbrev writeBracket (t : Text) (m : Match Enclosure) : Option Text :=
  if isRewritten t m then some (displayOf m.value.body) else none

/-- The edits that convert the brackets of a text. -/
abbrev bracketEdits (t : Text) : Edits t :=
  Delimiter.bracket.reader.edits (writeBracket t) t

/-- The conversion of brackets makes its edits and counts them. -/
theorem convertBrackets_eq_edits (t : Text) :
  convertBrackets t = ⟨(bracketEdits t).text, .ofBlock (bracketEdits t).list.length⟩
  := by
  rw [convertBrackets_eq_replace, Reader.replace_eq_edits]
  rfl

theorem text_convertBrackets (t : Text) :
  (convertBrackets t).text = (bracketEdits t).text
  := by
  rw [convertBrackets_eq_edits]

/-- A display is written where a bracket stood. -/
theorem exists_bracket_of_mem_edits {e : Edit} (he : e ∈ (bracketEdits t).list) :
  ∃ m ∈ Delimiter.bracket.reader.findAll t, e.span = m.span ∧ isRewritten t m = true
    ∧ e.text = displayOf m.value.body
  := by
  obtain ⟨m, hm, hspan, hw⟩ := Reader.mem_edits_iff.mp he
  obtain ⟨hrewritten, heq⟩ := Option.ite_none_right_eq_some.mp hw
  exact ⟨m, hm, hspan, hrewritten, (Option.some.inj heq).symm⟩

/-- A display that is written for a bracket starts and ends with a dollar, and holds no
closing bracket. -/
theorem display_of_mem_edits {e : Edit} (he : e ∈ (bracketEdits t).list) :
  e.text.head? = some '$' ∧ e.text.getLast? = some '$' ∧ ']' ∉ e.text
  := by
  obtain ⟨m, hm, -, -, htext⟩ := exists_bracket_of_mem_edits he
  obtain ⟨-, -, -, -, ⟨body, hvalue, -, hclosing⟩, -⟩ := mem_findAll_bracket_iff.mp hm
  rw [htext, hvalue]
  refine ⟨rfl, ?_, ?_⟩
  · exact List.getLast?_append_of_ne_nil _ (List.cons_ne_nil _ _)
  · have htrim : ']' ∉ trim body := fun hmem => hclosing (mem_of_mem_trim hmem)
    simp [displayOf, htrim]

/-- No bracket is open before a text that is left, if none is open before it in the converted
text. -/
theorem isClosed_take_of_isLeft {x s z : Text} {k : Nat} (hx : IsClosed x)
    (hk : Edit.IsLeft t 0 (bracketEdits t).list x s z k) :
  IsClosed (t.take k)
  := by
  obtain ⟨j, hj, hstop, hbefore⟩ := hk.before
  have htake : t.take k = t.take j ++ t.extract j k := by
    have hcut := extract_append_extract t (Nat.zero_le j) hj
    simpa [List.extract_eq_take_drop] using hcut.symm
  rw [htake]
  apply (hx.suffix hbefore).append
  rcases hstop with rfl | ⟨e, he, rfl⟩
  · left
    rfl
  · right
    obtain ⟨m, hm, hspan, -⟩ := exists_bracket_of_mem_edits he
    obtain ⟨i, hi, hclosing⟩ := getElem?_stop_of_mem_findAll hm
    rw [hspan, hi, List.getLast?_take, if_neg (Nat.succ_ne_zero i), Nat.add_sub_cancel, hclosing]
    rfl

/-- A bracket that is left is found in the text. -/
theorem mem_findAll_of_isLeft {m : Match Enclosure} {x z : Text} (hx : IsClosed x)
    (hbracket : Delimiter.IsBracket m.value) (hsource : m.source = m.value.source)
    (hk : Edit.IsLeft t 0 (bracketEdits t).list x m.source z m.start)
    (ht : t.drop m.start = m.source ++ m.rest) :
  m ∈ Delimiter.bracket.reader.findAll t
  := by
  have hne : m.source ≠ [] := by
    obtain ⟨body, hvalue, -⟩ := hbracket
    rw [hsource, hvalue]
    exact List.cons_ne_nil _ _
  have hlength : (t.take m.start).length = m.start := by
    have hpos := List.length_pos_iff.mpr hne
    have hle := congrArg List.length ht
    rw [List.length_drop, List.length_append] at hle
    rw [List.length_take]
    omega
  rw [← List.take_append_drop m.start t, ht]
  exact mem_findAll_bracket_of_isClosed (isClosed_take_of_isLeft hx hk) hlength.symm hbracket
    hsource

/-- A bracket that is left is not rewritten: it would be an edit, and those stand apart from
it. -/
theorem isRewritten_eq_false_of_isLeft {m : Match Enclosure} {x z : Text}
    (hm : m ∈ Delimiter.bracket.reader.findAll t)
    (hk : Edit.IsLeft t 0 (bracketEdits t).list x m.source z m.start) :
  isRewritten t m = false
  := by
  by_contra hrewritten
  rw [Bool.not_eq_false] at hrewritten
  have he : ⟨m.span, displayOf m.value.body⟩ ∈ (bracketEdits t).list :=
    Reader.mem_edits_iff.mpr ⟨m, hm, rfl, if_pos hrewritten⟩
  have hpos := (Reader.span_within_of_mem_findAll hm).1
  rcases hk.apart _ he with hle | hle
  · exact Nat.lt_irrefl _ (Nat.lt_of_lt_of_le hpos hle)
  · exact Nat.lt_irrefl _ (Nat.lt_of_lt_of_le hpos hle)

/-- A display is written behind a bracket that is left where another bracket stood. -/
theorem head?_of_mem_edits {e : Edit} {s v : Text} {k : Nat} (he : e ∈ (bracketEdits t).list)
    (hstart : e.span.start = k + s.length) (ht : t.drop k = s ++ v) :
  v.head? = some '['
  := by
  obtain ⟨m, hm, hspan, -⟩ := exists_bracket_of_mem_edits he
  have hfirst : t[m.span.start]? = some '[' := by
    rw [← head?_source_of_mem_findAll hm, ← Reader.getElem?_start_of_mem_findAll hm]
    rfl
  rw [← hfirst, ← hspan, hstart, ← List.head?_drop, ← List.drop_drop, ht, List.drop_left]

/-- A bracket that is found in the converted text, and holds no dollar, is a bracket of the text
that is not rewritten.  The same character follows it, unless a display is written for a bracket
behind it. -/
theorem exists_left_bracket {m : Match Enclosure}
    (hm : m ∈ Delimiter.bracket.reader.findAll (convertBrackets t).text)
    (hdollar : '$' ∉ m.source) :
  ∃ m' ∈ Delimiter.bracket.reader.findAll t, isRewritten t m' = false ∧ m'.value = m.value
    ∧ (m'.rest.head? = m.rest.head? ∨ m'.rest.head? = some '[' ∧ m.rest.head? = some '$')
  := by
  obtain ⟨x, hx, htext, -, hbracket, hsource⟩ := mem_findAll_bracket_iff.mp hm
  have hinside : ∀ e ∈ (bracketEdits t).list,
      e.text.head? = some '$' ∧ e.text.getLast? = some '$' ∧ ¬ m.source <:+: e.text := by
    intro e he
    obtain ⟨hhead, hlast, hclosing⟩ := display_of_mem_edits he
    refine ⟨hhead, hlast, fun hinside => hclosing (hinside.subset ?_)⟩
    obtain ⟨body, hvalue, -⟩ := hbracket
    simp [hsource, hvalue, Enclosure.source]
  rw [text_convertBrackets] at htext
  obtain ⟨k, hk⟩ := Edit.exists_isLeft (bracketEdits t).ordered (fun e _ => Nat.zero_le _)
    (fun e he => ⟨Nat.le_of_lt ((bracketEdits t).within e he).1, ((bracketEdits t).within e he).2⟩)
    hinside hdollar htext
  obtain ⟨v, hv, hbehind⟩ := hk.behind
  have hm' : ⟨k, m.source, m.value, v⟩ ∈ Delimiter.bracket.reader.findAll t :=
    mem_findAll_of_isLeft hx hbracket hsource hk hv
  refine ⟨_, hm', isRewritten_eq_false_of_isLeft hm' hk, rfl, ?_⟩
  rcases hbehind with hbehind | ⟨e, he, hstart, hz⟩
  · left
    exact hbehind
  · right
    rw [← hz]
    exact ⟨head?_of_mem_edits he hstart hv, (display_of_mem_edits he).1⟩

/-- A match in a laid-out text that touches no dollar mathematics holds no dollar. -/
theorem dollar_not_mem_of_touches_eq_false
    {α : Type} {r : Reader α} {m : Match α} (h : Dollars.IsLaidOut t) (hm : m ∈ r.findAll t)
    (htouches : m.span.touches (dollarSpans .all t) = false) :
  '$' ∉ m.source
  := by
  intro hmem
  obtain ⟨i, hi⟩ := List.mem_iff_getElem?.mp hmem
  obtain ⟨hlt, -⟩ := List.getElem?_eq_some_iff.mp hi
  obtain ⟨u, k, rfl, hstart, -⟩ := Reader.exists_of_mem_pieces hm
  have hdollar : (u ++ (m.source ++ m.rest))[u.length + i]? = some '$' := by
    rw [List.getElem?_append_right (Nat.le_add_right _ _), Nat.add_sub_cancel_left,
      List.getElem?_append_left hlt, hi]
  obtain ⟨s, hs, hle, hstop⟩ := Dollars.exists_dollarSpan_of_isLaidOut h hdollar
  rw [← Dollars.dollarSpans_eq_of_isLaidOut h .all] at hs
  obtain ⟨d, hd, rfl⟩ := List.mem_map.mp hs
  have hapart := apart_of_touches_eq_false htouches d hd
  simp only [Span.Apart, Match.span, hstart] at hapart hle hstop
  omega

/-- Whether a bracket may be converted is told by its body and by the character behind it. -/
theorem isMathBracket_congr {m m' : Match Enclosure} (hvalue : m'.value = m.value)
    (hrest : m'.rest.head? = m.rest.head?
      ∨ m'.rest.head? = some '[' ∧ m.rest.head? = some '$') :
  isMathBracket m' = isMathBracket m
  := by
  rw [isMathBracket, isMathBracket, hvalue]
  rcases hrest with hrest | ⟨hrest, hrest'⟩
  · rw [hrest]
  · rw [hrest, hrest']
    rfl

/-- Converting the brackets of a text without dollars twice is converting them once. -/
theorem convertBrackets_convertBrackets (h : '$' ∉ t) :
  convertBrackets (convertBrackets t).text = .unchanged (convertBrackets t).text
  := by
  have hlaid := isLaidOut_convertBrackets (Dollars.isLaidOut_of_not_mem h)
  have htotal : (convertBrackets (convertBrackets t).text).tally.total = 0 := by
    rw [total_convertBrackets_eq_zero_iff]
    intro m hm hmath
    by_contra htouches
    rw [Bool.not_eq_true] at htouches
    obtain ⟨m', -, hkept, hvalue, hrest⟩ :=
      exists_left_bracket hm (dollar_not_mem_of_touches_eq_false hlaid hm htouches)
    rw [isRewritten, dollarSpans, Dollars.findAll_of_not_mem h, Bool.and_eq_false_iff] at hkept
    rw [isMathBracket_congr hvalue hrest, hmath] at hkept
    rcases hkept with hkept | hkept
    · cases hkept
    · cases hkept
  obtain ⟨hnonneg, htext⟩ := convertBrackets_isTallied (convertBrackets t).text
  calc convertBrackets (convertBrackets t).text
    _ = ⟨(convertBrackets (convertBrackets t).text).text,
          (convertBrackets (convertBrackets t).text).tally⟩ := rfl
    _ = .unchanged (convertBrackets t).text := by
      rw [htext htotal, hnonneg.tally_eq_zero htotal]
      rfl

/-- A bracket in a display that is written, a bracket that is no mathematics before a display, and
a link. -/
theorem convertBrackets_convertBrackets_link :
  let t := ['[', '0', ',', '[', '1', ']', ' ', '[', 'a', ']', '[', '2', '+', '2', ']', '[', 'x',
    '=', '1', ']', '(', 'u', ')']
  let t' := ['$', '$', '\n', '0', ',', '[', '1', '\n', '$', '$', ' ', '[', 'a', ']', '$', '$',
    '\n', '2', '+', '2', '\n', '$', '$', '[', 'x', '=', '1', ']', '(', 'u', ')']
  ('$' ∉ t ∧ convertBrackets t = ⟨t', .ofBlock 2⟩) ∧ convertBrackets t' = .unchanged t'
  := by
  intro t t'
  have h : '$' ∉ t := by decide
  have ht : convertBrackets t = ⟨t', .ofBlock 2⟩ := by decide
  have hagain := convertBrackets_convertBrackets h
  rw [ht] at hagain
  exact ⟨⟨h, ht⟩, hagain⟩

end DollarMath
