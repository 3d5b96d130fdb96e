import DollarMath.Proofs.InlineItems

/-!
# Parentheses between more text

Whether a parenthesis is a formula is told by its source and by the characters beside it.  So a
parenthesis that is one within a part of a text is one in the whole text, unless it stands at an
end of the part and something else comes to stand beside it.  In a text where all items of the gaps
have been written, no gap holds a formula in plain parentheses, as no gap did so before.
-/

namespace DollarMath

open Entries

namespace Paren

/-! ### Parentheses in a part of a text -/

section Partner

variable {t : Text} {i j : Nat} (x y : Text)

theorem extract_append_append_of_le (hi : i ≤ j) (hj : j ≤ t.length) :
  (x ++ (t ++ y)).extract (x.length + i) (x.length + j) = t.extract i j
  := by
  have hlength : x.length + j - (x.length + i) = j - i := by omega
  rw [List.extract_eq_take_drop, List.extract_eq_take_drop, hlength, ← List.drop_drop,
    List.drop_left, List.drop_append_of_le_length (Nat.le_trans hi hj),
    List.take_append_of_le_length]
  rw [List.length_drop]
  omega

/-- Whether a parenthesis closes another one is told by the text between. -/
theorem closes_append_iff (hj : j < t.length) :
  Closes (x ++ (t ++ y)) (x.length + i) (x.length + j) ↔ Closes t i j
  := by
  have hclosing : (x ++ (t ++ y))[x.length + j]? = t[j]? := by
    rw [List.getElem?_append_right (Nat.le_add_right _ _), Nat.add_sub_cancel_left,
      List.getElem?_append_left hj]
  constructor
  · rintro ⟨hlt, hclose, hcount⟩
    have hlt : i < j := by omega
    rw [Nat.add_assoc, extract_append_append_of_le x y (by omega) hj] at hcount
    exact ⟨hlt, hclosing ▸ hclose, hcount⟩
  · rintro ⟨hlt, hclose, hcount⟩
    refine ⟨by omega, hclosing ▸ hclose, ?_⟩
    rwa [Nat.add_assoc, extract_append_append_of_le x y (by omega) hj]

/-- The partner of a parenthesis in a part of a text is its partner in the whole text. -/
theorem partner_append (hi : t[i]? = some '(') (h : partner (pairs t) i = some j) :
  partner (pairs (x ++ (t ++ y))) (x.length + i) = some (x.length + j)
  := by
  have hfirst := isFirst_partner hi
  rw [h] at hfirst
  have hlt : j < t.length := (List.getElem?_eq_some_iff.mp hfirst.1.closing).1
  have hopening : (x ++ (t ++ y))[x.length + i]? = some '(' := by
    rw [List.getElem?_append_right (Nat.le_add_right _ _), Nat.add_sub_cancel_left,
      List.getElem?_append_left (List.getElem?_eq_some_iff.mp hi).1, hi]
  apply (isFirst_partner hopening).eq
  constructor
  · exact (closes_append_iff x y hlt).mpr hfirst.1
  · intro k hk
    obtain ⟨n, rfl⟩ := Nat.exists_eq_add_of_le (Nat.le_trans (Nat.le_add_right _ i) hk.lt.le)
    by_contra hle
    apply hle
    apply Nat.add_le_add_left
    apply hfirst.2
    exact (closes_append_iff x y (by omega)).mp hk

end Partner

/-! ### Formulas in a part of a text -/

/-- No prime stands where a formula may close. -/
theorem takeWhile_prime_of_mayClose {primes rest : Text} (hprimes : ∀ c ∈ primes, c = '\x27')
    (h : mayClose rest = true) :
  (primes ++ rest).takeWhile (· = '\x27') = primes
  := by
  rw [List.takeWhile_append_of_pos (by simpa using hprimes)]
  cases rest with
  | nil => simp
  | cons c rest =>
    have hne : c ≠ '\x27' := by
      rintro rfl
      have hprime : mayClose ['\x27'] = false := by decide
      rw [mayClose, List.head?_cons] at h hprime
      rw [hprime] at h
      cases h
    simp [hne]

/-- A parenthesis with its primes ends with a parenthesis or a prime. -/
theorem GroupForm.getLast?_source {source w body primes : Text}
    (h : GroupForm source w body primes) :
  ∃ c ∈ source.getLast?, c = ')' ∨ c = '\x27'
  := by
  rw [h.source_eq, ← List.append_assoc, List.getLast?_append_of_ne_nil _ (by simp)]
  rcases List.eq_nil_or_concat' primes with rfl | ⟨u, c, rfl⟩
  · exact ⟨')', rfl, .inl rfl⟩
  · refine ⟨c, ?_, .inr (h.primes c (by simp))⟩
    rw [← List.append_assoc, List.getLast?_concat]
    rfl

/-- No formula in backslash parentheses is read where no backslash stands. -/
theorem inline_eq_none {p : Place} {t : Text} (h : t.head? ≠ some '\\') :
  Delimiter.inline.reader p t = none
  := by
  cases hread : Delimiter.inline.reader p t with
  | none => rfl
  | some a =>
    obtain ⟨hallowed, -, z, rfl⟩ := (Delimiter.reads_inline _ _ _ _).mp hread
    exact absurd (hallowed.head?_source z) h

/-- What is read in plain parentheses lies within the text. -/
theorem le_length_of_read_plain {u v w : Text} {n : Nat}
    (h : read (pairs (u ++ v)) (Place.start.after u) v = some (.plain w, n)) :
  n ≤ v.length
  := by
  rw [read] at h
  split at h
  · cases h
  · obtain ⟨⟨w', k⟩, hmath, heq⟩ := Option.map_eq_some_iff.mp h
    obtain ⟨-, rfl⟩ := Prod.mk.inj heq
    obtain ⟨source, rest, -, -, rfl, hlength, -⟩ := exists_append_of_readMath hmath
    rw [hlength, List.length_append]
    exact Nat.le_add_right _ _

/-- What is read in plain parentheses, by its parts and the characters beside it. -/
theorem read_eq_plain_iff {u s r w : Text} :
  read (pairs (u ++ (s ++ r))) (Place.start.after u) (s ++ r) = some (.plain w, s.length)
    ↔ ∃ body primes, GroupForm s w body primes
      ∧ partner (pairs (u ++ (s ++ r))) u.length = some (u.length + body.length + 1)
      ∧ mayOpen (Place.start.after u) = true ∧ mayClose r = true
  := by
  constructor
  · intro h
    obtain ⟨hopen, hclose⟩ := neighbours_of_read h
    rw [List.drop_left] at hclose
    rw [read] at h
    split at h
    · cases h
    · obtain ⟨⟨w', k⟩, hmath, heq⟩ := Option.map_eq_some_iff.mp h
      obtain ⟨hvalue, rfl⟩ := Prod.mk.inj heq
      obtain rfl := Item.plain.inj hvalue
      obtain ⟨source, rest, body, primes, hcut, hlength, hform, hpartner⟩ :=
        exists_append_of_readMath hmath
      obtain ⟨rfl, -⟩ := List.append_inj hcut hlength
      exact ⟨body, primes, hform, hpartner, hopen, hclose⟩
  · rintro ⟨body, primes, hform, hpartner, hopen, hclose⟩
    have hsource : s ++ r = '(' :: (body ++ ')' :: (primes ++ r)) := by
      rw [hform.source_eq]
      simp
    have hlength : s.length = body.length + 2 + primes.length := by
      rw [hform.source_eq]
      simp only [List.length_append, List.length_cons, List.length_nil]
      omega
    have hoffset : (Place.start.after u).offset = u.length := by
      rw [Place.after_offset]
      exact Nat.zero_add _
    have hstop : u.length + body.length + 1 - u.length - 1 = body.length := by omega
    have hbehind : (body ++ ')' :: (primes ++ r)).drop (body.length + 1) = primes ++ r := by
      rw [← List.drop_drop, List.drop_left]
      rfl
    have hmath : readMath (pairs (u ++ (s ++ r))) (Place.start.after u) (s ++ r)
        = some (w, s.length) := by
      rw [hsource] at hpartner ⊢
      rw [readMath, hoffset, hpartner]
      simp only [Option.bind_eq_bind, Option.bind_some, hstop, List.take_left, hbehind,
        takeWhile_prime_of_mayClose hform.primes hclose, List.drop_left, hopen, hclose,
        hform.isMath, Bool.and_self, if_true]
      rw [hform.formula_eq, hlength]
      rfl
    rw [read, inline_eq_none (by simp [hsource]), hmath]
    rfl

/-- A parenthesis that is a formula in a part of a text is one in the whole text, if it stands at
no end of the part where there is more text. -/
theorem read_eq_plain_append {u s r w x y : Text} (hx : u = [] → x = []) (hy : r = [] → y = [])
    (h : read (pairs (u ++ (s ++ r))) (Place.start.after u) (s ++ r) = some (.plain w, s.length)) :
  read (pairs ((x ++ u) ++ (s ++ (r ++ y)))) (Place.start.after (x ++ u)) (s ++ (r ++ y))
    = some (.plain w, s.length)
  := by
  obtain ⟨body, primes, hform, hpartner, hopen, hclose⟩ := read_eq_plain_iff.mp h
  refine read_eq_plain_iff.mpr ⟨body, primes, hform, ?_, ?_, ?_⟩
  · have hopening : (u ++ (s ++ r))[u.length]? = some '(' := by
      rw [hform.source_eq, List.getElem?_append_right (Nat.le_refl _), Nat.sub_self]
      rfl
    have hwide := partner_append x y hopening hpartner
    have hcut : x ++ (u ++ (s ++ r) ++ y) = (x ++ u) ++ (s ++ (r ++ y)) := by simp
    rw [hcut, ← List.length_append] at hwide
    rw [hwide, List.length_append]
    congr 1
    omega
  · rw [mayOpen, Place.before_start_after] at hopen ⊢
    cases u with
    | nil => rwa [hx rfl]
    | cons c u => rwa [List.getLast?_append_of_ne_nil _ (List.cons_ne_nil c u)]
  · rw [mayClose] at hclose ⊢
    cases r with
    | nil => rwa [hy rfl]
    | cons c r => exact hclose

end Paren

/-! ### Texts whose items are written -/

namespace Rewrites

variable {es es' : Entries}

/-- Where nothing is written, nothing was. -/
theorem eq_nil {R : Rules} {z x : Text} (h : Rewrites R z x es []) :
  es = []
  := by
  generalize hnil : [] = bs at h
  cases h with
  | nil => rfl
  | keep => cases hnil
  | write =>
    have hlength := congrArg List.length hnil
    simp at hlength

/-- What stands before a gap of the new text, up to the dollar before it, is written or kept as a
whole: nothing of it is left to the gap, if the gap starts with a parenthesis. -/
theorem eq_nil_of_opening {x u q : Text} {A A' : Entries}
    (h : Rewrites itemRules q [] A A') (hne : ∀ e ∈ A', e.2 ≠ [])
    (hA' : EndsWithDollar (text A')) (hA : text A = x ++ u) (hu : '$' ∉ u)
    (hq : q.head? = some '(') :
  u = []
  := by
  rcases List.eq_nil_or_concat' u with rfl | ⟨u, c, rfl⟩
  · rfl
  exfalso
  have hlast : (text A).getLast? = some c := by
    rw [hA, ← List.append_assoc, List.getLast?_concat]
  have hc : c ≠ '$' := by
    rintro rfl
    simp at hu
  rcases h.last_cases with ⟨rfl, rfl⟩ | ⟨B, B', e, rfl, rfl⟩ | ⟨B, B', s, m, d, -, -, hwrite⟩
  · cases hlast
  · have he := hne e (by simp)
    rw [text_append, text_cons, text_nil, List.append_nil, List.getLast?_append_of_ne_nil _ he]
      at hlast
    apply hc
    apply hA'
    rw [text_append, text_cons, text_nil, List.append_nil, List.getLast?_append_of_ne_nil _ he]
    exact hlast
  · exact (hwrite.behind '(' hq).2 rfl

/-- What stands behind a gap of the new text, up to the dollar behind it, is written or kept as a
whole: nothing of it is left to the gap, if the gap ends with a parenthesis or a prime. -/
theorem eq_nil_of_closing {x v y : Text} {B B' : Entries} (h : Rewrites itemRules [] x B B')
    (hB' : StartsWithDollar (text B')) (hB : text B = v ++ y) (hv : '$' ∉ v)
    (hx : ∃ c ∈ x.getLast?, c = ')' ∨ c = '\x27') :
  v = []
  := by
  cases v with
  | nil => rfl
  | cons c v =>
    exfalso
    rcases h.head?_text with hsame | ⟨s, m, d, y', hwrite, -, -⟩
    · rw [List.append_nil, List.append_nil] at hsame
      apply hv
      rw [← hB' c (by rw [hsame, hB]; rfl)]
      exact List.mem_cons_self
    · obtain ⟨c, hc, hparen⟩ := hx
      obtain ⟨-, hclose, hprime⟩ := hwrite.before c hc
      exact hparen.elim hclose hprime

/-- In a text whose items are written, no gap holds a formula in plain parentheses. -/
theorem formula?_eq_none (h : Rewrites itemRules [] [] es es') (hes' : AreRead none none es')
    {k : Chunk} (hk : k ∈ cut es') (hprose : k.isMath = false) :
  ∀ m ∈ (Paren.read (Paren.pairs k.text)).findAll k.text, m.value.formula? = none
  := by
  intro m hm
  cases hvalue : m.value with
  | backslash e => rfl
  | plain w =>
    exfalso
    obtain ⟨A', B', rfl, hne, hdollar, hA', hB'⟩ := hes'.exists_gap hk hprose
    obtain ⟨u, n, hcut, -, hread⟩ := Reader.exists_isRead_of_mem_findAll hm
    obtain ⟨A, B, rfl, hA, hB, hkeeps⟩ := h.exists_of_append_chars hne
      (fun x s m d y hwrite u hu _ hprefix => hu (by
        rw [hwrite.marker] at hprefix
        exact List.prefix_nil.mp hprefix))
      (fun x s m d y hwrite hinfix => hne (by
        rw [hwrite.marker] at hinfix
        exact List.infix_nil.mp hinfix))
    obtain ⟨body, primes, hform⟩ := Paren.form_of_formula hm (by rw [hvalue]; rfl)
    have hplain := hread.read
    rw [hvalue, hcut] at hplain
    have hlength : n + 1 = m.source.length := by
      have hle := Paren.le_length_of_read_plain hplain
      rw [hread.source_eq, List.length_take, Nat.min_eq_left hle]
    rw [hlength] at hplain
    obtain ⟨x', x, hx, hx', hxdollar⟩ := exists_endsWithDollar_append (text A)
    obtain ⟨y, y', hy, hy', hydollar⟩ := exists_append_startsWithDollar (text B)
    have hopening : u = [] → x = [] := by
      rintro rfl
      apply hA.eq_nil_of_opening (fun e he => hes'.ne_nil e (List.mem_append_left _ he)) hA' hx
        hxdollar
      rw [hcut, hform.source_eq]
      rfl
    have hclosing : m.rest = [] → y = [] := by
      intro hrest
      apply hB.eq_nil_of_closing hB' hy hydollar
      obtain ⟨c, hc, hparen⟩ := hform.getLast?_source
      refine ⟨c, ?_, hparen⟩
      rw [hcut, hrest, List.append_nil, List.nil_append, ← List.append_assoc,
        List.getLast?_append_of_ne_nil _ hread.source_ne_nil]
      exact hc
    have hkept := hkeeps u (m.source ++ m.rest) hcut (by simp [hread.source_ne_nil])
    rw [hcut, List.mem_append, List.mem_append, not_or, not_or] at hdollar
    have hpass := hkept x' (x ++ u) (m.source ++ (m.rest ++ y)) y' (by simp [hx]) (by simp [hy]) hx'
      hy' (by simp [hxdollar, hdollar]) (by simp [hydollar, hdollar])
      (by simp [hread.source_ne_nil])
    apply hpass (.plain w) n
    rw [hlength]
    exact Paren.read_eq_plain_append hopening hclosing hplain

end Rewrites

end DollarMath
