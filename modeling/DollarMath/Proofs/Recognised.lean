import DollarMath.Proofs.Candidates
import DollarMath.Proofs.Doubled
import DollarMath.Proofs.Reached
import DollarMath.Proofs.Signs

/-!
# Formulas that are recognised

A parenthesis that is mathematics is written between dollars, so that it is left alone as dollar
mathematics when the text is read again.  The writer trims the body; the reader wants one line,
with no blank character at either end and no backslash at the end.  The two disagree about bodies
of several lines, and about bodies that end with a backslash.
-/

namespace DollarMath

/-! ### Texts that are not blank -/

/-- A text with a character that is not blank is not trimmed to nothing. -/
theorem trim_ne_nil_of_mem {t : Text} {c : Char} (hmem : c ∈ t) (hc : isBlank c = false) :
  trim t ≠ []
  := by
  intro hnil
  obtain ⟨a, b, ha, hb, ht⟩ := exists_eq_append_trim t
  rw [ht, hnil, List.nil_append] at hmem
  have hblank : isBlank c = true := (List.mem_append.mp hmem).elim (ha c) (hb c)
  rw [hc] at hblank
  cases hblank

/-- A text that looks like mathematics is not blank: each of the six signs shows a character that
is not. -/
theorem trim_ne_nil_of_looksMath {t : Text} (h : looksMath t = true) :
  trim t ≠ []
  := by
  have hoperator : t.any isOperator = true → trim t ≠ [] := by
    intro hany
    obtain ⟨c, hmem, hc⟩ := List.any_eq_true.mp hany
    exact trim_ne_nil_of_mem hmem (isBlank_of_mem (by decide) (of_decide_eq_true hc))
  simp only [looksMath, Bool.or_eq_true, Bool.and_eq_true, or_assoc, and_assoc,
    hasGroupedDigits_iff, startsWithRelation_iff] at h
  rcases h with h | ⟨g, ⟨a, c, b, rfl, -⟩, hg⟩ | ⟨h, -⟩ | h | ⟨a, x, o, y, b, rest, rfl, ha, -⟩
    | ⟨h, -⟩
  · obtain ⟨c, hmem, hc⟩ := List.any_eq_true.mp h
    exact trim_ne_nil_of_mem hmem (isBlank_of_mem (by decide) (of_decide_eq_true hc))
  · have hbrace : '\x7b' ∈ t := hg.subset (by simp)
    exact trim_ne_nil_of_mem hbrace (by decide)
  · exact hoperator h
  · intro hnil
    rw [isBareNumber, hnil] at h
    cases h
  · exact trim_ne_nil_of_mem List.mem_cons_self (isBlank_of_isLatinLetter ha)
  · exact hoperator h

/-! ### One inline formula -/

namespace Dollars

variable {scope : Scope} {t b : Text}

/-- A text is dollar mathematics as a whole if it is a candidate. -/
theorem dollarSpans_eq_singleton_iff :
  dollarSpans scope t = [⟨0, t.length⟩] ↔ IsCandidate scope t ⟨0, t.length⟩
  := by
  constructor
  · intro h
    apply (isGreedy_dollarSpans scope t).candidates
    rw [h]
    apply List.mem_singleton_self
  · intro h
    symm
    apply eq_dollarSpans_of_isGreedy
    constructor
    · intro s hs
      obtain rfl := List.mem_singleton.mp hs
      exact h
    · apply List.pairwise_singleton
    · intro s hs
      refine ⟨_, List.mem_singleton_self _, Nat.zero_le _, ?_⟩
      exact Nat.lt_of_lt_of_le hs.start_lt_stop hs.stop_le

/-- A text between dollars is one inline formula if it is the body of one. -/
theorem dollarSpans_between_iff (hb : '$' ∉ b) :
  dollarSpans .all (['$'] ++ b ++ ['$']) = [⟨0, (['$'] ++ b ++ ['$']).length⟩]
    ↔ isInlineBody .start b = true
  := by
  rw [dollarSpans_eq_singleton_iff, isCandidate_iff_read]
  cases b with
  | nil =>
    constructor
    · rintro ⟨d, k, hread, -⟩
      cases hread
    · intro h
      cases h
  | cons c cs =>
    have hhead : ((c :: cs) ++ ['$']).head? ≠ some '$' := by
      rintro heq
      apply hb
      rw [← Option.some.inj heq]
      apply List.mem_cons_self
    have hstart : Place.start.after ((['$'] ++ (c :: cs) ++ ['$']).take 0) = .start := rfl
    have hdrop : (['$'] ++ (c :: cs) ++ ['$']).drop 0 = '$' :: ((c :: cs) ++ ['$']) := rfl
    have htake : ((c :: cs) ++ ['$']).take (c :: cs).length = c :: cs := List.take_left
    rw [hstart, hdrop]
    simp only [read_inline_iff hhead]
    constructor
    · rintro ⟨d, k, ⟨n, -, -, hbody, -, -, hk⟩, hlength⟩
      obtain rfl : n = (c :: cs).length := by
        simp only [List.length_append, List.length_cons, List.length_nil] at hlength ⊢
        omega
      rwa [htake] at hbody
    · intro hbody
      refine ⟨_, _, ⟨(c :: cs).length, ?_, ?_, ?_, ?_, rfl, rfl⟩, ?_⟩
      · apply List.getElem?_concat_length
      · rwa [htake]
      · rwa [htake]
      · simp
      · simp

end Dollars

/-! ### Formulas that are recognised -/

namespace Paren

/-- A body and primes whose formula is recognised: the trimmed body is one line, and it does not
end with a backslash, unless the parentheses stay around it or primes stand behind it. -/
def IsRecognisable (body primes : Text) : Prop :=
  '\n' ∉ trim body
    ∧ ((trim body).getLast? = some '\\' → (trim body).head? = some '(' ∨ primes ≠ [])

instance (body primes : Text) : Decidable (IsRecognisable body primes) :=
  inferInstanceAs (Decidable (_ ∧ _))

namespace GroupForm

variable {source formula body primes : Text} (h : GroupForm source formula body primes)
include h

/-- What stands between the dollars: the trimmed body, in parentheses if it starts with one, and the
primes. -/
theorem inside_eq :
  inside formula
    = (if (trim body).head? = some '(' then ['('] ++ trim body ++ [')'] else trim body) ++ primes
  := by
  rw [h.formula_eq, inside_formulaOf]

/-- The body is not blank. -/
theorem trim_ne_nil :
  trim body ≠ []
  := by
  apply trim_ne_nil_of_looksMath
  have hmath := h.isMath
  simp only [Paren.isMath, Bool.and_eq_true] at hmath
  exact hmath.2

/-- No dollar comes to stand between the dollars. -/
theorem dollar_not_mem_inside (hsource : '$' ∉ source) :
  '$' ∉ inside formula
  := by
  have hprimes : '$' ∉ primes := h.not_mem_primes (by decide)
  have hbody : '$' ∉ trim body := by
    intro hmem
    apply hsource
    rw [h.source_eq]
    simp [mem_of_mem_trim hmem]
  rw [h.inside_eq]
  split <;> simp [hprimes, hbody]

/-- The line feeds between the dollars are those of the trimmed body. -/
theorem newline_mem_inside :
  '\n' ∈ inside formula ↔ '\n' ∈ trim body
  := by
  have hprimes : '\n' ∉ primes := h.not_mem_primes (by decide)
  rw [h.inside_eq]
  split <;> simp [hprimes]

/-- The first character is not blank. -/
theorem head?_inside :
  ∃ c, (inside formula).head? = some c ∧ isBlank c = false
  := by
  rw [h.inside_eq]
  split
  · exact ⟨'(', rfl, by decide⟩
  · have hhead := List.head?_eq_some_head h.trim_ne_nil
    refine ⟨_, ?_, isBlank_of_head?_trim hhead⟩
    rw [List.head?_append, hhead]
    rfl

/-- The last character is not blank, and a backslash only if the trimmed body ends with one. -/
theorem getLast?_inside :
  ∃ c, (inside formula).getLast? = some c ∧ isBlank c = false
    ∧ (c ≠ '\\' ↔ ((trim body).getLast? = some '\\' → (trim body).head? = some '(' ∨ primes ≠ []))
  := by
  rw [h.inside_eq, List.getLast?_append]
  cases hprimes : primes.getLast? with
  | some c =>
    obtain rfl := h.primes c (List.mem_of_getLast? hprimes)
    have hne : primes ≠ [] := by
      rintro rfl
      cases hprimes
    refine ⟨_, rfl, by decide, iff_of_true (by decide) fun _ => .inr hne⟩
  | none =>
    rw [List.getLast?_eq_none_iff] at hprimes
    split
    · next hhead =>
      rw [List.getLast?_concat]
      refine ⟨_, rfl, by decide, iff_of_true (by decide) fun _ => .inl hhead⟩
    · next hhead =>
      have hlast := List.getLast?_eq_some_getLast h.trim_ne_nil
      rw [hlast]
      refine ⟨_, rfl, isBlank_of_getLast?_trim hlast, ?_⟩
      simp [hprimes, hhead]

/-- The formula of a body is recognised if the body is one line and does not end with a
backslash. -/
theorem isInlineBody_inside_iff :
  Dollars.isInlineBody .start (inside formula) = true ↔ IsRecognisable body primes
  := by
  obtain ⟨c, hlast, hblank, hne⟩ := h.getLast?_inside
  rw [Dollars.isInlineBody_iff, IsRecognisable, ← hne, h.newline_mem_inside, hlast]
  constructor
  · rintro ⟨-, -, ⟨_, hc, -, hbackslash⟩, hline⟩
    obtain rfl := Option.some.inj hc
    exact ⟨hline, hbackslash⟩
  · rintro ⟨hline, hbackslash⟩
    refine ⟨⟨?_, ?_⟩, h.head?_inside, ⟨c, rfl, hblank, hbackslash⟩, hline⟩
    · exact nofun
    · exact nofun

end GroupForm

/-- A formula that is written for a parenthesis is recognised exactly when its body is one line
and does not end with a backslash. -/
theorem dollarSpans_mathAt_iff {t w : Text} {i e : Nat} (ht : '$' ∉ t)
    (h : mathAt t (pairs t) i = some (w, e)) :
  ∃ j, partner (pairs t) i = some j
    ∧ (dollarSpans .all w = [⟨0, w.length⟩]
      ↔ IsRecognisable (t.extract (i + 1) j) (t.extract (j + 1) e))
  := by
  obtain ⟨j, hj, hform⟩ := exists_form_of_mathAt h
  use j, hj
  have hsource : '$' ∉ t.extract i e := by
    rw [List.extract_eq_take_drop]
    exact fun hmem => ht (List.mem_of_mem_drop (List.mem_of_mem_take hmem))
  rw [← hform.isInlineBody_inside_iff, hform.eq_between, inside_between]
  exact Dollars.dollarSpans_between_iff (hform.dollar_not_mem_inside hsource)

/-- A formula that ends with a backslash and a prime. -/
theorem dollarSpans_mathAt_prime :
  let t := ['(', '1', '+', '\\', ')', '\x27']
  let w := ['$', '1', '+', '\\', '\x27', '$']
  ('$' ∉ t ∧ mathAt t (pairs t) 0 = some (w, 6)) ∧ dollarSpans .all w = [⟨0, 6⟩]
  := by
  intro t w
  have ht : '$' ∉ t := by decide
  have h : mathAt t (pairs t) 0 = some (w, 6) := by decide
  obtain ⟨j, hj, hiff⟩ := dollarSpans_mathAt_iff ht h
  obtain rfl : 4 = j := Option.some.inj hj
  exact ⟨⟨ht, h⟩, hiff.mpr (by decide)⟩

/-- A body of two lines is written between dollars that are no dollar mathematics: the
parenthesis in it is rewritten when the text is read again.  So are the dollars of a body that
ends with a backslash. -/
theorem dollarSpans_mathAt_ne :
  let t := ['(', '1', '+', ' ', '(', '2', ')', '\n', '+', '3', ')']
  let w := ['$', '1', '+', ' ', '(', '2', ')', '\n', '+', '3', '$']
  let t' := ['(', 'x', '=', '\\', ')']
  let w' := ['$', 'x', '=', '\\', '$']
  ('$' ∉ t ∧ mathAt t (pairs t) 0 = some (w, t.length) ∧ dollarSpans .all w ≠ [⟨0, w.length⟩]
      ∧ convertParens.between .all w
        = ⟨['$', '1', '+', ' ', '$', '2', '$', '\n', '+', '3', '$'], .ofInline 1⟩)
    ∧ '$' ∉ t' ∧ mathAt t' (pairs t') 0 = some (w', t'.length)
      ∧ dollarSpans .all w' ≠ [⟨0, w'.length⟩]
  := by
  decide

end Paren

end DollarMath
