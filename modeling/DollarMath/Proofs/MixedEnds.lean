import DollarMath.Document
import DollarMath.Proofs.Neighbours

/-!
# Mixed line ends

A text may end some of its lines with a line feed and others with a carriage return and a line
feed.  Without its carriage returns it has the same lines, and everything that stops at a line
end, or runs over blank characters, is found in both texts.
-/

namespace DollarMath

namespace LineEnds

/-- A text without its carriage returns. -/
def dropReturns (t : Text) : Text :=
  t.filter fun c => c ≠ '\r'

/-- Every carriage return of a text stands directly before a line feed. -/
def IsMixed (t : Text) : Prop :=
  ∀ u v, t = u ++ '\r' :: v → v.head? = some '\n'

/-- No carriage return of a text stands directly before another character than a line feed. -/
def IsPaired (t : Text) : Prop :=
  t.IsChain fun a b => a = '\r' → b = '\n'

/-! ### Leaving out the carriage returns -/

@[simp]
theorem dropReturns_nil :
  dropReturns [] = []
  := rfl

@[simp]
theorem dropReturns_return (t : Text) :
  dropReturns ('\r' :: t) = dropReturns t
  := rfl

theorem dropReturns_cons {c : Char} (hc : c ≠ '\r') (t : Text) :
  dropReturns (c :: t) = c :: dropReturns t
  := List.filter_cons_of_pos (by simpa using hc)

@[simp]
theorem dropReturns_append (s t : Text) :
  dropReturns (s ++ t) = dropReturns s ++ dropReturns t
  := List.filter_append ..

/-- A text without carriage returns stays as it is. -/
theorem dropReturns_eq_self {t : Text} (h : '\r' ∉ t) :
  dropReturns t = t
  := by
  rw [dropReturns, List.filter_eq_self]
  intro c hc
  simp only [ne_eq, decide_eq_true_eq]
  rintro rfl
  exact h hc

/-- No carriage return is left. -/
theorem return_not_mem_dropReturns (t : Text) :
  '\r' ∉ dropReturns t
  := by
  simp [dropReturns]

/-- All other characters are. -/
theorem mem_dropReturns {c : Char} (hc : c ≠ '\r') {t : Text} :
  c ∈ dropReturns t ↔ c ∈ t
  := by
  simp [dropReturns, hc]

/-- What is behind a position is behind the position of the same character in the other text. -/
theorem drop_dropReturns (t : Text) (n : Nat) :
  (dropReturns t).drop (dropReturns (t.take n)).length = dropReturns (t.drop n)
  := by
  conv_lhs => rw [← List.take_append_drop n t, dropReturns_append]
  rw [List.take_append_drop, List.drop_left]

/-- The last character stays, if it is no carriage return. -/
theorem getLast?_dropReturns {t : Text} (h : t.getLast? ≠ some '\r') :
  (dropReturns t).getLast? = t.getLast?
  := by
  rcases List.eq_nil_or_concat' t with rfl | ⟨s, c, rfl⟩
  · rfl
  · have hc : c ≠ '\r' := by
      rintro rfl
      exact h List.getLast?_concat
    rw [dropReturns_append, dropReturns_cons hc, dropReturns_nil, List.getLast?_concat,
      List.getLast?_concat]

/-- A class without the carriage return has characters in both texts or in neither. -/
theorem any_dropReturns {q : Char → Bool} (hq : q '\r' = false) (t : Text) :
  (dropReturns t).any q = t.any q
  := by
  rw [dropReturns, List.any_filter]
  congr 1
  funext c
  by_cases hc : c = '\r'
  · simp [hc, hq]
  · simp [hc]

/-- A run that does not go on over carriage returns holds none. -/
theorem dropReturns_takeWhile {q : Char → Bool} (hq : q '\r' = false) (t : Text) :
  dropReturns (t.takeWhile q) = t.takeWhile q
  := by
  apply dropReturns_eq_self
  intro hmem
  rw [List.mem_takeWhile_imp hmem] at hq
  cases hq

section Runs

variable {q : Char → Bool} (hq : q '\r' = true) (t : Text)
include hq

/-- A run that goes on over carriage returns. -/
theorem takeWhile_dropReturns :
  (dropReturns t).takeWhile q = dropReturns (t.takeWhile q)
  := by
  induction t with
  | nil => rfl
  | cons c cs ih =>
    by_cases hc : c = '\r'
    · rw [hc, dropReturns_return, List.takeWhile_cons_of_pos hq, dropReturns_return, ih]
    · rw [dropReturns_cons hc]
      by_cases hqc : q c = true
      · rw [List.takeWhile_cons_of_pos hqc, List.takeWhile_cons_of_pos hqc, dropReturns_cons hc, ih]
      · rw [List.takeWhile_cons_of_neg hqc, List.takeWhile_cons_of_neg hqc]
        rfl

/-- What follows a run that goes on over carriage returns. -/
theorem dropWhile_dropReturns :
  (dropReturns t).dropWhile q = dropReturns (t.dropWhile q)
  := by
  have hcat := List.takeWhile_append_dropWhile (p := q) (l := dropReturns t)
  conv_rhs at hcat =>
    rw [← List.takeWhile_append_dropWhile (p := q) (l := t), dropReturns_append]
  rw [takeWhile_dropReturns hq] at hcat
  exact List.append_cancel_left hcat

end Runs

theorem trimLeft_dropReturns (t : Text) :
  trimLeft (dropReturns t) = dropReturns (trimLeft t)
  := dropWhile_dropReturns (by decide) t

theorem trimRight_dropReturns (t : Text) :
  trimRight (dropReturns t) = dropReturns (trimRight t)
  := by
  have hreverse : ∀ s : Text, (dropReturns s).reverse = dropReturns s.reverse := by
    intro s
    rw [dropReturns, dropReturns, List.filter_reverse]
  rw [trimRight, trimRight, hreverse, dropWhile_dropReturns (by decide), hreverse]

/-- Trimming takes carriage returns with the other blank characters. -/
theorem trim_dropReturns (t : Text) :
  trim (dropReturns t) = dropReturns (trim t)
  := by
  rw [trim, trim, trimLeft_dropReturns, trimRight_dropReturns]

/-! ### Carriage returns before line feeds -/

/-- Whether the carriage returns are paired is seen at the first character and in the rest. -/
theorem isPaired_cons {c : Char} {t : Text} :
  IsPaired (c :: t) ↔ (c = '\r' → ∀ d ∈ t.head?, d = '\n') ∧ IsPaired t
  := by
  cases t with
  | nil => simp [IsPaired]
  | cons d ds => simp [IsPaired]

namespace IsPaired

variable {t : Text} (h : IsPaired t)
include h

/-- So are those of a text within the text. -/
theorem of_isInfix {s : Text} (hs : s <:+: t) :
  IsPaired s
  := List.IsChain.infix h hs

theorem drop (n : Nat) :
  IsPaired (t.drop n)
  := h.of_isInfix (List.drop_suffix n t).isInfix

/-- The first character without the carriage returns is the first of the text, or the line feed
after a carriage return. -/
theorem cases_of_dropReturns_eq_cons {c : Char} {x : Text} (hx : dropReturns t = c :: x) :
  ∃ y, dropReturns y = x ∧ (t = c :: y ∨ c = '\n' ∧ t = '\r' :: '\n' :: y)
  := by
  cases t with
  | nil => cases hx
  | cons d ds =>
    by_cases hd : d = '\r'
    · subst hd
      cases ds with
      | nil => cases hx
      | cons e es =>
        obtain rfl := (isPaired_cons.mp h).1 rfl e rfl
        rw [dropReturns_return, dropReturns_cons (by decide)] at hx
        obtain ⟨rfl, rfl⟩ := List.cons.inj hx
        exact ⟨es, rfl, .inr ⟨rfl, rfl⟩⟩
    · rw [dropReturns_cons hd] at hx
      obtain ⟨rfl, rfl⟩ := List.cons.inj hx
      exact ⟨ds, rfl, .inl rfl⟩

/-- A first character that is no line feed is the first with the carriage returns, too. -/
theorem of_dropReturns_eq_cons {c : Char} {x : Text} (hc : c ≠ '\n')
    (hx : dropReturns t = c :: x) :
  ∃ y, t = c :: y ∧ dropReturns y = x
  := by
  obtain ⟨y, hy, ht | ⟨hn, -⟩⟩ := h.cases_of_dropReturns_eq_cons hx
  · exact ⟨y, ht, hy⟩
  · exact absurd hn hc

/-- A first character that ends no line is the same in both texts. -/
theorem head?_dropReturns_iff {c : Char} (hc : c ≠ '\r' ∧ c ≠ '\n') :
  (dropReturns t).head? = some c ↔ t.head? = some c
  := by
  constructor
  · intro hhead
    obtain ⟨x, hx⟩ := List.head?_eq_some_iff.mp hhead
    obtain ⟨y, rfl, -⟩ := h.of_dropReturns_eq_cons hc.2 hx
    rfl
  · intro hhead
    obtain ⟨y, rfl⟩ := List.head?_eq_some_iff.mp hhead
    rw [dropReturns_cons hc.1]
    rfl

section Runs

variable {q : Char → Bool} (hr : q '\r' = false) (hn : q '\n' = false)
include hr hn

/-- A run that stops at the ends of lines. -/
theorem takeWhile_dropReturns :
  (dropReturns t).takeWhile q = t.takeWhile q
  := by
  induction t with
  | nil => rfl
  | cons c cs ih =>
    obtain ⟨hpair, hcs⟩ := isPaired_cons.mp h
    by_cases hc : c = '\r'
    · rw [hc, dropReturns_return, List.takeWhile_cons_of_neg (by simp [hr])]
      cases cs with
      | nil => rfl
      | cons d ds =>
        obtain rfl := hpair hc d rfl
        rw [dropReturns_cons (by decide), List.takeWhile_cons_of_neg (by simp [hn])]
    · rw [dropReturns_cons hc]
      by_cases hqc : q c = true
      · rw [List.takeWhile_cons_of_pos hqc, List.takeWhile_cons_of_pos hqc, ih hcs]
      · rw [List.takeWhile_cons_of_neg hqc, List.takeWhile_cons_of_neg hqc]

/-- A class without line ends holds of the first character in both texts or in neither. -/
theorem any_head?_dropReturns :
  (dropReturns t).head?.any q = t.head?.any q
  := by
  cases t with
  | nil => rfl
  | cons c cs =>
    by_cases hc : c = '\r'
    · rw [hc, dropReturns_return]
      cases cs with
      | nil => simp [hr]
      | cons d ds =>
        obtain rfl := (isPaired_cons.mp h).1 hc d rfl
        simp [dropReturns_cons (c := '\n') (by decide), hr, hn]
    · rw [dropReturns_cons hc]
      rfl

end Runs

end IsPaired

theorem isMixed_nil :
  IsMixed []
  := by
  intro u v h
  simp at h

/-- Whether line ends are mixed is seen at the first character and in the rest. -/
theorem isMixed_cons {c : Char} {t : Text} :
  IsMixed (c :: t) ↔ (c = '\r' → t.head? = some '\n') ∧ IsMixed t
  := by
  constructor
  · intro h
    constructor
    · rintro rfl
      exact h [] t rfl
    · rintro u v rfl
      exact h (c :: u) v rfl
  · rintro ⟨hc, ht⟩ u v heq
    cases u with
    | nil =>
      obtain ⟨rfl, rfl⟩ := List.cons.inj heq
      exact hc rfl
    | cons d u =>
      obtain ⟨rfl, rfl⟩ := List.cons.inj heq
      exact ht u v rfl

/-- Mixed line ends: carriage returns stand before line feeds, and not at the end. -/
theorem isMixed_iff {t : Text} :
  IsMixed t ↔ IsPaired t ∧ t.getLast? ≠ some '\r'
  := by
  induction t with
  | nil => simp [isMixed_nil, IsPaired]
  | cons c cs ih =>
    rw [isMixed_cons, isPaired_cons, ih]
    cases cs with
    | nil => simp [IsPaired]
    | cons d ds => simp [and_assoc]

/-- What stands before another character than a line feed. -/
theorem IsPaired.isMixed_of_append_cons {s t : Text} {c : Char} (h : IsPaired (s ++ c :: t))
    (hc : c ≠ '\n') :
  IsMixed s
  := by
  apply isMixed_iff.mpr
  constructor
  · exact h.of_isInfix (List.prefix_append _ _).isInfix
  · intro hlast
    apply hc
    exact (List.isChain_append.mp h).2.2 _ hlast c rfl rfl

namespace IsMixed

variable {s t : Text}

/-- Mixed line ends are paired. -/
theorem isPaired (h : IsMixed t) :
  IsPaired t
  := (isMixed_iff.mp h).1

/-- Line ends without any carriage return count as mixed. -/
theorem of_not_mem (h : '\r' ∉ t) :
  IsMixed t
  := by
  rintro u v rfl
  simp at h

/-- Texts with mixed line ends one after the other have mixed line ends. -/
theorem append (hs : IsMixed s) (ht : IsMixed t) :
  IsMixed (s ++ t)
  := by
  induction s with
  | nil => exact ht
  | cons c cs ih =>
    rw [isMixed_cons] at hs
    rw [List.cons_append, isMixed_cons]
    refine ⟨fun hc => ?_, ih hs.2⟩
    rw [List.head?_append, hs.1 hc]
    rfl

theorem flatMap {ι : Type} {ks : List ι} {f : ι → Text} (h : ∀ k ∈ ks, IsMixed (f k)) :
  IsMixed (ks.flatMap f)
  := by
  induction ks with
  | nil => exact isMixed_nil
  | cons k ks ih =>
    obtain ⟨hk, hks⟩ := List.forall_mem_cons.mp h
    exact hk.append (ih hks)

/-- The end of a text with mixed line ends has mixed line ends. -/
theorem of_append_right (h : IsMixed (s ++ t)) :
  IsMixed t
  := by
  rintro u v rfl
  exact h (s ++ u) v (by rw [List.append_assoc])

/-- Whether a text goes on with a line feed is all that matters of what follows it. -/
theorem append_congr {t' : Text} (h : IsMixed (s ++ t)) (ht' : IsMixed t')
    (hhead : t.head? = some '\n' → t'.head? = some '\n') :
  IsMixed (s ++ t')
  := by
  induction s with
  | nil => exact ht'
  | cons c cs ih =>
    rw [List.cons_append, isMixed_cons] at h ⊢
    refine ⟨fun hc => ?_, ih h.2⟩
    have hnext := h.1 hc
    cases cs with
    | nil => exact hhead hnext
    | cons d ds => exact hnext

/-- So has its front, if it does not end with a carriage return. -/
theorem of_append_left (h : IsMixed (s ++ t)) (hs : s.getLast? ≠ some '\r') :
  IsMixed s
  := isMixed_iff.mpr ⟨h.isPaired.of_isInfix (List.prefix_append s t).isInfix, hs⟩

/-- A text with mixed line ends is not made of carriage returns only. -/
theorem dropReturns_ne_nil (h : IsMixed t) (hne : t ≠ []) :
  dropReturns t ≠ []
  := by
  intro hnil
  have hlast := getLast?_dropReturns (isMixed_iff.mp h).2
  rw [hnil] at hlast
  exact hne (List.getLast?_eq_none_iff.mp hlast.symm)

/-- After a carriage return the line ends. -/
theorem newline_mem (h : IsMixed t) (hcr : '\r' ∈ t) :
  '\n' ∈ t
  := by
  obtain ⟨u, v, rfl⟩ := List.append_of_mem hcr
  obtain ⟨w, rfl⟩ := List.head?_eq_some_iff.mp (h u v rfl)
  simp

end IsMixed

/-- A trimmed text does not end with a carriage return. -/
theorem isMixed_trim {t : Text} (h : IsPaired t) :
  IsMixed (trim t)
  := by
  apply isMixed_iff.mpr
  constructor
  · exact h.of_isInfix (trim_isInfix t)
  · intro hlast
    have hblank := isBlank_of_getLast?_trim hlast
    revert hblank
    decide

end LineEnds

end DollarMath
