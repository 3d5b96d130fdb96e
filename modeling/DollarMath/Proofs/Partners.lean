import DollarMath.Paren
import Mathlib.Data.List.Sort
import Mathlib.Order.Bounds.Basic

/-!
# Partners

The closing parenthesis that belongs to an opening one can be told by counting: it is the first
one behind it up to which as many parentheses close as open.  The pairs of a text are found in
one pass from the right instead, which keeps the closing parentheses that no opening one has
taken yet: the first of them is the first one up to which one more closes than opens, the second
one the first with two more, and so on.
-/

namespace DollarMath

namespace Paren

/-! ### First positions -/

/-- The first position of a kind, if there is one. -/
def IsFirst (P : Nat → Prop) : Option Nat → Prop
  | some j => IsLeast {k | P k} j
  | none => ∀ k, ¬ P k

/-- The first place with a property is that with an equivalent one. -/
theorem isFirst_congr {P Q : Nat → Prop} {o : Option Nat} (h : ∀ k, P k ↔ Q k) :
  IsFirst P o ↔ IsFirst Q o
  := by
  have hPQ : P = Q := funext fun k => propext (h k)
  rw [hPQ]

/-- There is one first place. -/
theorem IsFirst.eq {P : Nat → Prop} {o o' : Option Nat} (h : IsFirst P o) (h' : IsFirst P o') :
  o = o'
  := by
  cases o with
  | none =>
    cases o' with
    | none => rfl
    | some j => exact absurd h'.1 (h j)
  | some j =>
    cases o' with
    | none => exact absurd h.1 (h' j)
    | some j' => rw [h.unique h']

/-! ### Parentheses that close -/

/-- The parenthesis at the position `j` closes the one at `i`: from `i` through `j`, which stands
behind it, as many parentheses close as open. -/
structure Closes (t : Text) (i j : Nat) : Prop where
  /-- The position stands behind. -/
  lt : i < j
  /-- A parenthesis closes there. -/
  closing : t[j]? = some ')'
  /-- As many parentheses close as open. -/
  count : (t.extract i (j + 1)).count ')' = (t.extract i (j + 1)).count '('

/-- From the position `i` through `j`, where a parenthesis closes, `n` more of them close than
open. -/
structure Exceeds (t : Text) (n i j : Nat) : Prop where
  /-- The position does not stand before. -/
  le : i ≤ j
  /-- A parenthesis closes there. -/
  closing : t[j]? = some ')'
  /-- More parentheses close than open. -/
  count : (t.extract i (j + 1)).count ')' = (t.extract i (j + 1)).count '(' + n

variable {t : Text} {c : Char} {m n i j : Nat}

/-- An extract is its first character and the rest. -/
theorem extract_eq_append (hi : t[i]? = some c) (hij : i ≤ j) :
  t.extract i (j + 1) = [c] ++ t.extract (i + 1) (j + 1)
  := by
  obtain ⟨hlt, rfl⟩ := List.getElem?_eq_some_iff.mp hi
  have hlength : j + 1 - i = (j - i) + 1 := by omega
  have hlength' : j + 1 - (i + 1) = j - i := by omega
  rw [List.extract_eq_take_drop, List.extract_eq_take_drop, List.drop_eq_getElem_cons hlt,
    hlength, hlength', List.take_succ_cons]
  rfl

/-- The parenthesis that closes an opening one is one too many behind it. -/
theorem closes_iff (hi : t[i]? = some '(') :
  Closes t i j ↔ Exceeds t 1 (i + 1) j
  := by
  constructor
  · rintro ⟨hlt, hclosing, hcount⟩
    rw [extract_eq_append hi (Nat.le_of_lt hlt), List.count_append, List.count_append] at hcount
    refine ⟨hlt, hclosing, ?_⟩
    change 0 + _ = 1 + _ at hcount
    omega
  · rintro ⟨hle, hclosing, hcount⟩
    refine ⟨hle, hclosing, ?_⟩
    rw [extract_eq_append hi (Nat.le_of_lt hle), List.count_append, List.count_append]
    change 0 + _ = 1 + _
    omega

/-- From the next position on, a parenthesis that opens here is missing, and so is one that closes
here. -/
theorem exceeds_iff
    (hi : t[i]? = some c) (hn : n + [c].count '(' = m + [c].count ')') :
  Exceeds t n i j ↔ (j = i ∧ c = ')' ∧ n = 1) ∨ Exceeds t m (i + 1) j
  := by
  constructor
  · rintro ⟨hle, hclosing, hcount⟩
    rw [extract_eq_append hi hle, List.count_append, List.count_append] at hcount
    rcases Nat.eq_or_lt_of_le hle with rfl | hlt
    · left
      obtain rfl : c = ')' := Option.some.inj (hi.symm.trans hclosing)
      have hnil : t.extract (i + 1) (i + 1) = [] := by simp
      rw [hnil] at hcount
      refine ⟨rfl, rfl, ?_⟩
      change 1 = 0 + n at hcount
      omega
    · right
      exact ⟨hlt, hclosing, by omega⟩
  · rintro (⟨rfl, rfl, rfl⟩ | ⟨hle, hclosing, hcount⟩)
    · refine ⟨Nat.le_refl _, hi, ?_⟩
      have hnil : t.extract (j + 1) (j + 1) = [] := by simp
      rw [extract_eq_append hi (Nat.le_refl _), hnil]
      rfl
    · refine ⟨by omega, hclosing, ?_⟩
      rw [extract_eq_append hi (by omega), List.count_append, List.count_append]
      omega

/-! ### Pairs -/

/-- Two pairs, of which the second one opens later, do not cross: it opens behind the end of the
first one, or closes within it. -/
def Pair.Nests (p q : Pair) : Prop :=
  ∀ j ∈ p.stop, ∀ k ∈ q.stop, j < q.start ∨ k < j

/-- The opening parentheses of a text, from left to right, each with the first closing one that
closes it. -/
structure IsPairing (t : Text) (ps : List Pair) : Prop where
  /-- The pairs start at the opening parentheses. -/
  starts : ∀ i, (∃ p ∈ ps, p.start = i) ↔ t[i]? = some '('
  /-- They stand from left to right. -/
  ordered : ps.Pairwise fun p q => p.start < q.start
  /-- They stop at the first parenthesis that closes them, if there is one. -/
  stops : ∀ p ∈ ps, IsFirst (Closes t p.start) p.stop

/-- The pairs that start in a text from the position `i` on, and the closing parentheses that are
left over there. -/
structure Paired (t : Text) (i : Nat) (ps : List Pair) (pending : List Nat) : Prop where
  /-- The pairs start at the opening parentheses. -/
  starts : ∀ j, (∃ p ∈ ps, p.start = j) ↔ i ≤ j ∧ t[j]? = some '('
  /-- They stand from left to right. -/
  ordered : ps.Pairwise fun p q => p.start < q.start
  /-- They stop at the first parenthesis that closes them, if there is one. -/
  stops : ∀ p ∈ ps, IsFirst (Closes t p.start) p.stop
  /-- The parentheses left over are the first ones up to which one more closes than opens, two
  more, and so on. -/
  exceeding : ∀ n, IsFirst (Exceeds t (n + 1) i) pending[n]?
  /-- They stand from left to right. -/
  sorted : pending.Pairwise (· < ·)
  /-- The pairs do not cross. -/
  nested : ps.Pairwise Pair.Nests
  /-- No pair holds a parenthesis that is left over. -/
  apart : ∀ p ∈ ps, ∀ j ∈ pending, j < p.start ∨ ∀ k ∈ p.stop, k < j

namespace Paired

variable {ps : List Pair} {pending : List Nat}

/-- All pairs of the rest start behind. -/
theorem lt_start (h : Paired t (i + 1) ps pending) {p : Pair} (hp : p ∈ ps) :
  i < p.start
  := ((h.starts p.start).mp ⟨p, hp, rfl⟩).1

/-- A parenthesis that is left over stands behind the position. -/
theorem lt_pending (h : Paired t (i + 1) ps pending) {j : Nat} (hj : j ∈ pending) :
  i < j
  := by
  obtain ⟨n, hn⟩ := List.mem_iff_getElem?.mp hj
  have hfirst := h.exceeding n
  rw [hn] at hfirst
  exact hfirst.1.le

/-- Without a parenthesis that opens at the position, the pairs start behind it. -/
theorem starts_of_ne (hi : t[i]? ≠ some '(') (h : Paired t (i + 1) ps pending) (j : Nat) :
  (∃ p ∈ ps, p.start = j) ↔ i ≤ j ∧ t[j]? = some '('
  := by
  rw [h.starts j]
  apply and_congr_left
  intro hj
  rcases eq_or_ne i j with rfl | hne
  · exact absurd hj hi
  · omega

/-- The end of the text. -/
theorem nil (hi : t.length ≤ i) :
  Paired t i [] []
  := by
  constructor
  · intro j
    simp only [List.not_mem_nil, false_and, exists_false, false_iff, not_and]
    intro hj
    rw [List.getElem?_eq_none (by omega)]
    simp
  · exact List.Pairwise.nil
  · simp
  · rintro n j ⟨hj, hclosing, -⟩
    rw [List.getElem?_eq_none (by omega)] at hclosing
    cases hclosing
  · exact List.Pairwise.nil
  · exact List.Pairwise.nil
  · simp

/-- One more opening parenthesis takes the first closing one that is left over. -/
theorem opening (hi : t[i]? = some '(') (h : Paired t (i + 1) ps pending) :
  Paired t i (⟨i, pending.head?⟩ :: ps) pending.tail
  := by
  have hexceeds : ∀ n j, Exceeds t (n + 1) i j ↔ Exceeds t (n + 2) (i + 1) j := by
    intro n j
    rw [exceeds_iff (m := n + 2) hi rfl]
    simp
  constructor
  · intro j
    rw [List.exists_mem_cons_iff, h.starts j]
    constructor
    · rintro (rfl | ⟨hj, hopen⟩)
      · exact ⟨Nat.le_refl _, hi⟩
      · exact ⟨by omega, hopen⟩
    · rintro ⟨hj, hopen⟩
      rcases Nat.eq_or_lt_of_le hj with heq | hlt
      · left
        exact heq
      · right
        exact ⟨hlt, hopen⟩
  · rw [List.pairwise_cons]
    exact ⟨fun p hp => h.lt_start hp, h.ordered⟩
  · rw [List.forall_mem_cons]
    refine ⟨?_, h.stops⟩
    rw [isFirst_congr fun k => closes_iff hi, List.head?_eq_getElem?]
    exact h.exceeding 0
  · intro n
    rw [isFirst_congr (hexceeds n), List.getElem?_tail]
    exact h.exceeding (n + 1)
  · exact h.sorted.tail
  · rw [List.pairwise_cons]
    refine ⟨?_, h.nested⟩
    intro q hq j hj k hk
    rcases h.apart q hq j (List.mem_of_mem_head? hj) with hbehind | hwithin
    · left
      exact hbehind
    · right
      exact hwithin k hk
  · rw [List.forall_mem_cons]
    constructor
    · intro j hj
      right
      intro k hk
      obtain ⟨rest, rfl⟩ := List.head?_eq_some_iff.mp hk
      exact (List.pairwise_cons.mp h.sorted).1 j hj
    · exact fun p hp j hj => h.apart p hp j (List.mem_of_mem_tail hj)

/-- One more closing parenthesis is left over. -/
theorem closing (hi : t[i]? = some ')') (h : Paired t (i + 1) ps pending) :
  Paired t i ps (i :: pending)
  := by
  constructor
  · apply h.starts_of_ne
    rw [hi]
    decide
  · exact h.ordered
  · exact h.stops
  · intro n
    cases n with
    | zero =>
      refine ⟨⟨Nat.le_refl i, hi, ?_⟩, fun k hk => hk.le⟩
      rw [extract_eq_append hi (Nat.le_refl i)]
      simp
    | succ n =>
      have hexceeds : ∀ j, Exceeds t (n + 2) i j ↔ Exceeds t (n + 1) (i + 1) j := by
        intro j
        rw [exceeds_iff (m := n + 1) hi rfl]
        simp
      rw [isFirst_congr hexceeds, List.getElem?_cons_succ]
      exact h.exceeding n
  · rw [List.pairwise_cons]
    exact ⟨fun j hj => h.lt_pending hj, h.sorted⟩
  · exact h.nested
  · intro p hp
    rw [List.forall_mem_cons]
    constructor
    · left
      exact h.lt_start hp
    · exact h.apart p hp

/-- Other characters are passed over. -/
theorem other (hi : t[i]? = some c) (hopen : c ≠ '(') (hclose : c ≠ ')')
    (h : Paired t (i + 1) ps pending) :
  Paired t i ps pending
  := by
  have hexceeds : ∀ n j, Exceeds t n i j ↔ Exceeds t n (i + 1) j := by
    intro n j
    rw [exceeds_iff (m := n) hi (by simp [hopen, hclose])]
    simp [hclose]
  constructor
  · apply h.starts_of_ne
    rw [hi]
    simpa using hopen
  · exact h.ordered
  · exact h.stops
  · intro n
    rw [isFirst_congr (hexceeds (n + 1))]
    exact h.exceeding n
  · exact h.sorted
  · exact h.nested
  · exact h.apart

end Paired

/-- What the pass from the right has found from a position on. -/
theorem paired_pairsFrom {u v : Text} (ht : t = u ++ v) :
  Paired t u.length (pairsFrom u.length v).1 (pairsFrom u.length v).2
  := by
  induction v generalizing u with
  | nil =>
    apply Paired.nil
    simp [ht]
  | cons c cs ih =>
    have hi : t[u.length]? = some c := by simp [ht]
    have h := ih (u := u ++ [c]) (by simp [ht])
    rw [List.length_append, List.length_singleton] at h
    rw [pairsFrom]
    generalize pairsFrom (u.length + 1) cs = found at h ⊢
    dsimp only
    split
    · next hc =>
      rw [hc] at hi
      exact h.opening hi
    · next hopen =>
      split
      · next hc =>
        rw [hc] at hi
        exact h.closing hi
      · next hclose => exact h.other hi hopen hclose

/-- The pairs that are found keep the invariant. -/
theorem paired_pairs (t : Text) :
  Paired t 0 (pairs t) (pairsFrom 0 t).2
  := paired_pairsFrom (u := []) rfl

/-- They are the pairing of the text. -/
theorem isPairing_pairs (t : Text) :
  IsPairing t (pairs t)
  := by
  have h := paired_pairs t
  constructor
  · simpa using h.starts
  · exact h.ordered
  · exact h.stops

namespace IsPairing

variable {ps qs : List Pair}

/-- Two pairings have the same pairs. -/
theorem mem_of_mem (h : IsPairing t ps) (h' : IsPairing t qs) {p : Pair} (hp : p ∈ ps) :
  p ∈ qs
  := by
  obtain ⟨q, hq, hstart⟩ := (h'.starts p.start).mpr ((h.starts p.start).mp ⟨p, hp, rfl⟩)
  have hstop : q.stop = p.stop := by
    apply (h'.stops q hq).eq
    rw [hstart]
    exact h.stops p hp
  have hpq : q = p := by
    cases p
    cases q
    simp_all
  rw [← hpq]
  exact hq

/-- A text has one pairing. -/
theorem eq (h : IsPairing t ps) (h' : IsPairing t qs) :
  ps = qs
  := by
  have : Std.Irrefl fun p q : Pair => p.start < q.start := ⟨fun p => Nat.lt_irrefl p.start⟩
  apply h.ordered.eq_of_mem_iff h'.ordered
  exact fun {p} => ⟨h.mem_of_mem h', h'.mem_of_mem h⟩

/-- No two pairs stop at one parenthesis. -/
theorem nodup_stops (h : IsPairing t ps) (hnests : ps.Pairwise Pair.Nests) :
  (ps.filterMap Pair.stop).Nodup
  := by
  have hmem : ps.Pairwise fun p q => q ∈ ps ∧ p.Nests q :=
    hnests.imp_of_mem fun _ hq hpq => ⟨hq, hpq⟩
  apply List.Pairwise.filterMap _ _ hmem
  rintro p q ⟨hq, hpq⟩ j hj k hk rfl
  have hfirst := h.stops q hq
  rw [Option.mem_def.mp hk] at hfirst
  rcases hpq j hj j hk with hlt | hlt
  · have := hfirst.1.lt
    omega
  · omega

end IsPairing

/-- Among pairs from left to right, the partner of an opening parenthesis is where its pair
stops. -/
theorem partner_of_mem
    {ps : List Pair} (h : ps.Pairwise fun p q => p.start < q.start) {p : Pair} (hp : p ∈ ps) :
  partner ps p.start = p.stop
  := by
  induction ps with
  | nil => cases hp
  | cons q ps ih =>
    obtain ⟨hlt, hps⟩ := List.pairwise_cons.mp h
    rw [partner]
    rcases List.mem_cons.mp hp with rfl | hp
    · rw [List.find?_cons_of_pos (by simp)]
      rfl
    · have hne := Nat.ne_of_lt (hlt p hp)
      rw [List.find?_cons_of_neg (by simpa using hne)]
      exact ih hps hp

/-- The partner of an opening parenthesis, by counting. -/
theorem isFirst_partner (hi : t[i]? = some '(') :
  IsFirst (Closes t i) (partner (pairs t) i)
  := by
  have h := isPairing_pairs t
  obtain ⟨p, hp, rfl⟩ := (h.starts i).mpr hi
  rw [partner_of_mem h.ordered hp]
  exact h.stops p hp

/-- The partner of a position closes the parenthesis that opens there. -/
theorem closes_of_partner (hj : partner (pairs t) i = some j) :
  Closes t i j
  := by
  obtain ⟨p, hfind, hstop⟩ := Option.bind_eq_some_iff.mp hj
  obtain rfl : p.start = i := by simpa using List.find?_some hfind
  have hfirst := (isPairing_pairs t).stops p (List.mem_of_find?_eq_some hfind)
  rw [hstop] at hfirst
  exact hfirst.1

/-- The pairs of a text are its opening parentheses, each with the first parenthesis that closes
it.  No two pairs stop at one parenthesis, and no two of them cross. -/
theorem isPairing_iff (t : Text) :
  (∀ ps, IsPairing t ps ↔ ps = pairs t)
    ∧ ((pairs t).filterMap Pair.stop).Nodup
    ∧ (pairs t).Pairwise Pair.Nests
  := by
  have h := isPairing_pairs t
  have hnests := (paired_pairs t).nested
  refine ⟨?_, h.nodup_stops hnests, hnests⟩
  intro ps
  constructor
  · exact fun hps => hps.eq h
  · rintro rfl
    exact h

/-- A closing parenthesis that is left over, and an opening one without a partner. -/
example : pairs [')', '(', '(', 'x', ')'] = [⟨1, none⟩, ⟨2, some 4⟩] := by decide

end Paren

end DollarMath
