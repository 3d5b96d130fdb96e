import DollarMath.Proofs.Partners
import DollarMath.Proofs.Replacement
import Mathlib.Data.List.TakeWhile

/-!
# Paired parentheses

The partner of an opening parenthesis is a closing one behind it.  So a formula read in plain
parentheses is a body between two parentheses, with primes after it.

The pairs are those of a pass from left to right, too, in which a closing parenthesis goes to the
last opening one that has none yet.
-/

namespace DollarMath

namespace Paren

/-! ### The pass from left to right -/

/-- The pair of an opening parenthesis, closed. -/
def close (ps : List Pair) (i j : Nat) : List Pair :=
  ps.map fun p => if p.start = i then ⟨i, some j⟩ else p

/-- The pairs of a text that goes on at position `j`, when `ps` are the pairs opened so far and
`stack` are the opening parentheses without a closing one, the last one first. -/
def pairsOnto (ps : List Pair) (stack : List Nat) (j : Nat) : Text → List Pair
  | [] => ps
  | c :: cs =>
    if c = '(' then pairsOnto (ps ++ [⟨j, none⟩]) (j :: stack) (j + 1) cs
    else if c = ')' then
      match stack with
      | [] => pairsOnto ps [] (j + 1) cs
      | i :: stack => pairsOnto (close ps i j) stack (j + 1) cs
    else pairsOnto ps stack (j + 1) cs

/-- The pairs of some opening parentheses, each closed by the closing one of the same rank. -/
def closeAll (ps : List Pair) : List Nat → List Nat → List Pair
  | i :: stack, j :: pending => closeAll (close ps i j) stack pending
  | _, _ => ps

/-- A bracket closes a pair on the left or on the right. -/
theorem close_append (ps qs : List Pair) (i j : Nat) :
  close (ps ++ qs) i j = close ps i j ++ close qs i j
  := List.map_append

/-- It closes no pair with another start. -/
theorem close_of_forall_ne {ps : List Pair} {i : Nat} (h : ∀ p ∈ ps, p.start ≠ i) (j : Nat) :
  close ps i j = ps
  := by
  apply (List.map_congr_left ?_).trans (List.map_id ps)
  intro p hp
  exact if_neg (h p hp)

/-- The starts stay when a pair is closed. -/
theorem map_start_close (ps : List Pair) (i j : Nat) :
  (close ps i j).map Pair.start = ps.map Pair.start
  := by
  rw [close, List.map_map]
  apply List.map_congr_left
  intro p _
  rw [Function.comp_apply]
  split
  · next h => exact h.symm
  · rfl

theorem closeAll_nil (ps : List Pair) (stack : List Nat) :
  closeAll ps stack [] = ps
  := by
  cases stack <;> rfl

/-- Pairs that are not open are left alone. -/
theorem closeAll_append {qs : List Pair} {stack : List Nat}
    (h : ∀ q ∈ qs, q.start ∉ stack) (ps : List Pair) (pending : List Nat) :
  closeAll (ps ++ qs) stack pending = closeAll ps stack pending ++ qs
  := by
  induction stack generalizing ps pending with
  | nil => rfl
  | cons i stack ih =>
    cases pending with
    | nil => rfl
    | cons j pending =>
      have hne : ∀ q ∈ qs, q.start ≠ i := fun q hq heq => h q hq (heq ▸ List.mem_cons_self)
      rw [closeAll, closeAll, close_append, close_of_forall_ne hne]
      apply ih
      exact fun q hq hmem => h q hq (List.mem_cons_of_mem i hmem)

/-- The pass from left to right gives the pairs behind it, and closes the ones before it with
the closing parentheses that these leave over. -/
theorem pairsOnto_eq {ps : List Pair} {stack : List Nat} {j : Nat} (t : Text)
    (hps : ∀ p ∈ ps, p.start < j) (hstack : ∀ i ∈ stack, i < j) :
  pairsOnto ps stack j t = closeAll ps stack (pairsFrom j t).2 ++ (pairsFrom j t).1
  := by
  induction t generalizing ps stack j with
  | nil => rw [pairsOnto, pairsFrom, closeAll_nil, List.append_nil]
  | cons c cs ih =>
    have hps' : ∀ p ∈ ps, p.start < j + 1 := fun p hp => Nat.lt_succ_of_lt (hps p hp)
    have hstack' : ∀ i ∈ stack, i < j + 1 := fun i hi => Nat.lt_succ_of_lt (hstack i hi)
    rw [pairsOnto.eq_def, pairsFrom]
    dsimp only
    by_cases hopen : c = '('
    · have hnew : ∀ p ∈ ps ++ [⟨j, none⟩], p.start < j + 1 := by
        simpa [or_imp, forall_and] using hps'
      have hpush : ∀ i ∈ j :: stack, i < j + 1 := by
        simpa using hstack'
      have hfresh : ∀ o : Option Nat, ∀ q ∈ [(⟨j, o⟩ : Pair)], q.start ∉ stack := by
        simpa using fun hj => Nat.lt_irrefl j (hstack j hj)
      rw [if_pos hopen, if_pos hopen, ih hnew hpush]
      cases hpending : (pairsFrom (j + 1) cs).2 with
      | nil =>
        rw [closeAll_nil, List.tail_nil, closeAll_nil, List.head?_nil]
        simp
      | cons k pending =>
        have hne : ∀ p ∈ ps, p.start ≠ j := fun p hp => Nat.ne_of_lt (hps p hp)
        have hclose : close (ps ++ [⟨j, none⟩]) j k = ps ++ [⟨j, some k⟩] := by
          rw [close_append, close_of_forall_ne hne]
          simp [close]
        rw [closeAll, hclose, closeAll_append (hfresh (some k)), List.tail_cons, List.head?_cons]
        simp
    · rw [if_neg hopen, if_neg hopen]
      by_cases hclose : c = ')'
      · rw [if_pos hclose, if_pos hclose]
        cases stack with
        | nil => exact ih hps' hstack'
        | cons i stack =>
          apply ih
          · intro p hp
            have hmem := List.mem_map_of_mem (f := Pair.start) hp
            rw [map_start_close] at hmem
            obtain ⟨q, hq, hstart⟩ := List.mem_map.mp hmem
            rw [← hstart]
            exact hps' q hq
          · exact fun i' hi' => hstack' i' (List.mem_cons_of_mem i hi')
      · rw [if_neg hclose, if_neg hclose]
        exact ih hps' hstack'

/-- The pairs of a text are those of the pass from left to right. -/
theorem pairsOnto_eq_pairs (t : Text) :
  pairsOnto [] [] 0 t = pairs t
  := by
  rw [pairsOnto_eq t (by simp) (by simp), closeAll]
  · rfl
  · simp

/-! ### Formulas -/

/-- The characters of a formula in plain parentheses, and the formula between dollars. -/
structure GroupForm (source formula : Text) (body primes : Text) : Prop where
  /-- The body stands between the parentheses, and the primes after them. -/
  source_eq : source = ['('] ++ (body ++ ([')'] ++ primes))
  /-- The formula is made of the body and the primes. -/
  formula_eq : formula = formulaOf body primes
  /-- The body is mathematics. -/
  isMath : isMath body = true
  /-- The primes are primes. -/
  primes : ∀ c ∈ primes, c = '\x27'

/-- The primes after a parenthesis hold no other character. -/
theorem GroupForm.not_mem_primes {source formula body primes : Text}
    (h : GroupForm source formula body primes) {c : Char} (hc : c ≠ '\x27') :
  c ∉ primes
  := fun hmem => hc (h.primes c hmem)

/-- A formula is the trimmed body between dollars, perhaps with parentheses and primes. -/
theorem GroupForm.exists_around {source formula body primes : Text}
    (h : GroupForm source formula body primes) :
  ∃ a b, formula = a ++ (trim body ++ b) ∧ a ≠ [] ∧ b ≠ [] ∧ (∀ c ∈ a, c ∈ ['$', '('])
    ∧ ∀ c ∈ b, c ∈ ['$', ')', '\x27']
  := by
  have hprimes : ∀ c ∈ primes, c ∈ ['$', ')', '\x27'] := by
    intro c hc
    rw [h.primes c hc]
    simp
  rw [h.formula_eq, formulaOf]
  split
  · refine ⟨['$', '('], [')'] ++ primes ++ ['$'], by simp, by simp, by simp, by simp, ?_⟩
    rw [List.forall_mem_append, List.forall_mem_append]
    exact ⟨⟨by simp, hprimes⟩, by simp⟩
  · refine ⟨['$'], primes ++ ['$'], by simp, by simp, by simp, by simp, ?_⟩
    rw [List.forall_mem_append]
    exact ⟨hprimes, by simp⟩

/-- A partner stands behind the text between the parentheses. -/
theorem exists_append_of_partner
    {u cs : Text} {stop : Nat} (h : partner (pairs (u ++ '(' :: cs)) u.length = some stop) :
  ∃ body after, cs = body ++ ')' :: after ∧ stop = u.length + body.length + 1
  := by
  obtain ⟨hlt, hclose, -⟩ := closes_of_partner h
  obtain ⟨n, rfl⟩ := Nat.exists_eq_add_of_lt hlt
  have hcs : cs[n]? = some ')' := by
    rw [List.getElem?_append_right (by omega)] at hclose
    have hsub : u.length + n + 1 - u.length = n + 1 := by omega
    simpa [hsub] using hclose
  obtain ⟨hlen, hget⟩ := List.getElem?_eq_some_iff.mp hcs
  refine ⟨cs.take n, cs.drop (n + 1), ?_, ?_⟩
  · rw [← hget, ← List.drop_eq_getElem_cons hlen, List.take_append_drop]
  · rw [List.length_take, Nat.min_eq_left (Nat.le_of_lt hlen)]

/-- What is read in plain parentheses after the text `u` stands at the front of the rest, its
body before the partner of the opening parenthesis. -/
theorem exists_append_of_readMath
    {u v w : Text} {k : Nat}
    (h : readMath (pairs (u ++ v)) (Place.start.after u) v = some (w, k)) :
  ∃ source rest body primes,
    v = source ++ rest ∧ k = source.length ∧ GroupForm source w body primes
      ∧ partner (pairs (u ++ v)) u.length = some (u.length + body.length + 1)
  := by
  rw [readMath.eq_def] at h
  split at h
  · next cs =>
    simp only [Option.bind_eq_bind, Option.bind_eq_some_iff, Option.ite_none_right_eq_some,
      Bool.and_eq_true] at h
    obtain ⟨stop, hstop, ⟨-, hmath⟩, heq⟩ := h
    obtain ⟨rfl, rfl⟩ := Prod.mk.inj (Option.some.inj heq)
    simp only [Place.after_offset, Place.start, Nat.zero_add] at *
    obtain ⟨body, after, rfl, rfl⟩ := exists_append_of_partner hstop
    have hn : u.length + body.length + 1 - u.length - 1 = body.length := by omega
    have hdrop : (body ++ ')' :: after).drop (body.length + 1) = after := by
      rw [← List.drop_drop, List.drop_left]
      rfl
    rw [hn, List.take_left] at hmath
    rw [hn, List.take_left, hdrop]
    have hafter := List.takeWhile_append_dropWhile (p := (· = '\x27')) (l := after)
    have hprimes : ∀ c ∈ after.takeWhile (· = '\x27'), c = '\x27' :=
      fun c hc => by simpa using List.mem_takeWhile_imp hc
    refine ⟨['('] ++ (body ++ ([')'] ++ after.takeWhile (· = '\x27'))),
      after.dropWhile (· = '\x27'), body, after.takeWhile (· = '\x27'), ?_, ?_,
      ⟨rfl, rfl, hmath, hprimes⟩, hstop⟩
    · conv_lhs => rw [← hafter]
      simp
    · simp only [List.length_append, List.length_cons, List.length_nil]
      omega
  · cases h

/-- What is read in plain parentheses after the text `u` is a body between them, with primes
after it. -/
theorem form_of_readMath
    {u v w : Text} {k : Nat}
    (h : readMath (pairs (u ++ v)) (Place.start.after u) v = some (w, k)) :
  ∃ body primes, GroupForm (v.take k) w body primes
  := by
  obtain ⟨source, rest, body, primes, rfl, rfl, hform, -⟩ := exists_append_of_readMath h
  use body, primes
  rw [List.take_left]
  exact hform

/-- A formula in plain parentheses stands free. -/
theorem neighbours_of_read
    {pairs : List Pair} {p : Place} {t w : Text} {k : Nat}
    (h : read pairs p t = some (.plain w, k)) :
  mayOpen p = true ∧ mayClose (t.drop k) = true
  := by
  rw [read] at h
  split at h
  · cases h
  · obtain ⟨r, hr, heq⟩ := Option.map_eq_some_iff.mp h
    obtain ⟨-, hk⟩ := Prod.mk.inj heq
    rw [readMath.eq_def] at hr
    split at hr
    · next cs _ =>
      simp only [Option.bind_eq_bind, Option.bind_eq_some_iff, Option.ite_none_right_eq_some,
        Bool.and_eq_true] at hr
      obtain ⟨stop, -, ⟨⟨hopen, hclose⟩, -⟩, heq⟩ := hr
      use hopen
      generalize stop - p.offset - 1 = n at hclose heq
      rw [List.drop_drop] at hclose
      rw [← hk, ← Option.some.inj heq]
      have hlength : n + 2 + ((cs.drop (n + 1)).takeWhile (· = '\x27')).length
          = n + 1 + ((cs.drop (n + 1)).takeWhile (· = '\x27')).length + 1 := by omega
      dsimp only
      rw [hlength, List.drop_succ_cons]
      exact hclose
    · cases hr

/-- A formula found in plain parentheses is a body between them, with primes after it. -/
theorem form_of_formula
    {t : Text} {m : Match Item} {w : Text}
    (h : m ∈ (read (pairs t)).findAll t) (hw : m.value.formula? = some w) :
  ∃ body primes, GroupForm m.source w body primes
  := by
  obtain ⟨u, k, ht, -, hread, htake⟩ := Reader.exists_of_mem_pieces h
  rw [read] at hread
  split at hread
  · obtain ⟨hvalue, -⟩ := Prod.mk.inj (Option.some.inj hread)
    rw [← hvalue] at hw
    cases hw
  · obtain ⟨r, hr, heq⟩ := Option.map_eq_some_iff.mp hread
    obtain ⟨hvalue, hk⟩ := Prod.mk.inj heq
    rw [← hvalue] at hw
    obtain rfl := Option.some.inj hw
    rw [ht] at hr
    rw [htake, ← hk]
    apply form_of_readMath hr

end Paren

end DollarMath
