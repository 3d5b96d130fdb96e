import DollarMath.Proofs.MixedReaders
import DollarMath.Proofs.Pairing

/-!
# Parentheses with mixed line ends

A carriage return is no parenthesis, so the parentheses of a text are paired in the same way
without its carriage returns, and the formulas in plain parentheses are the same.
-/

namespace DollarMath

open LineEnds

namespace Paren

/-! ### Pairs -/

/-- A pair as it stands in the text without carriage returns. -/
def Pair.dropReturns (t : Text) (p : Pair) : Pair :=
  ⟨position t p.start, p.stop.map (position t)⟩

/-- The pairs from a position on, and the closers that are left, are those of the text. -/
theorem pairsFrom_dropReturns {t u v : Text} (ht : t = u ++ v) :
  pairsFrom (dropReturns u).length (dropReturns v)
    = ((pairsFrom u.length v).1.map (Pair.dropReturns t),
      (pairsFrom u.length v).2.map (position t))
  := by
  induction v generalizing u with
  | nil => rfl
  | cons c cs ih =>
    have hstart : position t u.length = (dropReturns u).length := by rw [ht, position_append]
    have ih := ih (u := u ++ [c]) (by rw [ht, List.append_assoc]; rfl)
    rw [dropReturns_append, List.length_append, List.length_append] at ih
    by_cases hc : c = '\r'
    · subst hc
      exact ih
    · rw [dropReturns_cons hc] at ih ⊢
      change pairsFrom ((dropReturns u).length + 1) (dropReturns cs) = _ at ih
      rw [pairsFrom, pairsFrom, ih]
      dsimp only [List.length_singleton]
      generalize pairsFrom (u.length + 1) cs = found
      split
      · rw [List.map_cons, Pair.dropReturns, hstart, List.head?_map, List.map_tail]
      · split
        · rw [List.map_cons, hstart]
        · rfl

/-- The pairs of a text without its carriage returns are those of the text. -/
theorem pairs_dropReturns (t : Text) :
  pairs (dropReturns t) = (pairs t).map (Pair.dropReturns t)
  := congrArg Prod.fst (pairsFrom_dropReturns (t := t) (u := []) rfl)

/-- The partner of a parenthesis is its partner in the text. -/
theorem partner_dropReturns {t : Text} {i : Nat} (hi : t[i]? = some '(') :
  partner (pairs (dropReturns t)) (position t i) = (partner (pairs t) i).map (position t)
  := by
  have h := isPairing_pairs t
  obtain ⟨p, hp, rfl⟩ := (h.starts i).mpr hi
  have hp' : p.dropReturns t ∈ pairs (dropReturns t) := by
    rw [pairs_dropReturns]
    exact List.mem_map_of_mem hp
  have hpartner := partner_of_mem (isPairing_pairs (dropReturns t)).ordered hp'
  rw [partner_of_mem h.ordered hp]
  exact hpartner

/-! ### Formulas -/

/-- A formula may close in both texts or in neither. -/
theorem mayClose_dropReturns {t : Text} (ht : IsPaired t) :
  mayClose (dropReturns t) = mayClose t
  := by
  cases t with
  | nil => rfl
  | cons c cs =>
    by_cases hc : c = '\r'
    · subst hc
      cases cs with
      | nil => rfl
      | cons d ds =>
        obtain rfl := (isPaired_cons.mp ht).1 rfl d rfl
        rfl
    · rw [dropReturns_cons hc]
      rfl

/-- What is written for a formula loses the carriage returns of its body. -/
theorem formulaOf_dropReturns {body primes : Text} (hbody : IsPaired body)
    (hprimes : dropReturns primes = primes) :
  formulaOf (dropReturns body) primes = dropReturns (formulaOf body primes)
  := by
  have hinner := (isMixed_trim hbody).isPaired
  have hopen := hinner.head?_dropReturns_iff (c := '(') (by decide)
  rw [formulaOf, formulaOf, trim_dropReturns]
  simp only [hopen]
  split
  · simp [hprimes, dropReturns_cons]
  · simp [hprimes, dropReturns_cons]

/-- A formula of a body with its carriage returns before line feeds has mixed line ends. -/
theorem isMixed_formulaOf {body primes : Text} (hbody : IsPaired body) (hprimes : '\r' ∉ primes) :
  IsMixed (formulaOf body primes)
  := by
  have hinner := isMixed_trim hbody
  have hplain : ∀ c, c ≠ '\r' → IsMixed [c] := by
    intro c hc
    apply IsMixed.of_not_mem
    simpa using hc.symm
  rw [formulaOf]
  apply IsMixed.append _ (hplain '$' (by decide))
  apply IsMixed.append _ (.of_not_mem hprimes)
  apply (hplain '$' (by decide)).append
  split
  · exact ((hplain '(' (by decide)).append hinner).append (hplain ')' (by decide))
  · exact hinner

/-- How far a group goes without its carriage returns. -/
theorem length_dropReturns_take {body primes : Text} (hprimes : dropReturns primes = primes)
    (rest : Text) :
  (dropReturns (('(' :: (body ++ ')' :: (primes ++ rest))).take
      (body.length + 2 + primes.length))).length
    = (dropReturns body).length + 2 + primes.length
  := by
  have htext : '(' :: (body ++ ')' :: (primes ++ rest)) = '(' :: (body ++ ')' :: primes) ++ rest
    := by simp
  have hlength : body.length + 2 + primes.length = ('(' :: (body ++ ')' :: primes)).length := by
    simp only [List.length_cons, List.length_append]
    omega
  rw [htext, hlength, List.take_left, dropReturns_cons (by decide), dropReturns_append,
    dropReturns_cons (by decide), hprimes]
  simp only [List.length_cons, List.length_append]
  omega

/-- Where the parenthesis stands that closes a body. -/
theorem position_partner (u body after : Text) :
  position (u ++ '(' :: (body ++ ')' :: after)) (u.length + body.length + 1)
    = (dropReturns u).length + (dropReturns body).length + 1
  := by
  have htext : u ++ '(' :: (body ++ ')' :: after) = (u ++ '(' :: body) ++ ')' :: after := by simp
  have hlength : u.length + body.length + 1 = (u ++ '(' :: body).length := by
    rw [List.length_append, List.length_cons]
    rfl
  rw [htext, hlength, position_append, dropReturns_append, dropReturns_cons (by decide),
    List.length_append, List.length_cons]
  rfl

/-- An item without its carriage returns. -/
def Item.dropReturns : Item → Item
  | backslash e => backslash e.dropReturns
  | plain formula => plain (LineEnds.dropReturns formula)

section Reading

variable {t u cs : Text} (ht : IsMixed t) (hsplit : ¬ HasSplitNumber t)
include ht hsplit

/-- A formula is read in both texts or in neither. -/
theorem readMath_dropReturns (hcut : t = u ++ '(' :: cs)
    (hu : (Place.start.after (dropReturns u)).before = (Place.start.after u).before) :
  readMath (pairs (dropReturns t)) (Place.start.after (dropReturns u)) ('(' :: dropReturns cs)
    = (readMath (pairs t) (Place.start.after u) ('(' :: cs)).map fun a =>
      (dropReturns a.1, (dropReturns (('(' :: cs).take a.2)).length)
  := by
  have hi : t[u.length]? = some '(' := by simp [hcut]
  have hstart : position t u.length = (dropReturns u).length := by rw [hcut, position_append]
  have hpartner := partner_dropReturns hi
  have hoffset : ∀ s : Text, (Place.start.after s).offset = s.length := by
    intro s
    rw [Place.after_offset, Place.start, Nat.zero_add]
  have hopen : mayOpen (Place.start.after (dropReturns u)) = mayOpen (Place.start.after u) := by
    rw [mayOpen, mayOpen, hu]
  rw [hstart] at hpartner
  simp only [readMath, hoffset, hopen, Option.bind_eq_bind]
  rw [hpartner]
  cases hstop : partner (pairs t) u.length with
  | none => rfl
  | some stop =>
    subst hcut
    obtain ⟨body, after, rfl, rfl⟩ := exists_append_of_partner hstop
    have hpaired := (isPaired_cons.mp ht.of_append_right.isPaired).2
    have hbody : IsMixed body := hpaired.isMixed_of_append_cons (by decide)
    have hafter : IsPaired after := hpaired.of_isInfix ⟨body ++ [')'], [], by simp⟩
    have hn : ∀ a b : Nat, a + b + 1 - a - 1 = b := by omega
    have hdrop : ∀ b a : Text, (b ++ ')' :: a).drop (b.length + 1) = a := by
      intro b a
      rw [← List.drop_drop, List.drop_left]
      rfl
    have hprimes := hafter.takeWhile_dropReturns (q := (· = '\x27')) (by decide) (by decide)
    have hkept := dropReturns_takeWhile (q := (· = '\x27')) (by decide) after
    have hmath : isMath (dropReturns body) = isMath body :=
      hbody.isMath_dropReturns fun h => hsplit (h.of_isInfix ⟨u ++ ['('], ')' :: after, by simp⟩)
    simp only [Option.map_some, Option.bind_some, position_partner, hn, dropReturns_append,
      dropReturns_cons (c := ')') (by decide), List.take_left, hdrop, hprimes, hmath]
    obtain ⟨rest, hrest⟩ := after.takeWhile_prefix (· = '\x27')
    generalize after.takeWhile (· = '\x27') = primes at hkept hrest
    subst hrest
    have hrest : IsPaired rest := hafter.of_isInfix (List.suffix_append primes rest).isInfix
    rw [dropReturns_append, hkept, List.drop_left, List.drop_left,
      mayClose_dropReturns hrest, formulaOf_dropReturns hbody.isPaired hkept]
    split
    · rw [Option.pure_def, Option.map_some, length_dropReturns_take hkept]
    · rfl

/-- What is read in parentheses in a text without its carriage returns is what is read in the
text, unless it splits a grouped number. -/
theorem commutes_read :
  Reader.Commutes Item.dropReturns (read (pairs t)) (read (pairs (dropReturns t))) t
  where
  eq_none c hc p cs := by
    have hnone : ∀ ps, read ps p (c :: cs) = none := by
      intro ps
      rw [read, Delimiter.reader_eq_none .inline hc]
      rcases hc with rfl | rfl <;> rfl
    exact ⟨hnone _, hnone _⟩
  read u c cs hcut hc hn := by
    have hinline := (Delimiter.commutes_reader .inline ht False.elim).read u c cs hcut hc hn
    rw [read, read, hinline]
    cases Delimiter.inline.reader (Place.start.after u) (c :: cs) with
    | some r => rfl
    | none =>
      dsimp only [Option.map_none]
      by_cases hopen : c = '('
      · subst hopen
        have hu : u.getLast? ≠ some '\r' := by
          rw [hcut] at ht
          exact (isMixed_iff.mp (ht.isPaired.isMixed_of_append_cons hn)).2
        rw [dropReturns_cons hc,
          readMath_dropReturns ht hsplit hcut (Place.before_after_dropReturns hu),
          Option.map_map, Option.map_map]
        rfl
      · have hnone : ∀ ps p cs, readMath ps p (c :: cs) = none := by
          intro ps p cs
          rw [readMath.eq_def]
          split
          · next heq => exact absurd (List.cons.inj heq).1 hopen
          · rfl
        rw [dropReturns_cons hc, hnone, hnone]
        rfl

end Reading

end Paren

end DollarMath
