import DollarMath.Proofs.Blocks
import DollarMath.Proofs.MixedJudging

/-!
# Patterns with mixed line ends

A pattern that allows a carriage return wherever it asks for a line feed takes the same with the
carriage returns of a text and without.  Only the stop before a line feed does not allow for one.
-/

namespace DollarMath

open LineEnds

namespace Pattern

/-- The pattern takes the same at the front of a text with its carriage returns and without. -/
def Commutes (p : Pattern) (t : Text) : Prop :=
  p (dropReturns t) = (p t).map fun n => (dropReturns (t.take n)).length

/-- The pattern takes the same wherever carriage returns stand before line feeds only. -/
def SeesThrough (p : Pattern) : Prop :=
  ∀ t, IsPaired t → p.Commutes t

variable {p : Pattern} {ps qs : List Pattern} {t : Text}

/-! ### Single patterns -/

/-- A word within a line is taken with the carriage returns behind it and without. -/
theorem seesThrough_literal {w : Text} (hw : ∀ c ∈ w, c ≠ '\r' ∧ c ≠ '\n') :
  (literal w).SeesThrough
  := by
  intro t h
  have hkeep : dropReturns w = w := dropReturns_eq_self fun hmem => (hw _ hmem).1 rfl
  rw [Commutes, literal, literal]
  by_cases hfront : w <+: t
  · have hfront' := (h.prefix_dropReturns_iff hw).mpr hfront
    rw [if_pos (List.isPrefixOf_iff_prefix.mpr hfront),
      if_pos (List.isPrefixOf_iff_prefix.mpr hfront'), Option.map_some,
      ← List.prefix_iff_eq_take.mp hfront, hkeep]
  · have hfront' := mt (h.prefix_dropReturns_iff hw).mp hfront
    rw [if_neg (mt List.isPrefixOf_iff_prefix.mp hfront),
      if_neg (mt List.isPrefixOf_iff_prefix.mp hfront')]
    rfl

/-- So is a run that stops at the ends of lines. -/
theorem seesThrough_run {q : Char → Bool} (hr : q '\r' = false) (hn : q '\n' = false) :
  (run q).SeesThrough
  := by
  intro t h
  rw [Commutes, run, run, h.takeWhile_dropReturns hr hn, Option.map_some,
    ← List.prefix_iff_eq_take.mp (t.takeWhile_prefix q), dropReturns_takeWhile hr]

/-- So is a line end, which may have a carriage return. -/
theorem seesThrough_lineEnd :
  lineEnd.SeesThrough
  := by
  intro t h
  rw [Commutes]
  cases t with
  | nil => rfl
  | cons c cs =>
    by_cases hc : c = '\r'
    · subst hc
      cases cs with
      | nil => rfl
      | cons d ds =>
        obtain rfl := (isPaired_cons.mp h).1 rfl d rfl
        rfl
    · rw [dropReturns_cons hc]
      by_cases hn : c = '\n'
      · subst hn
        rfl
      · have hnone : ∀ cs, lineEnd (c :: cs) = none := by
          intro cs
          rw [lineEnd.eq_def]
          split
          · next heq => exact absurd (List.cons.inj heq).1 hn
          · next heq => exact absurd (List.cons.inj heq).1 hc
          · rfl
        rw [hnone, hnone]
        rfl

/-- A line stops before a carriage return only where the carriage return is left out. -/
theorem commutes_lineStop (h : t.head? ≠ some '\r') :
  lineStop.Commutes t
  := by
  rw [Commutes]
  cases t with
  | nil => rfl
  | cons c cs =>
    have hc : c ≠ '\r' := fun hc => h (congrArg some hc)
    rw [dropReturns_cons hc, lineStop, lineStop]
    split
    · rfl
    · rfl

/-! ### Patterns one after another -/

theorem commutes_inOrder_nil (t : Text) :
  (inOrder []).Commutes t
  := rfl

/-- One pattern, and then the others. -/
theorem Commutes.inOrder_cons (hp : p.Commutes t)
    (hps : ∀ n, p t = some n → (inOrder ps).Commutes (t.drop n)) :
  (inOrder (p :: ps)).Commutes t
  := by
  have hp : p (dropReturns t) = _ := hp
  rw [Commutes, inOrder, inOrder, hp]
  cases hn : p t with
  | none => rfl
  | some n =>
    have hps : inOrder ps (dropReturns (t.drop n)) = _ := hps n hn
    simp only [Option.map_some, Option.bind_eq_bind, Option.bind_some, drop_dropReturns, hps]
    cases inOrder ps (t.drop n) with
    | none => rfl
    | some m =>
      have hlength : (dropReturns (t.take (n + m))).length
          = (dropReturns (t.take n)).length + (dropReturns ((t.drop n).take m)).length := by
        rw [List.take_add, dropReturns_append, List.length_append]
      exact congrArg some hlength.symm

/-- Patterns one after another, each of which takes the same in both texts. -/
theorem SeesThrough.inOrder (h : ∀ p ∈ ps, p.SeesThrough) :
  (inOrder ps).SeesThrough
  := by
  induction ps with
  | nil => exact fun t _ => commutes_inOrder_nil t
  | cons p ps ih =>
    obtain ⟨hp, hps⟩ := List.forall_mem_cons.mp h
    intro t ht
    apply (hp t ht).inOrder_cons
    intro n _
    exact ih hps _ (ht.drop n)

/-- Before a line stop, no carriage return may follow what the other patterns take. -/
theorem commutes_inOrder_lineStop (ps : List Pattern) (ht : IsPaired t)
    (hps : ∀ p ∈ ps, p.SeesThrough)
    (hstop : ∀ n, inOrder ps t = some n → (t.drop n).head? ≠ some '\r') :
  (inOrder (ps ++ [lineStop])).Commutes t
  := by
  induction ps generalizing t with
  | nil =>
    apply (commutes_lineStop (hstop 0 rfl)).inOrder_cons
    exact fun _ _ => commutes_inOrder_nil _
  | cons p ps ih =>
    obtain ⟨hp, hps⟩ := List.forall_mem_cons.mp hps
    apply (hp t ht).inOrder_cons
    intro n hn
    apply ih (ht.drop n) hps
    intro m hm
    rw [List.drop_drop]
    apply hstop
    rw [inOrder, hn]
    simp only [Option.bind_eq_bind, Option.bind_some, hm]
    rfl

/-! ### The shortest text -/

/-- Where the pattern fits, the shortest text is empty. -/
theorem upTo_of_some {n : Nat} (h : p t = some n) :
  p.upTo t = some ([], n)
  := by
  cases t with
  | nil =>
    rw [upTo, h]
    rfl
  | cons c cs => rw [upTo, h]

/-- The shortest text before a place where a pattern fits is found with the carriage returns and
without, if the pattern takes the same at every place up to there. -/
theorem upTo_dropReturns
    (h : ∀ a b, t = a ++ b → (∀ i < a.length, p (t.drop i) = none) → p.Commutes b) :
  p.upTo (dropReturns t)
    = (p.upTo t).map fun r =>
      (dropReturns r.1, (dropReturns ((t.drop r.1.length).take r.2)).length)
  := by
  induction t with
  | nil =>
    have hfront : p (dropReturns []) = _ := h [] [] rfl (by simp)
    cases hp : p [] with
    | none => simp [upTo, hp]
    | some n =>
      rw [upTo_of_some (by rw [hfront, hp]; rfl), upTo_of_some hp]
      rfl
  | cons c cs ih =>
    have hfront : p (dropReturns (c :: cs)) = _ := h [] (c :: cs) rfl (by simp)
    cases hp : p (c :: cs) with
    | some n =>
      rw [upTo_of_some (by rw [hfront, hp]; rfl), upTo_of_some hp]
      rfl
    | none =>
      have ih := ih (by
        rintro a b hcs hnone
        apply h (c :: a) b (by rw [hcs]; rfl)
        intro i hi
        cases i with
        | zero => exact hp
        | succ i => exact hnone i (Nat.lt_of_succ_lt_succ hi))
      rw [hp, Option.map_none] at hfront
      rw [upTo, hp]
      by_cases hc : c = '\r'
      · rw [hc, dropReturns_return, ih, Option.map_map]
        rfl
      · rw [dropReturns_cons hc] at hfront ⊢
        rw [upTo, hfront]
        dsimp only
        rw [ih, Option.map_map, Option.map_map]
        apply Option.map_congr
        intro r _
        simp [dropReturns_cons hc]

/-- The shortest text before such a pattern is found in both texts. -/
theorem SeesThrough.upTo_dropReturns (h : p.SeesThrough) (ht : IsPaired t) :
  p.upTo (dropReturns t)
    = (p.upTo t).map fun r =>
      (dropReturns r.1, (dropReturns ((t.drop r.1.length).take r.2)).length)
  := by
  apply Pattern.upTo_dropReturns
  intro a b hab _
  exact h b (ht.of_isInfix ⟨a, [], by rw [hab, List.append_nil]⟩)

end Pattern

end DollarMath
