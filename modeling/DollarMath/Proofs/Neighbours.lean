import DollarMath.Proofs.Trimming
import Mathlib.Data.List.Chain

/-!
# Characters side by side

A text separates two characters if the second one never follows the first.  So does every part
of it, and what is joined from its lines by spaces.
-/

namespace DollarMath

/-! ### Ends of texts side by side -/

section Ends

variable {ι : Type} {ks : List ι} {f : ι → Text} (h : ∀ k ∈ ks, f k ≠ [])
include h

/-- Texts side by side, none of them empty, start as the first one does. -/
theorem head?_flatMap_of_ne_nil :
  (ks.flatMap f).head? = ks.head?.bind fun k => (f k).head?
  := by
  cases ks with
  | nil => rfl
  | cons k ks =>
    rw [List.flatMap_cons, List.head?_append_of_ne_nil _ (h k List.mem_cons_self)]
    rfl

/-- Texts side by side, none of them empty, end as the last one does. -/
theorem getLast?_flatMap_of_ne_nil :
  (ks.flatMap f).getLast? = ks.getLast?.bind fun k => (f k).getLast?
  := by
  rcases List.eq_nil_or_concat' ks with rfl | ⟨ks, k, rfl⟩
  · rfl
  · rw [List.flatMap_append, List.flatMap_singleton, List.getLast?_concat,
      List.getLast?_append_of_ne_nil _ (h k List.mem_concat_self)]
    rfl

end Ends

/-! ### Separated characters -/

/-- A text where `y` never follows `x`. -/
def Separates (x y : Char) (t : Text) : Prop :=
  t.IsChain fun a b => ¬ (a = x ∧ b = y)

/-- Two characters are kept apart if they never stand side by side. -/
theorem separates_iff {x y : Char} {t : Text} :
  Separates x y t ↔ ¬ [x, y] <:+: t
  := by
  rw [Separates, List.isChain_iff_forall_rel_of_append_cons_cons]
  constructor
  · rintro h ⟨u, v, rfl⟩
    apply h (a := x) (b := y) (by rw [List.append_assoc]; rfl) ⟨rfl, rfl⟩
  · rintro h a b u v rfl ⟨rfl, rfl⟩
    apply h
    use u, v
    rw [List.append_assoc]
    rfl

/-- To occur is to be a part. -/
theorem occurs_iff {w t : Text} :
  occurs w t = true ↔ w <:+: t
  := by
  induction t with
  | nil => simp [occurs]
  | cons c cs ih =>
    rw [occurs, Bool.or_eq_true, ih, List.isPrefixOf_iff_prefix, List.infix_cons_iff]

namespace Separates

variable {x y : Char} {t : Text}

/-- A part of a text separates what the text does. -/
theorem of_infix {s : Text} (h : Separates x y t) (hs : s <:+: t) :
  Separates x y s
  := List.IsChain.infix h hs

/-- Two texts keep them apart if each does, and so do the ends that meet. -/
theorem append_iff {s : Text} :
  Separates x y (s ++ t)
    ↔ Separates x y s ∧ Separates x y t ∧ ¬ (s.getLast? = some x ∧ t.head? = some y)
  := by
  rw [Separates, List.isChain_append]
  apply and_congr_right
  intro _
  apply and_congr_right
  intro _
  constructor
  · rintro h ⟨hx, hy⟩
    apply h x hx y hy ⟨rfl, rfl⟩
  · rintro h a ha b hb ⟨rfl, rfl⟩
    apply h ⟨ha, hb⟩

/-- Texts side by side, of which the first one does not end with `x` or the second one does not
start with `y`. -/
theorem append {s : Text} (hs : Separates x y s) (ht : Separates x y t)
    (h : s.getLast? ≠ some x ∨ t.head? ≠ some y) :
  Separates x y (s ++ t)
  := append_iff.mpr ⟨hs, ht, not_and_or.mpr h⟩

/-- A text without the first character separates it from any other one. -/
theorem of_not_mem (h : x ∉ t) :
  Separates x y t
  := by
  rw [separates_iff]
  intro hinside
  apply h (hinside.subset (List.mem_cons_self))

/-- Texts side by side that are not empty: each of them separates the characters, and so do two
neighbours. -/
theorem flatMap_iff {ι : Type} {ks : List ι} {f : ι → Text} (h : ∀ k ∈ ks, f k ≠ []) :
  Separates x y (ks.flatMap f)
    ↔ (∀ k ∈ ks, Separates x y (f k))
      ∧ ks.IsChain fun a b => ¬ ((f a).getLast? = some x ∧ (f b).head? = some y)
  := by
  rw [Separates, List.flatMap_def, List.isChain_flatten, List.forall_mem_map, List.isChain_map]
  · apply and_congr_right
    intro _
    apply List.IsChain.iff
    intro a b
    constructor
    · rintro hab ⟨hx, hy⟩
      apply hab x hx y hy ⟨rfl, rfl⟩
    · rintro hab c hc d hd ⟨rfl, rfl⟩
      apply hab ⟨hc, hd⟩
  · rw [List.mem_map]
    rintro ⟨k, hk, hnil⟩
    apply h k hk hnil

/-- Trimming brings no characters together. -/
theorem trim (h : Separates x y t) :
  Separates x y (DollarMath.trim t)
  := by
  obtain ⟨a, b, -, -, ht⟩ := exists_eq_append_trim t
  apply h.of_infix
  use a, b
  rw [List.append_assoc]
  exact ht.symm

/-- Trimming parts no characters that are not blank. -/
theorem of_trim (hx : isBlank x = false) (hy : isBlank y = false)
    (h : Separates x y (DollarMath.trim t)) :
  Separates x y t
  := by
  obtain ⟨a, b, ha, hb, ht⟩ := exists_eq_append_trim t
  have hxa : x ∉ a := fun hmem => by simp [ha x hmem] at hx
  have hxb : x ∉ b := fun hmem => by simp [hb x hmem] at hx
  have hyb : y ∉ b := fun hmem => by simp [hb y hmem] at hy
  rw [ht]
  apply (of_not_mem hxa).append (h.append (of_not_mem hxb) _)
  · left
    exact fun hlast => hxa (List.mem_of_getLast? hlast)
  · right
    exact fun hhead => hyb (List.mem_of_head? hhead)

/-- A single character separates any two. -/
theorem singleton (x y c : Char) :
  Separates x y [c]
  := List.isChain_singleton c

/-- So do lines that are joined by another character. -/
theorem intercalate {z : Char} (hx : z ≠ x) (hy : z ≠ y) {ls : List Text}
    (h : ∀ l ∈ ls, Separates x y l) :
  Separates x y (List.intercalate [z] ls)
  := by
  induction ls with
  | nil => exact List.IsChain.nil
  | cons l ls ih =>
    cases ls with
    | nil => simpa using h l List.mem_cons_self
    | cons l' ls =>
      rw [List.intercalate_cons_cons]
      apply append
      · apply append (h l List.mem_cons_self) (singleton x y z)
        right
        simpa using hy
      · apply ih fun l hl => h l (List.mem_cons_of_mem _ hl)
      · left
        simpa using hx

end Separates

namespace Quote

/-- The first bare line stands at the front of a text, and the others stand in it. -/
theorem exists_bareLines_eq_cons (t : Text) :
  ∃ l ls, bareLines t = l :: ls ∧ l <+: t ∧ ∀ l' ∈ ls, l' <:+: t
  := by
  induction t using bareLines.induct with
  | case1 => exact ⟨[], [], rfl, List.nil_prefix, by simp⟩
  | case2 cs ih =>
    obtain ⟨l, ls, hlines, hl, hls⟩ := ih
    refine ⟨[], l :: ls, by rw [bareLines, hlines], List.nil_prefix, ?_⟩
    rw [List.forall_mem_cons]
    constructor
    · apply List.infix_cons hl.isInfix
    · exact fun l' hl' => List.infix_cons (hls l' hl')
  | case3 cs ih =>
    obtain ⟨l, ls, hlines, hl, hls⟩ := ih
    refine ⟨[], l :: ls, by rw [bareLines, hlines], List.nil_prefix, ?_⟩
    rw [List.forall_mem_cons]
    constructor
    · apply List.infix_cons (List.infix_cons hl.isInfix)
    · exact fun l' hl' => List.infix_cons (List.infix_cons (hls l' hl'))
  | case4 c cs hlf hcrlf hnil ih =>
    obtain ⟨l, ls, hlines, -⟩ := ih
    rw [hnil] at hlines
    cases hlines
  | case5 c cs hlf hcrlf l' ls' hcons ih =>
    obtain ⟨l, ls, hlines, hl, hls⟩ := ih
    obtain ⟨rfl, rfl⟩ := List.cons.inj (hcons.symm.trans hlines)
    refine ⟨c :: l', ls', by rw [bareLines.eq_4 _ _ hlf hcrlf, hcons], ?_, ?_⟩
    · rw [List.cons_prefix_cons]
      exact ⟨rfl, hl⟩
    · exact fun l hl => List.infix_cons (hls l hl)

/-- A line without its quote mark is an end of the line. -/
theorem dropMark_isSuffix (l : Text) :
  dropMark l <:+ l
  := by
  rw [dropMark.eq_def]
  split
  · apply (List.dropWhile_suffix _).trans (List.suffix_cons _ _)
  · apply List.suffix_rfl

/-- The lines of a quoted block keep apart what the block does. -/
theorem separates_unquote {x y : Char} {t : Text} (hx : ' ' ≠ x) (hy : ' ' ≠ y)
    (h : Separates x y t) :
  Separates x y (unquote t)
  := by
  have hjoined : Separates x y (List.intercalate [' '] ((bareLines t).map dropMark)) := by
    apply Separates.intercalate hx hy
    rw [List.forall_mem_map]
    intro l hl
    obtain ⟨l', ls, hlines, hfirst, hothers⟩ := exists_bareLines_eq_cons t
    have hinside : l <:+: t := by
      rw [hlines] at hl
      rcases List.mem_cons.mp hl with rfl | hl
      · apply hfirst.isInfix
      · apply hothers l hl
    apply h.of_infix
    apply (dropMark_isSuffix l).isInfix.trans hinside
  apply hjoined.trim

end Quote

end DollarMath
