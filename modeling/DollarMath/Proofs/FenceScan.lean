import DollarMath.Proofs.Segmentation
import DollarMath.Proofs.Trimming
import Mathlib.Order.Basic

/-!
# Scanning for fences

Whether a text holds a fence is found out character by character, from left to right.  The
scan can be guarded: then the line after a line that ends with a dollar is passed over, as it
is where a display has been written.  The states are ordered by how much they let a fence
come up, and every character respects the order.
-/

namespace DollarMath

/-- A mark that fences are made of. -/
def Fence.isMark (c : Char) : Bool :=
  c = '\x60' || c = '~'

/-- What a scan for fences has seen of the current line. -/
inductive FenceScan where
  /-- Nothing but blank characters. -/
  | start
  /-- Blank characters and one mark. -/
  | one (mark : Char)
  /-- Blank characters and a mark twice. -/
  | two (mark : Char)
  /-- A line that is no fence. -/
  | rest
  /-- A line that is no fence, up to a dollar. -/
  | dollar
  /-- A fence, on this line or before it. -/
  | fence
deriving DecidableEq, Repr

namespace FenceScan

/-- The state after a character that is part of no fence. -/
def after (guarded : Bool) (c : Char) : FenceScan :=
  if guarded && c = '$' then dollar else rest

/-- The state after one more character. -/
def step (guarded : Bool) : FenceScan → Char → FenceScan
  | fence, _ => fence
  | dollar, c => if c = '\n' then (if guarded then rest else start) else after guarded c
  | rest, c => if c = '\n' then start else after guarded c
  | start, c =>
    if isBlank c then start
    else if Fence.isMark c then one c
    else after guarded c
  | one m, c =>
    if c = '\n' then start
    else if Fence.isMark c && c = m then two m
    else after guarded c
  | two m, c =>
    if c = '\n' then start
    else if Fence.isMark c && c = m then fence
    else after guarded c

/-- The state after a text. -/
def scan (guarded : Bool) (s : FenceScan) (t : Text) : FenceScan :=
  t.foldl (step guarded) s

/-- How much a state lets a fence come up. -/
def rank : FenceScan → Nat
  | dollar => 0
  | rest => 1
  | start | one _ | two _ => 2
  | fence => 3

instance : Preorder FenceScan where
  le s s' := s = s' ∨ s.rank < s'.rank
  le_refl _ := .inl rfl
  le_trans s₁ s₂ s₃ h h' := by
    rcases h with rfl | h
    · apply h'
    · rcases h' with rfl | h'
      · exact .inr h
      · exact .inr (Nat.lt_trans h h')

variable {g : Bool} {s s' : FenceScan} {c : Char}

/-- States are ordered by their ranks. -/
theorem le_iff :
  s ≤ s' ↔ s = s' ∨ s.rank < s'.rank
  := Iff.rfl

/-- A fence is the last state. -/
theorem le_fence (s : FenceScan) :
  s ≤ fence
  := by
  cases s <;> simp [le_iff, rank]

/-- A dollar at the start is the first state. -/
theorem dollar_le (s : FenceScan) :
  dollar ≤ s
  := by
  cases s <;> simp [le_iff, rank]

/-- The rest of a line comes before all states but that one. -/
theorem rest_le (h : s ≠ dollar) :
  rest ≤ s
  := by
  cases s <;> simp [le_iff, rank] at h ⊢

/-- Nothing comes behind a fence. -/
theorem eq_fence_of_le (h : s ≤ s') (hs : s = fence) :
  s' = fence
  := by
  subst hs
  rcases h with h | h
  · apply h.symm
  · cases s' <;> simp [rank] at h

/-- A line feed starts a line. -/
theorem step_newline (h : s ≠ dollar) (h' : s ≠ fence) :
  step g s '\n' = start
  := by
  have hblank : isBlank '\n' = true := by decide
  cases s <;> simp [step, hblank] at h h' ⊢

/-- So it does where dollars are not looked for, but for a fence. -/
theorem step_false_newline (h : s ≠ fence) :
  step false s '\n' = start
  := by
  by_cases hdollar : s = dollar
  · rw [hdollar, step]
    simp
  · apply step_newline hdollar h

/-- A line feed leads to no later state than the start of a line. -/
theorem step_newline_le (h : s ≠ fence) :
  step g s '\n' ≤ start
  := by
  by_cases hdollar : s = dollar
  · rw [hdollar, step, if_pos rfl]
    split
    · apply rest_le
      simp
    · apply le_refl
  · rw [step_newline hdollar h]

/-- No character leads to a lower state than one that is part of no fence. -/
theorem after_le_step {g' : Bool} (hg : g' = true → g = true) (hc : c ≠ '\n') :
  after g c ≤ step g' s c
  := by
  have hafter : after g c ≤ after g' c := by
    rw [after, after]
    by_cases hd : c = '$'
    · cases g' with
      | true => simp [hg rfl]
      | false =>
        cases g <;> simp [hd, le_iff, rank]
    · simp [hd]
  have hstart : ∀ s', s' ≠ dollar → s' ≠ rest → after g c ≤ s' := by
    intro s' hs' hs''
    rw [after]
    split
    · apply dollar_le s'
    · apply rest_le hs'
  cases s <;> simp only [step, hc, if_false] <;> repeat' split
  all_goals first | exact hafter | exact hstart _ (by simp) (by simp)

/-- A character respects the order of the states, and so does the guard. -/
theorem step_mono {g' : Bool} (hg : g' = true → g = true) (h : s ≤ s') (c : Char) :
  step g s c ≤ step g' s' c
  := by
  by_cases hfence : s' = fence
  · rw [hfence]
    apply le_fence
  by_cases hc : c = '\n'
  · subst hc
    by_cases hdollar : s' = dollar
    · have hs : s = dollar := by
        rw [hdollar] at h
        cases s <;> simp [le_iff, rank] at h ⊢
      rw [hs, hdollar]
      cases g with
      | true => cases g' <;> simp [step, le_iff, rank]
      | false => simp [step, Bool.eq_false_iff.mpr (mt hg (by simp))]
    · rw [step_newline (s := s') hdollar hfence]
      apply step_newline_le
      apply mt (eq_fence_of_le h) hfence
  · rcases h with rfl | h
    · have hafter := after_le_step (s := rest) hg hc
      cases s <;> simp only [step, hc, if_false] at hafter ⊢ <;> repeat' split
      all_goals first | exact hafter | apply le_refl
    · have hs : step g s c = after g c := by
        cases s <;> cases s' <;> simp_all [rank, step]
      rw [hs]
      apply after_le_step hg hc

@[simp]
theorem scan_nil :
  scan g s [] = s
  := rfl

@[simp]
theorem scan_cons (c : Char) (t : Text) :
  scan g s (c :: t) = scan g (step g s c) t
  := rfl

@[simp]
theorem scan_append (t u : Text) :
  scan g s (t ++ u) = scan g (scan g s t) u
  := List.foldl_append

/-- A text respects the order of the states, and so does the guard. -/
theorem scan_mono {g' : Bool} (hg : g' = true → g = true) (h : s ≤ s') (t : Text) :
  scan g s t ≤ scan g' s' t
  := by
  induction t generalizing s s' with
  | nil => exact h
  | cons c cs ih => exact ih (step_mono hg h c)

/-- A fence stays. -/
@[simp]
theorem scan_fence (t : Text) :
  scan g fence t = fence
  := by
  induction t with
  | nil => rfl
  | cons c cs ih => exact ih

/-! ### Characters that make no fence -/

/-- No blank is a fence mark. -/
theorem not_isMark_of_isBlank (h : isBlank c = true) :
  Fence.isMark c = false
  := by
  rw [Bool.eq_false_iff]
  intro hmark
  simp only [Fence.isMark, Bool.or_eq_true, decide_eq_true_eq] at hmark
  rcases hmark with rfl | rfl
  · exact absurd h (by decide)
  · exact absurd h (by decide)

/-- The characters of a text that is checked are no fence marks. -/
theorem not_isMark_of_all {t : Text} (h : (t.all fun c => !Fence.isMark c) = true) :
  ∀ c ∈ t, Fence.isMark c = false
  := by
  simpa using h

/-- A line feed is no fence mark. -/
theorem ne_newline_of_isMark (h : Fence.isMark c = true) :
  c ≠ '\n'
  := by
  rintro rfl
  exact absurd h (by decide)

/-- Only a mark leads to a fence. -/
theorem step_eq_fence_iff (hc : Fence.isMark c = false) :
  step g s c = fence ↔ s = fence
  := by
  have hafter : after g c ≠ fence := by
    rw [after]
    split <;> simp
  cases s with
  | start => by_cases hblank : isBlank c = true <;> simp [step, hc, hblank, hafter]
  | one m => by_cases hnl : c = '\n' <;> simp [step, hc, hnl, hafter]
  | two m => by_cases hnl : c = '\n' <;> simp [step, hc, hnl, hafter]
  | rest => by_cases hnl : c = '\n' <;> simp [step, hnl, hafter]
  | dollar => by_cases hnl : c = '\n' <;> cases g <;> simp [step, hnl, hafter]
  | fence => simp [step]

/-- A text without marks leads to no fence. -/
theorem scan_eq_fence_iff {t : Text} (ht : ∀ c ∈ t, Fence.isMark c = false) :
  scan g s t = fence ↔ s = fence
  := by
  induction t generalizing s with
  | nil => rfl
  | cons c cs ih =>
    rw [scan_cons, ih fun c' hc' => ht c' (List.mem_cons_of_mem c hc')]
    apply step_eq_fence_iff (ht c List.mem_cons_self)

/-- A character that is neither blank nor a mark nor a dollar. -/
def isPlain (c : Char) : Bool :=
  !isBlank c && !Fence.isMark c && c ≠ '$'

/-- A plain character leads to the rest of the line. -/
theorem step_of_isPlain (hc : isPlain c = true) (h : s ≠ fence) :
  step g s c = rest
  := by
  simp only [isPlain, Bool.and_eq_true, Bool.not_eq_true', decide_eq_true_eq] at hc
  obtain ⟨⟨hblank, hmark⟩, hdollar⟩ := hc
  have hnl : c ≠ '\n' := by
    rintro rfl
    exact absurd hblank (by decide)
  cases s <;> simp_all [step, after]

/-- So does a dollar, or to the state behind dollars. -/
theorem step_dollar (h : s ≠ fence) :
  step g s '$' = after g '$'
  := by
  have hblank : isBlank '$' = false := by decide
  have hmark : Fence.isMark '$' = false := by decide
  cases s <;> simp_all [step]

/-- After a plain character or a dollar, the line is no fence. -/
theorem step_eq_after (hc : isPlain c = true ∨ c = '$') (h : s ≠ fence) :
  step g s c = after g c
  := by
  rcases hc with hc | rfl
  · rw [step_of_isPlain hc h, after, if_neg]
    simp only [isPlain, Bool.and_eq_true, decide_eq_true_eq] at hc
    simp [hc.2]
  · apply step_dollar h

/-- The state behind a character is no later than the rest of a line. -/
theorem after_le_rest :
  after g c ≤ rest
  := by
  rw [after]
  split
  · apply dollar_le
  · apply le_refl

/-- A line that is no fence stays one. -/
theorem scan_le_rest {t : Text} (ht : '\n' ∉ t) (h : s ≤ rest) :
  scan g s t ≤ rest
  := by
  induction t generalizing s with
  | nil => exact h
  | cons c cs ih =>
    have hc : c ≠ '\n' := by
      rintro rfl
      apply ht List.mem_cons_self
    apply ih fun hcs => ht (List.mem_cons_of_mem c hcs)
    have hstep := step_mono (g := g) id h c
    rw [step, if_neg hc] at hstep
    apply le_trans hstep after_le_rest

/-- The rest of a line is no fence. -/
theorem ne_fence_of_le_rest (h : s ≤ rest) :
  s ≠ fence
  := by
  rintro rfl
  cases eq_fence_of_le h rfl

/-- Spaces and tabs leave a line as it is that is no fence. -/
theorem scan_rest_of_isSpaceOrTab {t : Text} (ht : ∀ c ∈ t, isSpaceOrTab c = true) :
  scan g rest t = rest
  := by
  induction t with
  | nil => rfl
  | cons c cs ih =>
    have hc := ht c List.mem_cons_self
    have hstep : step g rest c = rest := by
      simp only [isSpaceOrTab, Bool.or_eq_true, decide_eq_true_eq] at hc
      rcases hc with rfl | rfl <;> simp [step, after]
    rw [scan_cons, hstep]
    apply ih fun c' hc' => ht c' (List.mem_cons_of_mem c hc')

/-- Blank characters leave the start of a line as it is. -/
theorem scan_start_of_isBlankText {t : Text} (ht : IsBlankText t) :
  scan g start t = start
  := by
  induction t with
  | nil => rfl
  | cons c cs ih =>
    rw [scan_cons, step, if_pos (ht c List.mem_cons_self)]
    apply ih fun c' hc' => ht c' (List.mem_cons_of_mem c hc')

/-- Blank characters leave a line that is no fence, or start a new one, guarded or not. -/
theorem scan_rest_of_isBlankText {t : Text} (ht : IsBlankText t) :
  (∀ g, scan g rest t = rest) ∨ ∀ g, scan g rest t = start
  := by
  induction t with
  | nil =>
    left
    intro g
    rfl
  | cons c cs ih =>
    have hcs : IsBlankText cs := fun c' hc' => ht c' (List.mem_cons_of_mem c hc')
    have hdollar : c ≠ '$' := by
      rintro rfl
      exact absurd (ht '$' List.mem_cons_self) (by decide)
    by_cases hc : c = '\n'
    · right
      intro g
      rw [scan_cons, step, if_pos hc]
      apply scan_start_of_isBlankText hcs
    · simp only [scan_cons, step, hc, after, hdollar]
      simpa using ih hcs

/-! ### Trimmed texts -/

/-- Blank texts have no fence mark. -/
theorem not_isMark_of_isBlankText {t : Text} (h : IsBlankText t) :
  ∀ c ∈ t, Fence.isMark c = false
  := fun c hc => not_isMark_of_isBlank (h c hc)

/-- From the start of a line, blank characters around a text do not matter. -/
theorem scan_start_trim_eq_fence_iff (t : Text) :
  scan g start (trim t) = fence ↔ scan g start t = fence
  := by
  obtain ⟨a, b, ha, hb, ht⟩ := exists_eq_append_trim t
  conv_rhs => rw [ht, scan_append, scan_append, scan_start_of_isBlankText ha]
  rw [scan_eq_fence_iff (not_isMark_of_isBlankText hb)]

/-- On a line that is no fence, a trimmed text has no fence that the text has not. -/
theorem scan_eq_fence_of_trim {t : Text} (h : s ≤ rest) (hfence : scan g s (trim t) = fence) :
  scan g rest t = fence
  := by
  obtain ⟨a, b, ha, hb, ht⟩ := exists_eq_append_trim t
  rw [ht, scan_append, scan_append, scan_eq_fence_iff (not_isMark_of_isBlankText hb)]
  apply eq_fence_of_le (s := scan g s (trim t))
  · apply scan_mono id
    apply le_trans h
    rcases scan_rest_of_isBlankText ha with ha | ha
    · rw [ha]
    · rw [ha]
      apply rest_le
      simp
  · apply hfence

/-! ### Fences found -/

/-- Blanks in front do not matter to a fence. -/
theorem opens_cons_of_isBlank (h : isBlank c = true) (t : Text) :
  Fence.opens (c :: t) = Fence.opens t
  := by
  simp [Fence.opens, Fence.ofLine?, h]

/-- A text that starts with a character that is not blank opens with a fence if it starts
with three marks. -/
theorem opens_cons_iff (h : isBlank c = false) (t : Text) :
  Fence.opens (c :: t) = true ↔ Fence.isMark c = true ∧ ∃ u, t = c :: c :: u
  := by
  have hmark : Fence.isMark c = true ↔ c = '\x60' ∨ c = '~' := by simp [Fence.isMark]
  rw [hmark, Fence.opens, Fence.ofLine?, List.dropWhile_cons_of_neg (by simp [h])]
  dsimp only
  rw [List.takeWhile_cons_of_pos (by simp)]
  rcases t with _ | ⟨d, _ | ⟨e, u⟩⟩
  · simp
  · by_cases hd : d = c <;> simp [hd]
  · by_cases hd : d = c <;> by_cases he : e = c <;> simp [hd, he]

/-- A fence at the front of a text is found. -/
theorem scan_start_of_opens {t : Text} (h : Fence.opens t = true) :
  scan g start t = fence
  := by
  induction t with
  | nil => exact absurd h (by decide)
  | cons c cs ih =>
    cases hblank : isBlank c with
    | true =>
      rw [opens_cons_of_isBlank hblank] at h
      rw [scan_cons, step, if_pos hblank]
      apply ih h
    | false =>
      obtain ⟨hmark, u, rfl⟩ := (opens_cons_iff hblank cs).mp h
      simp [step, hblank, hmark, ne_newline_of_isMark hmark]

/-- After two marks a third one opens a fence. -/
theorem scan_two_eq_fence_iff {m : Char} (hm : Fence.isMark m = true) (t : Text) :
  scan false (two m) t = fence ↔ (∃ u, t = m :: u) ∨ scan false rest t = fence
  := by
  cases t with
  | nil => simp
  | cons c cs =>
    by_cases hnl : c = '\n'
    · simp [step, hnl, (ne_newline_of_isMark hm).symm]
    · by_cases hc : c = m
      · simp [step, hm, hc, ne_newline_of_isMark hm]
      · simp [step, hnl, hc]

/-- After one mark two others open a fence. -/
theorem scan_one_eq_fence_iff {m : Char} (hm : Fence.isMark m = true) (t : Text) :
  scan false (one m) t = fence ↔ (∃ u, t = m :: m :: u) ∨ scan false rest t = fence
  := by
  cases t with
  | nil => simp
  | cons c cs =>
    by_cases hnl : c = '\n'
    · simp [step, hnl, (ne_newline_of_isMark hm).symm]
    · by_cases hc : c = m
      · subst hc
        simp [step, hm, hnl, scan_two_eq_fence_iff hm, after]
      · simp [step, hnl, hc]

/-- From the start of a line, a fence is at the front of the text or further on. -/
theorem scan_start_eq_fence_iff (t : Text) :
  scan false start t = fence ↔ Fence.opens t = true ∨ scan false rest t = fence
  := by
  constructor
  · intro h
    induction t with
    | nil => cases h
    | cons c cs ih =>
      cases hblank : isBlank c with
      | true =>
        rw [opens_cons_of_isBlank hblank, scan_cons, step]
        rw [scan_cons, step, if_pos hblank] at h
        split
        · exact .inr h
        · apply ih h
      | false =>
        have hnl : c ≠ '\n' := by
          rintro rfl
          exact absurd hblank (by decide)
        have hrest : step false rest c = rest := by simp [step, after, hnl]
        rw [opens_cons_iff hblank, scan_cons, hrest]
        cases hmark : Fence.isMark c with
        | true =>
          have hone : step false start c = one c := by simp [step, hblank, hmark]
          rw [scan_cons, hone, scan_one_eq_fence_iff hmark] at h
          apply h.imp (fun hu => ⟨rfl, hu⟩) id
        | false =>
          have hone : step false start c = rest := by simp [step, hblank, hmark, after]
          rw [scan_cons, hone] at h
          exact .inr h
  · rintro (h | h)
    · apply scan_start_of_opens h
    · apply eq_fence_of_le _ h
      apply scan_mono id
      apply rest_le
      simp

end FenceScan

open FenceScan

/-- A line holds a line feed at its end only. -/
theorem exists_of_lines_eq {l : Text} (h : lines l = [l]) :
  ∃ a, '\n' ∉ a ∧ (l = a ∨ l = a ++ ['\n'])
  := by
  induction l with
  | nil => exact ⟨[], List.not_mem_nil, .inl rfl⟩
  | cons c cs ih =>
    rw [lines] at h
    split at h
    · next hc =>
      obtain ⟨hl, -⟩ := List.cons.inj h
      exact ⟨[], List.not_mem_nil, .inr hl.symm⟩
    · next hc =>
      split at h
      · obtain ⟨hl, -⟩ := List.cons.inj h
        exact ⟨[c], by simpa using Ne.symm hc, .inl hl.symm⟩
      · next l ls hcs =>
        obtain ⟨hl, rfl⟩ := List.cons.inj h
        obtain rfl := (List.cons.inj hl).2
        obtain ⟨a, ha, hl⟩ := ih hcs
        refine ⟨c :: a, ?_, ?_⟩
        · simp [ha, Ne.symm hc]
        · apply hl.imp (congrArg (c :: ·)) (congrArg (c :: ·))

/-- The scan of a line finds a fence if the line is one, and otherwise starts the next line. -/
theorem scan_line {l : Text} (h : lines l = [l]) :
  (scan false start l = fence ↔ Fence.opens l = true)
    ∧ (EndsLine l → Fence.opens l = false → scan false start l = start)
  := by
  have hnl : Fence.isMark '\n' = false := by decide
  obtain ⟨a, ha, hl⟩ := exists_of_lines_eq h
  have hfence : scan false start l = fence ↔ Fence.opens l = true := by
    rw [scan_start_eq_fence_iff]
    apply or_iff_left
    have hrest := ne_fence_of_le_rest (scan_le_rest (g := false) ha (le_refl rest))
    rcases hl with rfl | rfl
    · apply hrest
    · rw [scan_append, scan_cons, scan_nil, step_eq_fence_iff hnl]
      apply hrest
  refine ⟨hfence, ?_⟩
  intro hends hopens
  rw [hopens] at hfence
  rcases hl with rfl | rfl
  · have hnil : l = [] := by
      rw [← List.getLast?_eq_none_iff, Option.eq_none_iff_forall_ne_some]
      rintro c hc
      apply ha
      rw [← hends c hc]
      apply List.mem_of_getLast? hc
    rw [hnil, scan_nil]
  · rw [scan_append, scan_cons, scan_nil] at hfence ⊢
    apply step_false_newline
    rw [Ne, ← step_eq_fence_iff hnl, hfence]
    simp

/-- The scan from the start of a line finds the fences of a text. -/
theorem fences_eq_zero_iff (t : Text) :
  fences t = 0 ↔ scan false start t ≠ fence
  := by
  suffices ∀ ls, IsLines ls →
      (scan false start ls.flatten = fence ↔ ∃ l ∈ ls, Fence.opens l = true) by
    have hlines := this (lines t) (isLines_lines t)
    rw [flatten_lines] at hlines
    rw [Ne, hlines, fences, List.countP_eq_zero, not_exists]
    simp
  intro ls hls
  induction ls with
  | nil => simp
  | cons l ls ih =>
    have ih := ih hls.tail
    obtain ⟨hfence, hstart⟩ := scan_line (hls.line l List.mem_cons_self)
    rw [List.flatten_cons, scan_append, List.exists_mem_cons_iff]
    cases hopens : Fence.opens l with
    | true =>
      rw [hfence.mpr hopens, scan_fence]
      simp
    | false =>
      by_cases hne : ls = []
      · rw [hne, List.flatten_nil, scan_nil, hfence, hopens]
        simp
      · rw [hstart (hls.cut.1 hne) hopens, ih]
        simp

end DollarMath
