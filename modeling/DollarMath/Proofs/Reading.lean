import DollarMath.Delimiter
import DollarMath.Proofs.Pieces
import Mathlib.Data.List.Infix
import Mathlib.Data.List.TakeWhile

/-!
# What is read, without reading

Some readers take exactly the sources of certain values: the value and the character before it
tell whether it is read, and what follows it does not matter.  Such readers are local.
-/

namespace DollarMath

namespace Pattern

/-- One character more in front of the shortest text before a pattern. -/
theorem map_cons_eq_some_iff
    {found : Option (Text × Nat)} {c d : Char} {body : Text} {n : Nat} :
  found.map (fun r => (c :: r.1, r.2)) = some (d :: body, n) ↔ c = d ∧ found = some (body, n)
  := by
  simp only [Option.map_eq_some_iff, Prod.mk.injEq, List.cons.injEq, Prod.exists]
  constructor
  · rintro ⟨b, k, h, ⟨rfl, rfl⟩, rfl⟩
    exact ⟨rfl, h⟩
  · rintro ⟨rfl, h⟩
    exact ⟨body, n, h, ⟨rfl, rfl⟩, rfl⟩

/-- The shortest text before a place where a pattern fits, by the positions where it does. -/
theorem upTo_eq_some_iff {p : Pattern} {t body : Text} {n : Nat} :
  p.upTo t = some (body, n)
    ↔ body <+: t ∧ p (t.drop body.length) = some n
      ∧ ∀ i < body.length, p (t.drop i) = none
  := by
  induction t generalizing body with
  | nil =>
    cases body with
    | nil => simp [upTo]
    | cons d b => simp [upTo]
  | cons c cs ih =>
    rw [upTo]
    cases body with
    | nil =>
      cases hp : p (c :: cs) with
      | none => simp [hp]
      | some m => simp [hp]
    | cons d b =>
      cases hp : p (c :: cs) with
      | some m =>
        simp only [Option.some.injEq, Prod.mk.injEq, reduceCtorEq, false_and, false_iff, not_and]
        rintro - - hall
        have hfirst := hall 0 (Nat.succ_pos _)
        rw [List.drop_zero, hp] at hfirst
        cases hfirst
      | none =>
        have hall : (∀ i < (d :: b).length, p ((c :: cs).drop i) = none)
            ↔ ∀ i < b.length, p (cs.drop i) = none := by
          rw [List.length_cons, Nat.forall_lt_succ_left']
          simp [hp]
        rw [hall, map_cons_eq_some_iff, ih, List.cons_prefix_cons, List.length_cons,
          List.drop_succ_cons, and_assoc, @eq_comm _ c d]

/-- The shortest text before a literal, which has a last character `x`, is the one in which the
literal does not end earlier. -/
theorem upTo_literal_eq_some_iff {w t body : Text} {x : Char} {n : Nat} :
  upTo (literal (w ++ [x])) t = some (body, n)
    ↔ n = (w ++ [x]).length ∧ body ++ (w ++ [x]) <+: t ∧ ¬ w ++ [x] <:+: body ++ w
  := by
  have hshort : ¬ w ++ [x] <:+: w := by
    intro h
    have hle := h.length_le
    rw [List.length_append] at hle
    exact Nat.not_succ_le_self _ hle
  induction t generalizing body with
  | nil => simp [upTo, literal]
  | cons c cs ih =>
    by_cases hfits : w ++ [x] <+: c :: cs
    · have hliteral : literal (w ++ [x]) (c :: cs) = some (w ++ [x]).length := by
        rw [literal, if_pos (List.isPrefixOf_iff_prefix.mpr hfits)]
      rw [upTo, hliteral]
      constructor
      · intro h
        obtain ⟨rfl, rfl⟩ := Prod.mk.inj (Option.some.inj h)
        exact ⟨rfl, hfits, hshort⟩
      · rintro ⟨rfl, hbody, hfirst⟩
        cases body with
        | nil => rfl
        | cons d b =>
          exfalso
          apply hfirst
          apply List.IsPrefix.isInfix
          apply List.prefix_of_prefix_length_le hfits
          · rw [← List.append_assoc] at hbody
            apply (List.prefix_append _ _).trans hbody
          · simp only [List.length_append, List.length_cons, List.length_nil]
            omega
    · have hliteral : literal (w ++ [x]) (c :: cs) = none := by
        rw [literal, if_neg fun h => hfits (List.isPrefixOf_iff_prefix.mp h)]
      rw [upTo, hliteral]
      cases body with
      | nil =>
        simp only [Option.map_eq_some_iff, Prod.mk.injEq, List.nil_append, hfits, false_and,
          and_false, iff_false, not_exists, not_and]
        rintro ⟨b, k⟩ - h
        cases h
      | cons d b =>
        apply map_cons_eq_some_iff.trans
        apply (and_congr_right fun _ => ih).trans
        rw [List.cons_append, List.cons_append, List.cons_prefix_cons, List.infix_cons_iff]
        constructor
        · rintro ⟨rfl, hn, hbody, hfirst⟩
          refine ⟨hn, ⟨rfl, hbody⟩, ?_⟩
          rintro (hfront | hlater)
          · apply hfits
            apply hfront.trans
            rw [List.cons_prefix_cons]
            rw [← List.append_assoc] at hbody
            exact ⟨rfl, (List.prefix_append _ _).trans hbody⟩
          · apply hfirst hlater
        · rintro ⟨hn, ⟨rfl, hbody⟩, hfirst⟩
          exact ⟨rfl, hn, hbody, fun h => hfirst (.inr h)⟩

/-- A word that stands nowhere is not reached. -/
theorem upTo_literal_eq_none_iff {w t : Text} (hw : w ≠ []) :
  upTo (literal w) t = none ↔ ¬ w <:+: t
  := by
  induction t with
  | nil =>
    simp [upTo, literal, hw]
  | cons c cs ih =>
    rw [upTo, literal, List.infix_cons_iff, ← List.isPrefixOf_iff_prefix]
    cases hfront : w.isPrefixOf (c :: cs) with
    | true => simp
    | false => simp [ih]

end Pattern

namespace Reader

variable {α : Type} {r : Reader α} {source : α → Text} {Allowed : Bool → α → Prop}

/-- A reader that takes the sources of the values that are allowed at the place, be it after a
backslash or not. -/
def Reads (r : Reader α) (source : α → Text) (Allowed : Bool → α → Prop) : Prop :=
  ∀ p t a k, r p t = some (a, k) ↔ Allowed p.escaped a ∧ k = (source a).length ∧ source a <+: t

namespace Reads

variable (hr : r.Reads source Allowed)
include hr

/-- Such a reader does not look beyond what it takes. -/
theorem isLocal :
  r.IsLocal
  := by
  intro p t u a k
  rw [hr, hr]
  constructor
  · rintro ⟨ha, rfl, hfront⟩
    refine ⟨hfront.length_le, ha, rfl, ?_⟩
    apply hfront.trans (List.prefix_append t u)
  · rintro ⟨hle, ha, rfl, hfront⟩
    refine ⟨ha, rfl, ?_⟩
    apply List.prefix_of_prefix_length_le hfront (List.prefix_append t u) hle

/-- Of what stands before a place, it sees whether a backslash does. -/
theorem seesEscape :
  r.SeesEscape
  := by
  intro p q t h
  apply Option.ext
  rintro ⟨a, k⟩
  rw [hr, hr, h]

/-- What is taken is the source of a value that is allowed at the place. -/
theorem of_read {p : Place} {m : Match α} {n : Nat}
    (hread : r p (m.source ++ m.rest) = some (m.value, n))
    (htake : m.source = (m.source ++ m.rest).take n) :
  Allowed p.escaped m.value ∧ m.source = source m.value
  := by
  obtain ⟨hallowed, hlength, hfront⟩ := (hr p _ _ _).mp hread
  use hallowed
  rw [hlength] at htake
  rw [htake]
  apply (List.prefix_iff_eq_take.mp hfront).symm

/-- A match is the source of a value that is allowed where it stands. -/
theorem of_isRead {p : Place} {m : Match α} {n : Nat} (h : IsRead r p m n) :
  Allowed p.escaped m.value ∧ m.source = source m.value
  := hr.of_read h.read h.source_eq

/-- The source of an allowed value is read as a match. -/
theorem isRead
    {p : Place} {a : α} (ha : Allowed p.escaped a) (hne : source a ≠ []) (rest : Text) :
  IsRead r p ⟨p.offset, source a, a, rest⟩ ((source a).length - 1)
  := by
  have hpos := List.length_pos_iff.mpr hne
  constructor
  · rfl
  · exact hne
  · apply (hr p _ _ _).mpr
    refine ⟨ha, by dsimp only; omega, List.prefix_append _ _⟩
  · dsimp only
    rw [Nat.sub_add_cancel hpos, List.take_left]

/-- It passes where nothing that it reads stands. -/
theorem passes_iff {p : Place} {t : Text} :
  r.Passes p t ↔ ∀ a, Allowed p.escaped a → source a ≠ [] → ¬ source a <+: t
  := by
  constructor
  · intro h a ha hne hfront
    have hpos := List.length_pos_iff.mpr hne
    apply h a ((source a).length - 1)
    apply (hr p _ _ _).mpr
    exact ⟨ha, by omega, hfront⟩
  · intro h a k hread
    obtain ⟨ha, hlength, hfront⟩ := (hr p _ _ _).mp hread
    apply h a ha _ hfront
    apply List.length_pos_iff.mp
    omega

end Reads

end Reader

namespace Delimiter

/-- An inline formula that is read where no backslash stands before it: on one line, up to the
first closing delimiter behind its first character. -/
def IsInline (escaped : Bool) (e : Enclosure) : Prop :=
  escaped = false ∧ ∃ c b, e = ⟨[], [], ['\\', '('], c :: b, ['\\', ')']⟩
    ∧ '\n' ∉ c :: b ∧ ¬ ['\\', ')'] <:+: b ++ ['\\']

namespace IsInline

variable {escaped : Bool} {e : Enclosure} (h : IsInline escaped e)
include h

/-- A formula in backslash parentheses stands between its delimiters. -/
theorem source_eq :
  e.source = ['\\', '('] ++ (e.body ++ ['\\', ')'])
  := by
  obtain ⟨-, c, b, rfl, -⟩ := h
  rfl

/-- It starts with a backslash. -/
theorem head?_source (t : Text) :
  (e.source ++ t).head? = some '\\'
  := by
  rw [h.source_eq]
  rfl

/-- It stands on one line. -/
theorem newline_not_mem_source :
  '\n' ∉ e.source
  := by
  obtain ⟨-, c, b, rfl, hline, -⟩ := h
  simpa [Enclosure.source] using hline

/-- It ends with a parenthesis. -/
theorem getLast?_source :
  e.source.getLast? = some ')'
  := by
  rw [h.source_eq, ← List.append_assoc]
  apply List.getLast?_append_of_ne_nil _ (List.cons_ne_nil _ _)

end IsInline

/-- Formulas in backslash parentheses are read where they stand. -/
theorem reads_inline :
  inline.reader.Reads Enclosure.source IsInline
  := by
  intro p t e k
  have hclose : ∀ {t b n}, Pattern.upTo (.literal ['\\', ')']) t = some (b, n)
      ↔ n = 2 ∧ b ++ ['\\', ')'] <+: t ∧ ¬ ['\\', ')'] <:+: b ++ ['\\'] :=
    Pattern.upTo_literal_eq_some_iff (w := ['\\']) (x := ')')
  rw [reader, readInline.eq_def]
  constructor
  · intro h
    split at h
    · next c cs =>
      simp only [Option.ite_none_left_eq_some, Option.map_eq_some_iff, Bool.or_eq_true,
        decide_eq_true_eq, not_or, Bool.not_eq_true] at h
      obtain ⟨⟨hescaped, hc⟩, ⟨b, n⟩, hb, heq⟩ := h
      obtain ⟨rfl, rfl⟩ := Prod.mk.inj heq
      obtain ⟨-, hfront, hfirst⟩ := hclose.mp hb
      refine ⟨⟨hescaped, c, b, rfl, ?_, hfirst⟩, ?_, ?_⟩
      · rw [List.mem_cons, not_or]
        use fun h => hc h.symm
        intro hmem
        have hline := hfront.subset (List.mem_append_left _ hmem)
        simpa using List.mem_takeWhile_imp hline
      · simp [Enclosure.source]
      · simp only [Enclosure.source, List.nil_append, List.cons_append, List.cons_prefix_cons,
          true_and]
        apply hfront.trans (List.takeWhile_prefix _)
    · cases h
  · rintro ⟨⟨hescaped, c, b, rfl, hline, hfirst⟩, rfl, rest, rfl⟩
    rw [List.mem_cons, not_or] at hline
    have hbody : Pattern.upTo (.literal ['\\', ')'])
        ((b ++ ['\\', ')'] ++ rest).takeWhile (· ≠ '\n')) = some (b, 2) := by
      apply hclose.mpr
      refine ⟨rfl, ?_, hfirst⟩
      rw [List.takeWhile_append_of_pos]
      · apply List.prefix_append
      · intro d hd
        rw [decide_eq_true_eq]
        rintro rfl
        simp [hline.2] at hd
    have hc : c ≠ '\n' := fun h => hline.1 h.symm
    simp only [Enclosure.source, List.nil_append, List.cons_append, hescaped, Bool.false_or,
      hc, decide_false, Bool.false_eq_true, if_false]
    rw [hbody]
    simp

/-- None starts with anything but a backslash. -/
theorem passes_inline_of_ne {p : Place} {c : Char} {t : Text} (hc : c ≠ '\\') :
  inline.reader.Passes p (c :: t)
  := by
  rw [reads_inline.passes_iff]
  rintro e he - ⟨u, hu⟩
  have hhead := congrArg List.head? hu
  rw [he.head?_source] at hhead
  apply hc
  apply (Option.some.inj hhead).symm

/-- Where no formula is read, none is read when more text follows, if the line ends before it or
no closing parenthesis follows on the line. -/
theorem passes_inline_append
    {p : Place} {t u : Text} (hline : '\n' ∈ t ∨ ')' ∉ u.takeWhile (· ≠ '\n'))
    (h : inline.reader.Passes p t) :
  inline.reader.Passes p (t ++ u)
  := by
  rw [reads_inline.passes_iff] at h ⊢
  intro e he hne hfront
  rcases List.prefix_or_prefix_of_prefix hfront (List.prefix_append t u) with hin | ⟨y, hy⟩
  · exact h e he hne hin
  · have hu : y <+: u := by
      rw [← hy] at hfront
      apply (List.prefix_append_right_inj _).mp hfront
    have hyne : y ≠ [] := by
      rintro rfl
      rw [List.append_nil] at hy
      apply h e he hne
      use []
      rw [List.append_nil, hy]
    have hsource := he.newline_not_mem_source
    rw [← hy, List.mem_append, not_or] at hsource
    rcases hline with hmem | hmem
    · exact hsource.1 hmem
    · apply hmem
      obtain ⟨w, rfl⟩ := hu
      rw [List.takeWhile_append_of_pos]
      · apply List.mem_append_left
        apply List.mem_of_getLast?
        rw [← List.getLast?_append_of_ne_nil t hyne, hy]
        apply he.getLast?_source
      · intro d hd
        rw [decide_eq_true_eq]
        rintro rfl
        exact hsource.2 hd

/-- A text is read in two parts, if no formula can close on the first line of the second part. -/
theorem entries_inline_append {p : Place} {s t : Text} (h : ')' ∉ t.takeWhile (· ≠ '\n')) :
  inline.reader.entries p (s ++ t)
    = inline.reader.entries p s ++ inline.reader.entries (p.after s) t
  := by
  apply reads_inline.isLocal.entries_append_of_passes
  intro u c v _ _ hpass
  apply passes_inline_append (t := c :: v) (.inr h) hpass

/-- A bracket that is read: it is not empty, and ends at its only closing bracket. -/
def IsBracket (e : Enclosure) : Prop :=
  ∃ body, e = ⟨[], [], ['['], body, [']']⟩ ∧ body ≠ [] ∧ ']' ∉ body

/-- Brackets are read where they stand. -/
theorem reads_bracket :
  bracket.reader.Reads Enclosure.source fun _ => IsBracket
  := by
  intro p t e k
  have hclose : ∀ {t b n}, Pattern.upTo (.literal [']']) t = some (b, n)
      ↔ n = 1 ∧ b ++ [']'] <+: t ∧ ']' ∉ b := by
    intro t b n
    have hiff : Pattern.upTo (.literal ([] ++ [']'])) t = some (b, n) ↔ _ :=
      Pattern.upTo_literal_eq_some_iff
    rwa [List.append_nil, List.nil_append, List.singleton_infix_iff] at hiff
  rw [reader, readBracket.eq_def]
  constructor
  · intro h
    split at h
    · next cs =>
      split at h
      · next c b n hb =>
        obtain ⟨rfl, rfl⟩ := Prod.mk.inj (Option.some.inj h)
        obtain ⟨-, hfront, hfirst⟩ := hclose.mp hb
        refine ⟨⟨c :: b, rfl, List.cons_ne_nil c b, hfirst⟩, ?_, ?_⟩
        · simp [Enclosure.source]
        · simpa [Enclosure.source] using hfront
      · cases h
    · cases h
  · rintro ⟨⟨b, rfl, hne, hfirst⟩, rfl, rest, rfl⟩
    have hbody : Pattern.upTo (.literal [']']) (b ++ [']'] ++ rest) = some (b, 1) :=
      hclose.mpr ⟨rfl, List.prefix_append _ _, hfirst⟩
    obtain ⟨c, b, rfl⟩ := List.exists_cons_of_ne_nil hne
    have htext : Enclosure.source ⟨[], [], ['['], c :: b, [']']⟩ ++ rest
        = '[' :: (c :: b ++ [']'] ++ rest) := by simp [Enclosure.source]
    simp only [htext, hbody]
    simp [Enclosure.source]

end Delimiter

namespace Dollars

/-- The characters of dollar mathematics. -/
def source : Dollars → Text
  | display body => ['$', '$'] ++ body ++ ['$', '$']
  | inline body => ['$'] ++ body ++ ['$']

/-- A display that is read. -/
def IsDisplay (d : Dollars) : Prop :=
  ∃ body, d = display body ∧ ¬ ['$', '$'] <:+: body ++ ['$']

/-- Displays are read where they stand. -/
theorem reads_displays :
  (read .displays).Reads source fun _ => IsDisplay
  := by
  intro p t d k
  have hclose : ∀ {t b n}, Pattern.upTo (.literal ['$', '$']) t = some (b, n)
      ↔ n = 2 ∧ b ++ ['$', '$'] <+: t ∧ ¬ ['$', '$'] <:+: b ++ ['$'] :=
    Pattern.upTo_literal_eq_some_iff (w := ['$']) (x := '$')
  constructor
  · intro h
    rw [read.eq_def] at h
    split at h
    · next cs =>
      obtain ⟨⟨b, n⟩, hb, heq⟩ := Option.map_eq_some_iff.mp h
      obtain ⟨rfl, rfl⟩ := Prod.mk.inj heq
      obtain ⟨-, hfront, hfirst⟩ := hclose.mp hb
      refine ⟨⟨b, rfl, hfirst⟩, ?_, ?_⟩
      · simp [source]
      · simpa only [source, List.cons_append, List.nil_append, List.cons_prefix_cons, true_and]
    · cases h
    · cases h
  · rintro ⟨⟨b, rfl, hfirst⟩, rfl, rest, rfl⟩
    have hbody : Pattern.upTo (.literal ['$', '$']) (b ++ ['$', '$'] ++ rest) = some (b, 2) :=
      hclose.mpr ⟨rfl, List.prefix_append _ _, hfirst⟩
    simp only [source, List.nil_append, List.cons_append, read]
    rw [hbody]
    simp

/-- Dollar mathematics that is read has the characters taken. -/
theorem source_of_read {scope : Scope} {p : Place} {t : Text} {d : Dollars} {k : Nat}
    (h : read scope p t = some (d, k)) :
  d.source = t.take k
  := by
  rw [read.eq_def] at h
  split at h
  · next cs =>
    have hdisplay : read .displays p ('$' :: '$' :: cs) = some (d, k) := h
    obtain ⟨-, rfl, hfront⟩ := (reads_displays p _ d k).mp hdisplay
    exact List.prefix_iff_eq_take.mp hfront
  · next cs _ =>
    cases scope with
    | displays => cases h
    | all =>
      have hcs := List.takeWhile_append_dropWhile (p := (· ≠ '$')) (l := cs)
      have hend := List.head?_dropWhile_not (· ≠ '$') cs
      dsimp only at h
      generalize cs.takeWhile (· ≠ '$') = body at h hcs
      generalize cs.dropWhile (· ≠ '$') = tail at hcs hend
      rw [← hcs, List.drop_left] at h
      split at h
      · cases h
      · next c after =>
        obtain ⟨-, heq⟩ := Option.ite_none_right_eq_some.mp h
        obtain ⟨rfl, rfl⟩ := Prod.mk.inj (Option.some.inj heq)
        obtain rfl : c = '$' := by simpa using hend
        rw [← hcs]
        simp [source, List.take_append]
  · cases h

end Dollars

end DollarMath
