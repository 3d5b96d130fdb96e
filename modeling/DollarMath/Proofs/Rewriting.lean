import DollarMath.Proofs.Clear
import DollarMath.Proofs.Edits
import DollarMath.Proofs.Neighbours

/-!
# Entries that are rewritten

Edits that stand apart from the dollar mathematics of a text, and write dollar mathematics, perhaps
with a marker in front of it, keep all other entries.  What stands in the edited text outside of
what is written stood in the text before, between what has become its neighbours.
-/

namespace DollarMath

/-- What may be kept and what may be written in a text. -/
structure Rules where
  /-- What starts with `y` may be kept behind `x`. -/
  Keeps (x y : Text) : Prop
  /-- Between `x` and `y`, a marker and dollar mathematics may be written for `s`. -/
  Writes (x s marker : Text) (d : Dollars) (y : Text) : Prop

open Entries

/-- Entries behind the text `x` and before the text `z` are kept, or dollar mathematics is written
for their characters. -/
inductive Rewrites (R : Rules) (z : Text) : Text → Entries → Entries → Prop
  /-- There are none. -/
  | nil (x : Text) : Rewrites R z x [] []
  /-- An entry is kept. -/
  | keep {x : Text} {e : Option Dollars × Text} {es es' : Entries}
      (hkeep : R.Keeps x (e.2 ++ (text es ++ z))) (hes : Rewrites R z (x ++ e.2) es es') :
      Rewrites R z x (e :: es) (e :: es')
  /-- Characters are written over. -/
  | write {x s marker : Text} {d : Dollars} {es es' : Entries}
      (hwrite : R.Writes x s marker d (text es ++ z)) (hes : Rewrites R z (x ++ s) es es') :
      Rewrites R z x (chars s ++ es) (chars marker ++ (some d, d.source) :: es')

namespace Rewrites

variable {R : Rules} {x z : Text} {es es' : Entries}

/-- Entries side by side may be rewritten each by itself. -/
theorem append {bs bs' : Entries} (hes : Rewrites R (text bs ++ z) x es es')
    (hbs : Rewrites R z (x ++ text es) bs bs') :
  Rewrites R z x (es ++ bs) (es' ++ bs')
  := by
  induction hes with
  | nil x =>
    rw [text_nil, List.append_nil] at hbs
    exact hbs
  | keep hkeep _ ih =>
    rw [text_cons, ← List.append_assoc] at hbs
    rw [← List.append_assoc (text _), ← text_append] at hkeep
    exact .keep hkeep (ih hbs)
  | write hwrite _ ih =>
    rw [text_append, text_chars, ← List.append_assoc] at hbs
    rw [← List.append_assoc, ← text_append] at hwrite
    rw [List.append_assoc, List.append_assoc]
    exact .write hwrite (ih hbs)

/-- Rules that allow the same between more text. -/
theorem shift {S : Rules} {a b : Text} (h : Rewrites R z x es es')
    (hkeep : ∀ u y, R.Keeps u (y ++ z) → S.Keeps (a ++ u) (y ++ (z ++ b)))
    (hwrite : ∀ u s m d y, R.Writes u s m d (y ++ z) → S.Writes (a ++ u) s m d (y ++ (z ++ b))) :
  Rewrites S (z ++ b) (a ++ x) es es'
  := by
  induction h with
  | nil x => exact .nil (a ++ x)
  | @keep x e es es' hk _ ih =>
    apply Rewrites.keep
    · have hkept := hkeep _ (e.2 ++ text es) (by rwa [List.append_assoc])
      rwa [List.append_assoc] at hkept
    · rw [List.append_assoc]
      exact ih
  | write hw _ ih =>
    apply Rewrites.write (hwrite _ _ _ _ _ hw)
    rw [List.append_assoc]
    exact ih

/-! ### What stands beside -/

/-- The last entry is kept, or it is written. -/
theorem last_cases (h : Rewrites R z x es es') :
  (es = [] ∧ es' = [])
    ∨ (∃ A A' e, es = A ++ [e] ∧ es' = A' ++ [e])
    ∨ ∃ A A' s m d, es = A ++ chars s ∧ es' = A' ++ (chars m ++ [(some d, d.source)])
      ∧ R.Writes (x ++ text A) s m d z
  := by
  induction h with
  | nil => exact .inl ⟨rfl, rfl⟩
  | @keep x e es es' hkeep hes ih =>
    right
    rcases ih with ⟨rfl, rfl⟩ | ⟨A, A', e', rfl, rfl⟩ | ⟨A, A', s, m, d, rfl, rfl, hwrite⟩
    · exact .inl ⟨[], [], e, rfl, rfl⟩
    · exact .inl ⟨e :: A, e :: A', e', rfl, rfl⟩
    · refine .inr ⟨e :: A, e :: A', s, m, d, rfl, rfl, ?_⟩
      rwa [text_cons, ← List.append_assoc]
  | @write x s m d es es' hwrite hes ih =>
    right
    rcases ih with ⟨rfl, rfl⟩ | ⟨A, A', e', rfl, rfl⟩ | ⟨A, A', s', m', d', rfl, rfl, hwrite'⟩
    · refine .inr ⟨[], [], s, m, d, by simp, rfl, ?_⟩
      simpa using hwrite
    · exact .inl ⟨chars s ++ A, chars m ++ (some d, d.source) :: A', e', by simp, by simp⟩
    · refine .inr ⟨chars s ++ A, chars m ++ (some d, d.source) :: A', s', m', d', by simp,
        by simp, ?_⟩
      rwa [text_append, text_chars, ← List.append_assoc]

/-! ### What stands between -/

/-- Dollar mathematics of the new entries is kept, or it is written. -/
theorem cases_of_math {A' B' : Entries} {d : Dollars} {t : Text}
    (h : Rewrites R z x es (A' ++ (some d, t) :: B')) :
  (∃ A B, es = A ++ (some d, t) :: B ∧ Rewrites R (t ++ (text B ++ z)) x A A'
      ∧ Rewrites R z (x ++ (text A ++ t)) B B')
    ∨ ∃ A B C s m, es = A ++ (chars s ++ B) ∧ A' = C ++ chars m ∧ t = d.source
      ∧ R.Writes (x ++ text A) s m d (text B ++ z)
  := by
  generalize hes' : A' ++ (some d, t) :: B' = es' at h
  induction h generalizing A' with
  | nil => simp at hes'
  | @keep x e es es' hkeep hes ih =>
    cases A' with
    | nil =>
      obtain ⟨rfl, rfl⟩ := List.cons.inj hes'
      refine .inl ⟨[], es, rfl, .nil x, ?_⟩
      rwa [text_nil, List.nil_append]
    | cons e' A' =>
      obtain ⟨rfl, htail⟩ := List.cons.inj hes'
      rcases ih htail with ⟨A, B, rfl, hA, hB⟩ | ⟨A, B, C, s, m, rfl, rfl, rfl, hwrite⟩
      · refine .inl ⟨e' :: A, B, rfl, .keep ?_ hA, ?_⟩
        · simpa using hkeep
        · simpa using hB
      · refine .inr ⟨e' :: A, B, e' :: C, s, m, rfl, rfl, rfl, ?_⟩
        simpa using hwrite
  | @write x s m d' es es' hwrite hes ih =>
    rcases List.append_eq_append_iff.mp hes' with ⟨C, hC, htail⟩ | ⟨C, rfl, htail⟩
    · cases C with
      | nil =>
        obtain ⟨heq, rfl⟩ := List.cons.inj htail
        obtain ⟨hd, rfl⟩ := Prod.mk.inj heq
        obtain rfl := Option.some.inj hd
        rw [List.append_nil] at hC
        refine .inr ⟨[], es, [], s, m, rfl, hC.symm, rfl, ?_⟩
        simpa using hwrite
      | cons e C =>
        obtain ⟨rfl, -⟩ := List.cons.inj htail
        have hnone := eq_none_of_mem_chars (hC ▸ List.mem_append_right A' List.mem_cons_self)
        cases hnone
    · cases C with
      | nil =>
        obtain ⟨heq, rfl⟩ := List.cons.inj htail
        obtain ⟨hd, rfl⟩ := Prod.mk.inj heq
        obtain rfl := Option.some.inj hd
        refine .inr ⟨[], es, [], s, m, rfl, by simp, rfl, ?_⟩
        simpa using hwrite
      | cons e C =>
        obtain ⟨rfl, hrest⟩ := List.cons.inj htail
        rcases ih hrest.symm with ⟨A, B, rfl, hA, hB⟩ | ⟨A, B, D, s', m', rfl, rfl, rfl, hwrite'⟩
        · refine .inl ⟨chars s ++ A, B, by simp, .write ?_ hA, ?_⟩
          · simpa using hwrite
          · simpa using hB
        · refine .inr ⟨chars s ++ A, B, chars m ++ (some d', d'.source) :: D, s', m', by simp,
            by simp, rfl, ?_⟩
          simpa using hwrite'

/-- Characters in front of the new entries are kept, if no end of them is the front of a marker. -/
theorem exists_of_chars {s : Text} {B' : Entries} (h : Rewrites R z x es (chars s ++ B'))
    (hmarker : ∀ x s' m d y, R.Writes x s' m d y → ∀ u, u ≠ [] → u <:+ s → ¬ u <+: m) :
  ∃ B, es = chars s ++ B ∧ Rewrites R z (x ++ s) B B'
    ∧ ∀ u v, s = u ++ v → v ≠ [] → R.Keeps (x ++ u) (v ++ (text B ++ z))
  := by
  induction s generalizing x es with
  | nil =>
    refine ⟨es, rfl, by rwa [List.append_nil], fun u v hs hne => absurd ?_ hne⟩
    exact (List.nil_eq_append_iff.mp hs).2
  | cons c s ih =>
    generalize hes' : chars (c :: s) ++ B' = es' at h
    cases h with
    | nil => cases hes'
    | @keep _ e es es' hkeep hes =>
      obtain ⟨rfl, rfl⟩ := List.cons.inj hes'
      obtain ⟨B, rfl, hB, hkept⟩ := ih hes fun x s' m d y hwrite u hu hsuffix =>
        hmarker x s' m d y hwrite u hu (hsuffix.trans (List.suffix_cons c s))
      refine ⟨B, rfl, ?_, fun u v hs hne => ?_⟩
      · simpa using hB
      · cases u with
        | nil =>
          rw [List.nil_append] at hs
          rw [← hs]
          simpa using hkeep
        | cons d u =>
          obtain ⟨rfl, htail⟩ := List.cons.inj hs
          simpa using hkept u v htail hne
    | @write _ s' m d es es' hwrite hes =>
      exfalso
      rcases List.append_eq_append_iff.mp hes' with ⟨C, hm, htail⟩ | ⟨C, hs, htail⟩
      · apply hmarker _ _ _ _ _ hwrite (c :: s) (List.cons_ne_nil c s) List.suffix_rfl
        have htext := congrArg text hm
        rw [text_append, text_chars, text_chars] at htext
        exact ⟨text C, htext.symm⟩
      · cases C with
        | nil =>
          apply hmarker _ _ _ _ _ hwrite (c :: s) (List.cons_ne_nil c s) List.suffix_rfl
          have htext := congrArg text hs
          rw [text_append, text_chars, text_chars, text_nil, List.append_nil] at htext
          rw [htext]
        | cons e C =>
          obtain ⟨rfl, -⟩ := List.cons.inj htail
          have hnone := eq_none_of_mem_chars
            (hs ▸ List.mem_append_right (chars m) List.mem_cons_self)
          cases hnone

/-- Characters among the new entries are kept, if no marker holds them and no end of them is the
front of one. -/
theorem exists_of_append_chars {s : Text} {A' B' : Entries}
    (h : Rewrites R z x es (A' ++ (chars s ++ B'))) (hne : s ≠ [])
    (hmarker : ∀ x s' m d y, R.Writes x s' m d y → ∀ u, u ≠ [] → u <:+ s → ¬ u <+: m)
    (hinside : ∀ x s' m d y, R.Writes x s' m d y → ¬ s <:+: m) :
  ∃ A B, es = A ++ (chars s ++ B) ∧ Rewrites R (s ++ (text B ++ z)) x A A'
    ∧ Rewrites R z (x ++ (text A ++ s)) B B'
    ∧ ∀ u v, s = u ++ v → v ≠ [] → R.Keeps (x ++ (text A ++ u)) (v ++ (text B ++ z))
  := by
  generalize hes' : A' ++ (chars s ++ B') = es' at h
  induction h generalizing A' with
  | nil x =>
    rw [List.append_eq_nil_iff, List.append_eq_nil_iff] at hes'
    obtain ⟨-, hs, -⟩ := hes'
    exact absurd (List.map_eq_nil_iff.mp hs) hne
  | @keep x e es es' hkeep hes ih =>
    cases A' with
    | nil =>
      rw [List.nil_append] at hes'
      have hwhole : Rewrites R z x (e :: es) (chars s ++ B') := by
        rw [hes']
        exact .keep hkeep hes
      obtain ⟨B, heq, hB, hkept⟩ := hwhole.exists_of_chars hmarker
      refine ⟨[], B, heq, .nil x, ?_, ?_⟩
      · simpa using hB
      · simpa using hkept
    | cons e' A' =>
      obtain ⟨rfl, htail⟩ := List.cons.inj hes'
      obtain ⟨A, B, rfl, hA, hB, hkept⟩ := ih htail
      refine ⟨e' :: A, B, rfl, .keep ?_ hA, ?_, ?_⟩
      · simpa using hkeep
      · simpa using hB
      · simpa using hkept
  | @write x s' m d es es' hwrite hes ih =>
    rcases List.append_eq_append_iff.mp hes' with ⟨C, hC, htail⟩ | ⟨C, rfl, htail⟩
    · exfalso
      have hm := congrArg text hC
      rw [text_append, text_chars] at hm
      rcases List.append_eq_append_iff.mp htail with ⟨D, rfl, -⟩ | ⟨D, hs, htail⟩
      · apply hinside _ _ _ _ _ hwrite
        rw [text_append, text_chars] at hm
        exact ⟨text A', text D, by rw [hm, List.append_assoc]⟩
      · cases D with
        | nil =>
          rw [List.append_nil] at hs
          rw [← hs, text_chars] at hm
          apply hinside _ _ _ _ _ hwrite
          exact ⟨text A', [], by rw [hm, List.append_nil]⟩
        | cons e D =>
          obtain ⟨rfl, -⟩ := List.cons.inj htail
          have hnone := eq_none_of_mem_chars (hs ▸ List.mem_append_right C List.mem_cons_self)
          cases hnone
    · cases C with
      | nil =>
        exfalso
        cases s with
        | nil => exact hne rfl
        | cons c s => cases (List.cons.inj htail).1
      | cons e C =>
        obtain ⟨rfl, hrest⟩ := List.cons.inj htail
        obtain ⟨A, B, rfl, hA, hB, hkept⟩ := ih hrest.symm
        refine ⟨chars s' ++ A, B, by simp, .write ?_ hA, ?_, ?_⟩
        · simpa using hwrite
        · simpa using hB
        · simpa using hkept

/-- Entries that may all be kept. -/
theorem kept (h : ∀ A e B, es = A ++ e :: B → R.Keeps (x ++ text A) (e.2 ++ (text B ++ z))) :
  Rewrites R z x es es
  := by
  induction es generalizing x with
  | nil => exact .nil x
  | cons e es ih =>
    apply Rewrites.keep
    · simpa using h [] e es rfl
    · apply ih
      rintro A e' B rfl
      simpa using h (e :: A) e' B rfl

/-- The new entries start as the old ones do, or with what is written. -/
theorem head?_text (h : Rewrites R z x es es') :
  (text es' ++ z).head? = (text es ++ z).head?
    ∨ ∃ s m d y, R.Writes x s m d y ∧ text es ++ z = s ++ y
      ∧ (text es' ++ z).head? = (m ++ ['$']).head?
  := by
  induction h with
  | nil x => exact .inl rfl
  | @keep x e es es' hkeep hes ih =>
    obtain ⟨e, s⟩ := e
    rw [text_cons, text_cons, List.append_assoc, List.append_assoc]
    cases s with
    | cons c s => exact .inl rfl
    | nil =>
      rw [List.append_nil] at ih
      exact ih
  | @write x s m d es es' hwrite hes ih =>
    right
    refine ⟨s, m, d, _, hwrite, by simp, ?_⟩
    rw [text_append, text_chars, text_cons, List.append_assoc, List.head?_append,
      List.append_assoc, d.head?_source, List.head?_append]
    rfl

end Rewrites

/-! ### Entries that are read again -/

/-- What is written in a text whose dollars are read, and read with it: a display that stands
beside no inline formula. -/
structure Rules.WritesDisplays (R : Rules) : Prop where
  /-- A display holds no doubled dollar. -/
  isDisplay : ∀ {x s m d y}, R.Writes x s m d y → d.IsDisplay
  /-- A marker has no dollar. -/
  marker : ∀ {x s m d y}, R.Writes x s m d y → '$' ∉ m
  /-- Before the display stands no inline formula. -/
  before : ∀ {x s m d y}, R.Writes x s m d y → x.getLast? = some '$' → m = [] ∧ ['$', '$'] <:+ x
  /-- Behind the display stands no inline formula. -/
  behind : ∀ {x s m d y}, R.Writes x s m d y → y.head? = some '$' → ['$', '$'] <+: y

/-- What is written in a text whose dollars are read, and read with it: an inline formula that
may stand where it does, but for dollars beside it. -/
structure Rules.WritesInlines (R : Rules) : Prop where
  /-- An inline formula is written, with no marker. -/
  isInline : ∀ {x s m d y}, R.Writes x s m d y →
    m = [] ∧ ∃ body, d = .inline body ∧ Dollars.isInlineBody .start body = true ∧ '$' ∉ body
  /-- No backslash stands before it. -/
  before : ∀ {x s m d y}, R.Writes x s m d y → x.getLast? ≠ some '\\'
  /-- No digit stands behind it. -/
  behind : ∀ {x s m d y}, R.Writes x s m d y → ∀ c ∈ y.head?, isDigit c = false

namespace Dollars

/-- An inline formula neither starts nor ends with a doubled dollar. -/
theorem not_doubled_inline {body : Text} (hne : body ≠ []) (h : '$' ∉ body) :
  (∀ y, ¬ ['$', '$'] <+: (inline body).source ++ y)
    ∧ ∀ x, ¬ ['$', '$'] <:+ x ++ (inline body).source
  := by
  constructor
  · rintro y ⟨u, hu⟩
    cases body with
    | nil => exact hne rfl
    | cons c body =>
      obtain ⟨-, hc⟩ := List.cons.inj hu
      obtain ⟨rfl, -⟩ := List.cons.inj hc
      exact h List.mem_cons_self
  · rintro x ⟨u, hu⟩
    obtain ⟨s, c, rfl⟩ := (List.eq_nil_or_concat' body).resolve_left hne
    have hends : u ++ ['$'] ++ ['$'] = x ++ (['$'] ++ s ++ [c]) ++ ['$'] := by
      simpa [source] using hu
    have hlast := congrArg List.getLast? (List.append_cancel_right hends)
    rw [← List.append_assoc, List.getLast?_concat, List.getLast?_concat] at hlast
    obtain rfl := Option.some.inj hlast
    exact h (List.mem_append_right s List.mem_cons_self)

/-- An inline formula fits between texts with which it makes no doubled dollar, if no backslash
stands before it and no digit behind it. -/
theorem fits_inline {p : Place} {body w y : Text} (hbody : isInlineBody p body = true)
    (hdollar : '$' ∉ body) (hdouble : Separates '$' '$' (w ++ (inline body).source ++ y))
    (hw : w.getLast? ≠ some '\\') (hy : ∀ c ∈ y.head?, isDigit c = false) :
  (inline body).Fits w.getLast? y.head?
  := by
  obtain ⟨-, hshape⟩ := isInlineBody_iff.mp hbody
  obtain ⟨hleft, -, hright⟩ := Separates.append_iff.mp hdouble
  obtain ⟨-, -, hleft⟩ := Separates.append_iff.mp hleft
  refine ⟨isInlineBody_iff.mpr ⟨⟨hw, fun hlast => hleft ⟨hlast, rfl⟩⟩, hshape⟩, hdollar, ?_⟩
  intro c hc
  refine ⟨hy c hc, ?_⟩
  rintro rfl
  apply hright
  rw [List.getLast?_append_of_ne_nil _ (inline body).source_ne_nil, getLast?_source]
  exact ⟨rfl, hc⟩

end Dollars

namespace Rewrites

variable {R : Rules} {x z : Text} {es es' : Entries}

/-- Where displays are written beside no inline formulas, all dollars are read again. -/
theorem areRead_of_writesDisplays (h : Rewrites R z x es es') (hR : R.WritesDisplays)
    (hes : AreRead z.head? x.getLast? es) {w : Text}
    (hx : w.getLast? = x.getLast? ∨ w.getLast? = some '$'
      ∧ ((text es ++ z).head? = some '$' → ['$', '$'] <+: text es ++ z)) :
  AreRead z.head? w.getLast? es'
  := by
  induction h generalizing w with
  | nil x => exact .nil
  | @keep x e es es' hkeep hrest ih =>
    cases hes with
    | char c hc hes =>
      apply AreRead.char c hc
      rw [← List.getLast?_concat (l := w) (a := c)]
      apply ih
      · rwa [List.getLast?_concat]
      · rw [List.getLast?_concat, List.getLast?_concat]
        exact .inl rfl
    | math d hd hes =>
      have hlast : (x ++ d.source).getLast? = some '$' := by
        rw [List.getLast?_append_of_ne_nil _ d.source_ne_nil, d.getLast?_source]
      apply AreRead.math d
      · rw [← List.head?_append] at hd ⊢
        cases d with
        | display body => exact hd
        | inline body =>
          have hne := Dollars.ne_nil_of_isInlineBody hd.1
          obtain ⟨hfront, hend⟩ := Dollars.not_doubled_inline hne hd.2.1
          have hbefore : w.getLast? = x.getLast? := by
            rcases hx with hx | ⟨-, hx⟩
            · exact hx
            · rw [text_cons, List.append_assoc] at hx
              exact absurd (hx rfl) (hfront _)
          have hafter : (text es' ++ z).head? = (text es ++ z).head? := by
            rcases hrest.head?_text with hsame | ⟨s, m, d, y, hwrite, -, -⟩
            · exact hsame
            · exact absurd (hR.before hwrite hlast).2 (hend x)
          rwa [hbefore, hafter]
      · rw [← d.getLast?_source]
        apply ih
        · rwa [hlast]
        · left
          rw [hlast, d.getLast?_source]
  | @write x s m d es es' hwrite hrest ih =>
    obtain ⟨-, hes⟩ := areRead_append_iff.mp hes
    rw [text_chars, ← List.getLast?_append] at hes
    apply areRead_append_iff.mpr
    use areRead_chars (hR.marker hwrite)
    apply AreRead.math d
    · obtain ⟨body, rfl, hbody⟩ := hR.isDisplay hwrite
      exact hbody
    · rw [← d.getLast?_source]
      apply ih hes
      right
      use d.getLast?_source
      exact hR.behind hwrite

/-- Where inline formulas are written, no digit comes to stand in front of the new entries. -/
theorem isDigit_head?_text (h : Rewrites R z x es es') (hR : R.WritesInlines)
    (hdigit : ∀ c ∈ (text es ++ z).head?, isDigit c = false) :
  ∀ c ∈ (text es' ++ z).head?, isDigit c = false
  := by
  intro c hc
  rcases h.head?_text with hsame | ⟨s, m, d, y, hwrite, -, hhead⟩
  · rw [hsame] at hc
    exact hdigit c hc
  · obtain ⟨rfl, -⟩ := hR.isInline hwrite
    rw [hhead] at hc
    obtain rfl := Option.some.inj hc
    decide

/-- Where inline formulas are written and no dollars stand side by side, all dollars are read
again. -/
theorem areRead_of_writesInlines (h : Rewrites R z x es es') (hR : R.WritesInlines)
    (hes : AreRead z.head? x.getLast? es) {w : Text}
    (hdouble : Separates '$' '$' (w ++ (text es' ++ z)))
    (hx : w.getLast? = x.getLast? ∨ w.getLast? = some '$') :
  AreRead z.head? w.getLast? es'
  := by
  have hescape : ∀ {x w : Text}, w.getLast? = x.getLast? ∨ w.getLast? = some '$' →
      x.getLast? ≠ some '\\' → w.getLast? ≠ some '\\' := by
    rintro x w (hx | hx) hbefore
    · rwa [hx]
    · rw [hx]
      decide
  induction h generalizing w with
  | nil x => exact .nil
  | @keep x e es es' hkeep hrest ih =>
    rw [text_cons, List.append_assoc, ← List.append_assoc w] at hdouble
    cases hes with
    | char c hc hes =>
      apply AreRead.char c hc
      rw [← List.getLast?_concat (l := w) (a := c)]
      apply ih _ hdouble
      · rw [List.getLast?_concat, List.getLast?_concat]
        exact .inl rfl
      · rwa [List.getLast?_concat]
    | math d hd hes =>
      have hlast : ∀ u : Text, (u ++ d.source).getLast? = some '$' := by
        intro u
        rw [List.getLast?_append_of_ne_nil _ d.source_ne_nil, d.getLast?_source]
      apply AreRead.math d
      · rw [← List.head?_append] at hd ⊢
        cases d with
        | display body => exact hd
        | inline body =>
          obtain ⟨hbody, hdollar, hafter⟩ := hd
          apply Dollars.fits_inline hbody hdollar hdouble
          · exact hescape hx (Dollars.isInlineBody_iff.mp hbody).1.1
          · exact hrest.isDigit_head?_text hR fun c hc => (hafter c hc).1
      · rw [← hlast w]
        apply ih _ hdouble
        · rw [hlast, hlast]
          exact .inl rfl
        · rwa [hlast]
  | @write x s m d es es' hwrite hrest ih =>
    obtain ⟨-, hes⟩ := areRead_append_iff.mp hes
    rw [text_chars, ← List.getLast?_append] at hes
    obtain ⟨rfl, body, rfl, hbody, hdollar⟩ := hR.isInline hwrite
    have hlast : (w ++ (Dollars.inline body).source).getLast? = some '$' := by
      rw [List.getLast?_append_of_ne_nil _ (Dollars.source_ne_nil _), Dollars.getLast?_source]
    change Separates '$' '$' (w ++ (text ((some (Dollars.inline body), _) :: es') ++ z)) at hdouble
    rw [text_cons, List.append_assoc, ← List.append_assoc w] at hdouble
    apply AreRead.math (.inline body)
    · rw [← List.head?_append]
      apply Dollars.fits_inline hbody hdollar hdouble
      · exact hescape hx (hR.before hwrite)
      · exact hrest.isDigit_head?_text hR (hR.behind hwrite)
    · rw [← hlast]
      apply ih hes hdouble
      exact .inr hlast

end Rewrites

/-! ### Edits of entries -/

namespace Edits

variable {t : Text}

/-- What some edits of a text keep and write, if `P` relates an edit to the marker and the dollar
mathematics that it writes. -/
def rules (E : Edits t) (P : Edit → Text → Dollars → Prop) : Rules where
  Keeps x y := t = x ++ y ∧ ∀ e ∈ E.list, x.length < e.span.start ∨ e.span.stop ≤ x.length
  Writes x s m d y := t = x ++ (s ++ y)
    ∧ ∃ e ∈ E.list, e.span = ⟨x.length, x.length + s.length⟩ ∧ P e m d

/-- The edits touch no dollar mathematics, and write some, perhaps with a marker. -/
def WriteMath (E : Edits t) (P : Edit → Text → Dollars → Prop) : Prop :=
  ∀ e ∈ E.list,
    e.span.touches (dollarSpans .all t) = false ∧ ∃ m d, e.text = m ++ d.source ∧ P e m d

/-- The text around an edit. -/
theorem exists_eq_append {E : Edits t} {e : Edit} (he : e ∈ E.list) :
  ∃ x s y, t = x ++ (s ++ y) ∧ x.length = e.span.start ∧ x.length + s.length = e.span.stop
  := by
  obtain ⟨hlt, hle⟩ := E.within e he
  refine ⟨t.take e.span.start, (t.drop e.span.start).take (e.span.stop - e.span.start),
    t.drop e.span.stop, ?_, ?_, ?_⟩
  · have hdrop : t.drop e.span.stop
        = (t.drop e.span.start).drop (e.span.stop - e.span.start) := by
      rw [List.drop_drop, Nat.add_sub_cancel' (Nat.le_of_lt hlt)]
    rw [hdrop, List.take_append_drop, List.take_append_drop]
  · rw [List.length_take]
    omega
  · rw [List.length_take, List.length_take, List.length_drop]
    omega

end Edits

namespace Rewrites

variable {t : Text} {E : Edits t} {P : Edit → Text → Dollars → Prop}

/-- No entry of a text is empty. -/
theorem ne_nil_of_mem_entries {p : Place} {e : Option Dollars × Text}
    (he : e ∈ (Dollars.read .all).entries p t) :
  e.2 ≠ []
  := by
  obtain ⟨piece, hpiece, rfl⟩ := List.mem_map.mp he
  cases piece with
  | char c => exact List.cons_ne_nil c []
  | found m => exact Reader.source_ne_nil_of_mem_piecesFrom hpiece

/-- Characters that touch no dollar mathematics, behind the entries `A` of their text. -/
theorem exists_chars_behind {A D : Entries} {x s y : Text}
    (hread : (Dollars.read .all).entries .start t = A ++ D) (ht : t = x ++ (s ++ y))
    (htouches : Span.touches ⟨x.length, x.length + s.length⟩ (dollarSpans .all t) = false)
    (hle : (text A).length ≤ x.length) :
  ∃ G B, D = G ++ (chars s ++ B) ∧ text A ++ text G = x ∧ text B = y
  := by
  obtain ⟨A', B, hentries, hx, hy⟩ := Dollars.exists_chars_of_touches ht htouches
  rw [hread] at hentries
  rcases List.append_eq_append_iff.mp hentries with ⟨G, rfl, hD⟩ | ⟨C, rfl, hC⟩
  · exact ⟨G, B, hD, by rw [← hx, text_append], hy⟩
  · cases C with
    | nil =>
      rw [List.append_nil] at hle ⊢
      exact ⟨[], B, hC.symm, by rw [← hx, text_nil, List.append_nil], hy⟩
    | cons e C =>
      have he : e ∈ (Dollars.read .all).entries .start t := by simp [hread]
      have hpos := List.length_pos_iff.mpr (ne_nil_of_mem_entries he)
      rw [text_append, hx, text_cons, List.length_append, List.length_append] at hle
      omega

/-- Edits from a position on, at which an entry of the text starts. -/
theorem exists_of_edits_from (hE : E.WriteMath P) {L es : List Edit} {A D : Entries}
    (hlist : E.list = L ++ es) (hL : ∀ e ∈ L, e.span.stop ≤ (text A).length)
    (hes : ∀ e ∈ es, (text A).length ≤ e.span.start)
    (hread : (Dollars.read .all).entries .start t = A ++ D) :
  ∃ D', text D' = Edit.writeFrom t (text A).length es
    ∧ Rewrites (E.rules P) [] (text A) D D'
  := by
  have htext : t = text A ++ text D := by
    rw [← text_append, ← hread, text_entries]
  induction es generalizing L A D with
  | nil =>
    refine ⟨D, ?_, Rewrites.kept ?_⟩
    · conv_rhs => rw [htext]
      rw [Edit.writeFrom, List.drop_left]
    · rintro B e C rfl
      refine ⟨by simpa using htext, fun e' he' => .inr ?_⟩
      rw [hlist, List.append_nil] at he'
      have hle := hL e' he'
      rw [List.length_append]
      omega
  | cons e es ih =>
    have he : e ∈ E.list := by
      rw [hlist]
      exact List.mem_append_right L List.mem_cons_self
    have hlt := (E.within e he).1
    have hordered := E.ordered
    rw [hlist, List.pairwise_append, List.pairwise_cons] at hordered
    obtain ⟨-, ⟨hnext, -⟩, -⟩ := hordered
    have hstart := (List.forall_mem_cons.mp hes).1
    obtain ⟨x, s, y, heq, hx, hs⟩ := Edits.exists_eq_append he
    obtain ⟨htouches, m, d, hwritten, hP⟩ := hE e he
    obtain ⟨G, B, rfl, hG, hB⟩ := exists_chars_behind hread heq (by rwa [hs, hx])
      (by rwa [hx])
    have hgap : (text A).length + (text G).length = e.span.start := by
      rw [← hx, ← hG, List.length_append]
    have hstop : (text (A ++ (G ++ chars s))).length = e.span.stop := by
      rw [text_append, text_append, text_chars, ← List.append_assoc, hG, List.length_append, hs]
    obtain ⟨B', hB', hrewrites⟩ := ih (L := L ++ [e]) (A := A ++ (G ++ chars s)) (D := B)
      (by rw [hlist, List.append_assoc]; rfl)
      (by
        rw [List.forall_mem_append, hstop]
        refine ⟨fun e' he' => ?_, by simp⟩
        have hle := hL e' he'
        omega)
      (by rw [hstop]; exact hnext)
      (by rw [hread]; simp)
      (by rw [htext]; simp)
    refine ⟨G ++ (chars m ++ (some d, d.source) :: B'), ?_, ?_⟩
    · have hextract : t.extract (text A).length e.span.start = text G := by
        rw [htext, text_append, ← hgap]
        apply extract_append_append
      rw [Edit.writeFrom, hextract, hwritten, ← hstop, ← hB']
      simp
    · apply Rewrites.append
      · apply Rewrites.kept
        rintro C c C' rfl
        refine ⟨by simpa using htext, fun e' he' => ?_⟩
        have hc : c ∈ (Dollars.read .all).entries .start t := by simp [hread]
        have hpos := List.length_pos_iff.mpr (ne_nil_of_mem_entries hc)
        rw [text_append, text_cons, List.length_append, List.length_append] at hgap
        rw [List.length_append]
        rw [hlist, List.mem_append, List.mem_cons] at he'
        rcases he' with he' | rfl | he'
        · have hle := hL e' he'
          omega
        · omega
        · have hle := hnext e' he'
          omega
      · apply Rewrites.write
        · constructor
          · rw [List.append_nil, hB, hG]
            exact heq
          · exact ⟨e, he, by rw [hG, hs, hx], hP⟩
        · rw [text_append, text_append, text_chars, ← List.append_assoc] at hrewrites
          exact hrewrites

/-- Edits that touch no dollar mathematics rewrite the entries of their text. -/
theorem exists_of_edits (hE : E.WriteMath P) :
  ∃ es, text es = E.text
    ∧ Rewrites (E.rules P) [] [] ((Dollars.read .all).entries .start t) es
  := exists_of_edits_from hE (L := []) (A := []) rfl (by simp) (by simp) rfl

end Rewrites

end DollarMath
