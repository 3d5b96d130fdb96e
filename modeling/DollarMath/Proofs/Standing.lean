import DollarMath.Proofs.Blocks
import DollarMath.Proofs.Brackets
import DollarMath.Proofs.Collapsing
import DollarMath.Proofs.Rewriting

/-!
# Enclosures that stand in a rewritten text

A match stands in a text if it is read at its place, be it that the text is read there or that the
place belongs to a match that starts before it.  Where dollar mathematics is written in a text, and
all dollars are read again, a block of lines stands outside of it only if it stood in the text
before, and a bracket is found outside of it only if it was found before.
-/

namespace DollarMath

open Entries

/-- A match stands in a text: it is read at its place. -/
def Reader.StandsIn {α : Type} (r : Reader α) (t : Text) (m : Match α) : Prop :=
  ∃ x n, t = x ++ (m.source ++ m.rest) ∧ IsRead r (Place.start.after x) m n

/-- What is found in a text stands in it. -/
theorem Reader.standsIn_of_mem_findAll {α : Type} {r : Reader α} {t : Text} {m : Match α}
    (h : m ∈ r.findAll t) :
  r.StandsIn t m
  := by
  obtain ⟨x, n, ht, -, hread⟩ := exists_isRead_of_mem_findAll h
  exact ⟨x, n, ht, hread⟩

namespace Reader

variable {α : Type} {r : Reader α} {t : Text}

/-- The match that is read at a position of a text, if there is one. -/
def matchAt? (r : Reader α) (t : Text) (i : Nat) : Option (Match α) :=
  match r (Place.start.after (t.take i)) (t.drop i) with
  | some (a, n + 1) => some ⟨i, (t.drop i).take (n + 1), a, (t.drop i).drop (n + 1)⟩
  | _ => none

/-- The matches that stand in a text. -/
def standing (r : Reader α) (t : Text) : List (Match α) :=
  (List.range t.length).filterMap (r.matchAt? t)

theorem mem_standing_iff {m : Match α} :
  m ∈ r.standing t ↔ r.StandsIn t m
  := by
  rw [standing, List.mem_filterMap]
  constructor
  · rintro ⟨i, hi, hm⟩
    rw [List.mem_range] at hi
    rw [matchAt?] at hm
    split at hm
    · next a n hread =>
      obtain rfl := Option.some.inj hm
      have hcat := List.take_append_drop (n + 1) (t.drop i)
      refine ⟨t.take i, n, ?_, ?_, ?_, ?_, ?_⟩
      · dsimp only
        rw [hcat, List.take_append_drop]
      · rw [Place.after_offset, List.length_take, Nat.min_eq_left (Nat.le_of_lt hi)]
        exact (Nat.zero_add i).symm
      · rw [Ne, List.take_eq_nil_iff, List.drop_eq_nil_iff]
        omega
      · dsimp only
        rw [hcat, hread]
      · dsimp only
        rw [hcat]
    · cases hm
  · rintro ⟨x, n, rfl, hm⟩
    have hpos := List.length_pos_iff.mpr hm.source_ne_nil
    refine ⟨x.length, ?_, ?_⟩
    · rw [List.mem_range, List.length_append, List.length_append]
      omega
    · rw [matchAt?, List.take_left, List.drop_left, hm.read]
      dsimp only
      rw [← hm.source_eq, ← hm.rest_eq]
      have hstart : m.start = x.length := by
        rw [hm.start_eq, Place.after_offset]
        exact Nat.zero_add _
      rw [← hstart]

instance (P : Match α → Prop) [DecidablePred P] : Decidable (∀ m, r.StandsIn t m → P m) :=
  decidable_of_iff (∀ m ∈ r.standing t, P m) (by simp only [mem_standing_iff])

instance (P : Match α → Prop) [DecidablePred P] : Decidable (∃ m, r.StandsIn t m ∧ P m) :=
  decidable_of_iff (∃ m ∈ r.standing t, P m) (by simp only [mem_standing_iff])

end Reader

/-- The place behind a text is at the start of a line if the text is empty or ends a line. -/
theorem Place.atLineStart_start_after_iff {x : Text} :
  (start.after x).atLineStart = true ↔ ∀ c ∈ x.getLast?, c = '\n'
  := by
  rw [atLineStart, before_start_after]
  cases x.getLast? <;> simp

/-- A block that starts a line and stops before a line stop stands in a text with others around
it. -/
theorem Delimiter.standsIn_of_isRead {d : Delimiter} (hd : d.IsBlock) {p : Place}
    {m : Match Enclosure} {n : Nat} (h : Reader.IsRead d.reader p m n) {x y : Text}
    (hx : (Place.start.after x).atLineStart = true) (hy : IsLineStop y) :
  d.reader.StandsIn (x ++ (m.source ++ y)) ⟨x.length, m.source, m.value, y⟩
  := by
  obtain ⟨-, -, hform, hsource, hlength, hrest, hfirst⟩ := (isRead_iff_of_isBlock hd).mp h
  refine ⟨x, n, rfl, (isRead_iff_of_isBlock hd).mpr ⟨?_, hx, hform, hsource, hlength, hy, ?_⟩⟩
  · rw [Place.after_offset]
    exact (Nat.zero_add _).symm
  · exact hfirst.congr_rest hd (hasClosing_of_hasForm hd hform) hrest hy

/-- A block ends with a closing bracket and spaces behind it. -/
theorem Delimiter.exists_source_eq {d : Delimiter} (hd : d.IsBlock) {e : Enclosure}
    (h : d.HasForm e) :
  ∃ s sp, e.source = s ++ ']' :: sp ∧ IsSpaces sp
  := by
  have hclosing := hasClosing_of_hasForm hd h
  cases d with
  | quotedDisplay =>
    obtain ⟨n, s₁, s₂, heq, -, -, hs₂⟩ := hclosing
    exact ⟨e.indent ++ e.marker ++ e.opening ++ e.body ++ n ++ ['>'] ++ s₁ ++ ['\\'], s₂,
      by simp [Enclosure.source, heq], hs₂⟩
  | quotedBracket =>
    obtain ⟨n, s₁, s₂, heq, -, -, hs₂⟩ := hclosing
    exact ⟨e.indent ++ e.marker ++ e.opening ++ e.body ++ n ++ ['>'] ++ s₁, s₂,
      by simp [Enclosure.source, heq], hs₂⟩
  | bracketBlock =>
    obtain ⟨n, s₁, s₂, heq, -, -, hs₂⟩ := hclosing
    exact ⟨e.indent ++ e.marker ++ e.opening ++ e.body ++ n ++ s₁, s₂,
      by simp [Enclosure.source, heq], hs₂⟩
  | display | bracket | inline => cases hd

/-! ### Markers -/

namespace IsMarker

variable {m : Text} (h : IsMarker m)
include h

/-- A marker holds no closing bracket. -/
theorem closing_not_mem :
  ']' ∉ m
  := fun hmem => h.ne_of_mem (by decide) (by decide) hmem rfl

/-- A marker holds no dollar. -/
theorem dollar_not_mem :
  '$' ∉ m
  := fun hmem => h.ne_of_mem (by decide) (by decide) hmem rfl

/-- A marker does not start with a blank character. -/
theorem isBlank_of_head? :
  ∀ c ∈ m.head?, isBlank c = false
  := by
  rcases h with rfl | ⟨m, b, rfl, hne, hm, -⟩
  · simp
  · intro c hc
    rw [List.head?_append_of_ne_nil m hne] at hc
    exact Delimiter.isBlank_of_isMarkerChar (hm c (List.mem_of_mem_head? hc))

/-- No end of a text that ends with a closing bracket and spaces is the front of a marker. -/
theorem not_isPrefix {s sp u : Text} (hsp : IsSpaces sp) (hne : u ≠ [])
    (hsuffix : u <:+ s ++ ']' :: sp) :
  ¬ u <+: m
  := by
  intro hprefix
  obtain ⟨w, hw⟩ := hsuffix
  rcases List.append_eq_append_iff.mp hw with ⟨v, -, rfl⟩ | ⟨v, -, hv⟩
  · exact h.closing_not_mem (List.IsPrefix.subset hprefix (by simp))
  · cases v with
    | nil =>
      rw [List.nil_append] at hv
      exact h.closing_not_mem (List.IsPrefix.subset hprefix (by simp [← hv]))
    | cons c v =>
      obtain ⟨-, rfl⟩ := List.cons.inj hv
      obtain ⟨c, u, rfl⟩ := List.exists_cons_of_ne_nil hne
      obtain ⟨r, rfl⟩ := hprefix
      have hblank := h.isBlank_of_head? c rfl
      rw [isBlank_of_isSpaceOrTab (hsp c (by simp))] at hblank
      cases hblank

end IsMarker

/-! ### Blocks -/

/-- What is written in a text stands in place of characters, and does not change whether a bracket
is open behind it. -/
structure Rules.KeepsBrackets (R : Rules) : Prop where
  /-- Some characters are written over. -/
  source_ne_nil : ∀ {x s m d y}, R.Writes x s m d y → s ≠ []
  /-- A marker may be written in front of dollar mathematics. -/
  marker : ∀ {x s m d y}, R.Writes x s m d y → IsMarker m
  /-- No closing bracket comes up. -/
  closing : ∀ {x s m d y}, R.Writes x s m d y → ']' ∈ d.source → ']' ∈ s
  /-- An open bracket stays open. -/
  isClosed : ∀ {x s m d y}, R.Writes x s m d y → IsClosed d.source → IsClosed s
  /-- Behind a bracket no link is written over. -/
  link : ∀ {x s m d y}, R.Writes x s m d y → x.getLast? = some ']' →
    s.head? ≠ some '(' ∧ s.head? ≠ some ':'

/-- Entries that are read are not empty. -/
theorem Entries.AreRead.ne_nil {before after : Option Char} {es : Entries}
    (h : AreRead after before es) :
  ∀ e ∈ es, e.2 ≠ []
  := by
  induction h with
  | nil => simp
  | char c _ _ ih => exact List.forall_mem_cons.mpr ⟨List.cons_ne_nil c [], ih⟩
  | math d _ _ ih => exact List.forall_mem_cons.mpr ⟨d.source_ne_nil, ih⟩

namespace Rewrites

variable {R : Rules} {x z : Text} {es es' : Entries}

/-- If a line starts behind the new entries, then behind the old ones. -/
theorem atLineStart (h : Rewrites R z x es es') (hne : ∀ e ∈ es', e.2 ≠ [])
    (hline : (Place.start.after (text es')).atLineStart = true) :
  (Place.start.after (text es)).atLineStart = true
  := by
  rw [Place.atLineStart_start_after_iff] at hline ⊢
  rcases h.last_cases with ⟨rfl, rfl⟩ | ⟨A, A', e, rfl, rfl⟩ | ⟨A, A', s, m, d, rfl, rfl, -⟩
  · exact hline
  · have he := hne e (by simp)
    simpa [List.getLast?_append_of_ne_nil _ he] using hline
  · have hlast := hline '$' (by
      rw [text_append, text_append, text_cons, text_nil, List.append_nil, ← List.append_assoc,
        List.getLast?_append_of_ne_nil _ d.source_ne_nil]
      exact d.getLast?_source)
    cases hlast

/-- If a line stops before the new entries, then before the old ones. -/
theorem isLineStop (h : Rewrites R [] x es es') (hR : R.KeepsBrackets)
    (hstop : IsLineStop (text es')) :
  IsLineStop (text es)
  := by
  rcases h.head?_text with hsame | ⟨s, m, d, y, hwrite, -, hhead⟩
  · rw [List.append_nil, List.append_nil] at hsame
    rwa [IsLineStop, ← hsame]
  · rw [List.append_nil] at hhead
    have hblank := (hR.marker hwrite).isBlank_of_head?
    exfalso
    cases m with
    | nil =>
      have hlast := hstop '$' hhead
      cases hlast
    | cons c m =>
      obtain rfl := hstop c hhead
      cases hblank '\n' rfl

/-- Characters that end with a closing bracket and spaces stood in the text before. -/
theorem exists_of_closing (hR : R.KeepsBrackets) {A' B' : Entries} {s sp : Text}
    (hsp : IsSpaces sp)
    (h : Rewrites R z x es (A' ++ (chars (s ++ ']' :: sp) ++ B'))) :
  ∃ A B, es = A ++ (chars (s ++ ']' :: sp) ++ B)
    ∧ Rewrites R (s ++ ']' :: sp ++ (text B ++ z)) x A A'
    ∧ Rewrites R z (x ++ (text A ++ (s ++ ']' :: sp))) B B'
    ∧ R.Keeps (x ++ text A) (s ++ ']' :: sp ++ (text B ++ z))
  := by
  have hmarker : ∀ x s' m d y, R.Writes x s' m d y → ∀ u, u ≠ [] → u <:+ s ++ ']' :: sp →
      ¬ u <+: m :=
    fun x s' m d y hwrite u hu hsuffix => (hR.marker hwrite).not_isPrefix hsp hu hsuffix
  have hinside : ∀ x s' m d y, R.Writes x s' m d y → ¬ s ++ ']' :: sp <:+: m :=
    fun x s' m d y hwrite hinside =>
      (hR.marker hwrite).closing_not_mem (List.IsInfix.subset hinside (by simp))
  obtain ⟨A, B, heq, hA, hB, hkeeps⟩ := h.exists_of_append_chars (by simp) hmarker hinside
  refine ⟨A, B, heq, hA, hB, ?_⟩
  simpa using hkeeps [] _ rfl (by simp)

/-- A block among the new entries stood among the old ones. -/
theorem exists_standsIn {d : Delimiter} (hd : d.IsBlock) (hR : R.KeepsBrackets) {A' B' : Entries}
    {m : Match Enclosure} {n : Nat} (h : Rewrites R [] [] es (A' ++ (chars m.source ++ B')))
    (hne : ∀ e ∈ A', e.2 ≠ [])
    (hm : Reader.IsRead d.reader (Place.start.after (text A')) m n) (hrest : m.rest = text B') :
  ∃ A B, es = A ++ (chars m.source ++ B)
    ∧ d.reader.StandsIn (text es) ⟨(text A).length, m.source, m.value, text B⟩
    ∧ R.Keeps (text A) (m.source ++ text B)
  := by
  obtain ⟨-, hline, hform, hsource, -, hstop, -⟩ := (Delimiter.isRead_iff_of_isBlock hd).mp hm
  obtain ⟨s, sp, hends, hsp⟩ := Delimiter.exists_source_eq hd hform
  rw [hsource, hends] at h
  obtain ⟨A, B, rfl, hA, hB, hkeeps⟩ := h.exists_of_closing hR hsp
  rw [List.append_nil] at hkeeps
  rw [← hends, ← hsource] at hkeeps ⊢
  refine ⟨A, B, rfl, ?_, hkeeps⟩
  rw [text_append, text_append, text_chars]
  apply Delimiter.standsIn_of_isRead hd hm
  · exact hA.atLineStart hne hline
  · rw [hrest] at hstop
    exact hB.isLineStop hR hstop

/-- A block outside of the dollar mathematics of the new text stood in the text before, outside
of its dollar mathematics. -/
theorem exists_standsIn_of_touches {d : Delimiter} (hd : d.IsBlock) (hR : R.KeepsBrackets)
    (h : Rewrites R [] [] es es') (hes : AreRead none none es) (hes' : AreRead none none es')
    {m : Match Enclosure} (hm : d.reader.StandsIn (text es') m)
    (htouches : m.span.touches (dollarSpans .all (text es')) = false) :
  ∃ x y, R.Keeps x (m.source ++ y)
    ∧ d.reader.StandsIn (text es) ⟨x.length, m.source, m.value, y⟩
    ∧ Span.touches ⟨x.length, x.length + m.source.length⟩ (dollarSpans .all (text es)) = false
  := by
  obtain ⟨x, n, htext, hread⟩ := hm
  have hstart : m.start = x.length := by
    rw [hread.start_eq, Place.after_offset]
    exact Nat.zero_add _
  rw [Match.span, hstart] at htouches
  obtain ⟨A', B', hentries, rfl, hrest⟩ := Dollars.exists_chars_of_touches htext htouches
  rw [hes'.entries_eq] at hentries
  subst hentries
  obtain ⟨A, B, rfl, hstands, hkeeps⟩ := exists_standsIn hd hR h
    (fun e he => hes'.ne_nil e (List.mem_append_left _ he)) hread hrest.symm
  exact ⟨text A, text B, hkeeps, hstands, Dollars.touches_eq_false_of_chars hes.entries_eq⟩

end Rewrites

/-! ### Collapsible blocks -/

/-- A quoted block between plain brackets stands in a text that would be rewritten to one line. -/
def HoldsCollapsible (t : Text) : Prop :=
  ∃ m, Delimiter.quotedBracket.reader.StandsIn t m ∧ isCollapsible m = true

instance (t : Text) : Decidable (HoldsCollapsible t) :=
  inferInstanceAs (Decidable (∃ _, _ ∧ _))

/-- No collapsible block comes up in a text, if none does in what is written. -/
theorem Rewrites.not_holdsCollapsible {R : Rules} {es es' : Entries} (h : Rewrites R [] [] es es')
    (hR : R.KeepsBrackets) (hes' : AreRead none none es')
    (hwrites : ∀ {x s m d y}, R.Writes x s m d y → ¬ HoldsCollapsible d.source)
    (hnot : ¬ HoldsCollapsible (text es)) :
  ¬ HoldsCollapsible (text es')
  := by
  rintro ⟨m, ⟨x, n, htext, hread⟩, hcollapsible⟩
  have hd : Delimiter.quotedBracket.IsBlock := trivial
  obtain ⟨-, hline, hform, hsource, -, hstop, -⟩ := (Delimiter.isRead_iff_of_isBlock hd).mp hread
  have hdollar : '$' ∉ m.source := by
    rw [hsource]
    exact dollar_not_mem_of_isCollapsible hform hcollapsible
  rcases hes'.exists_chars_or_inside hdollar hread.source_ne_nil htext with
    ⟨A', B', rfl, rfl, hrest⟩ | ⟨A', d, B', a, c, rfl, hinside, ha, hc, rfl, hrest⟩
  · obtain ⟨A, B, rfl, hstands, -⟩ := Rewrites.exists_standsIn hd hR h
      (fun e he => hes'.ne_nil e (List.mem_append_left _ he)) hread hrest.symm
    exact hnot ⟨_, hstands, hcollapsible⟩
  · have hlast : ∀ u : Text, (Place.start.after (u ++ a)).atLineStart = true := by
      intro u
      rw [Place.atLineStart_start_after_iff, List.getLast?_append_of_ne_nil _ ha] at hline ⊢
      exact hline
    have hfirst : ∀ v : Text, IsLineStop (c ++ v) := by
      intro v
      rw [hrest] at hstop
      rw [IsLineStop, List.head?_append_of_ne_nil _ hc] at hstop ⊢
      exact hstop
    rcases h.cases_of_math with ⟨A, B, rfl, -, -⟩ | ⟨A, B, C, s, k, -, -, -, hwrite⟩
    · apply hnot
      have hstands := Delimiter.standsIn_of_isRead hd hread (hlast (text A)) (hfirst (text B))
      refine ⟨⟨(text A ++ a).length, m.source, m.value, c ++ text B⟩, ?_, hcollapsible⟩
      rw [text_append, text_cons, hinside]
      simpa using hstands
    · apply hwrites hwrite
      have hstands := Delimiter.standsIn_of_isRead hd hread (hlast []) (hfirst [])
      rw [List.append_nil] at hstands
      rw [hinside]
      exact ⟨_, hstands, hcollapsible⟩

/-! ### Brackets -/

/-- No bracket is open behind two texts if none is open behind the second one, and none that the
second one does not close is open behind the first one. -/
theorem isClosed_append_iff_or {x y : Text} :
  IsClosed (x ++ y) ↔ IsClosed y ∧ (']' ∈ y ∨ IsClosed x)
  := by
  constructor
  · intro h
    use h.suffix (List.suffix_append x y)
    by_cases hclosing : ']' ∈ y
    · exact .inl hclosing
    · right
      rintro a b rfl
      have hmem := h a (b ++ y) (by simp)
      exact (List.mem_append.mp hmem).resolve_right hclosing
  · rintro ⟨hy, hx⟩ a b hab
    rcases List.append_eq_append_iff.mp hab with ⟨c, rfl, hc⟩ | ⟨c, rfl, hc⟩
    · exact hy c b hc
    · cases c with
      | nil => exact hy [] b hc.symm
      | cons d c =>
        obtain ⟨rfl, rfl⟩ := List.cons.inj hc
        rcases hx with hclosing | hx
        · exact List.mem_append_right c hclosing
        · exact List.mem_append_left y (hx a c rfl)

/-- A bracket of a text without brackets open before it, read again with what follows it
replaced. -/
theorem isMathBracket_of_rest {m : Match Enclosure} {i : Nat} {y : Text}
    (hmath : isMathBracket m = true)
    (hrest : y.head? = m.rest.head? ∨ y.head? ≠ some '(' ∧ y.head? ≠ some ':') :
  isMathBracket ⟨i, m.source, m.value, y⟩ = true
  := by
  simp only [isMathBracket, Bool.and_eq_true] at hmath ⊢
  refine ⟨⟨?_, hmath.1.2⟩, hmath.2⟩
  rcases hrest with hrest | ⟨hparen, hcolon⟩
  · rw [hrest]
    exact hmath.1.1
  · cases hy : y.head? with
    | none => rfl
    | some c =>
      rw [hy] at hparen hcolon
      simp only [Option.any_some, Bool.not_eq_true', Bool.or_eq_false_iff, decide_eq_false_iff_not]
      exact ⟨fun heq => hparen (congrArg some heq), fun heq => hcolon (congrArg some heq)⟩

namespace Rewrites

variable {R : Rules} {x z : Text} {es es' : Entries}

/-- A closing bracket of the new entries stood among the old ones, and if no bracket is open
behind the new ones, then none behind the old ones. -/
theorem isClosed (h : Rewrites R z x es es') (hR : R.KeepsBrackets) :
  (']' ∈ text es' → ']' ∈ text es) ∧ (IsClosed (text es') → IsClosed (text es))
  := by
  induction h with
  | nil x => exact ⟨fun h => h, fun h => h⟩
  | @keep x e es es' hkeep hes ih =>
    obtain ⟨hclosing, hclosed⟩ := ih
    rw [text_cons, text_cons, List.mem_append, List.mem_append, isClosed_append_iff_or,
      isClosed_append_iff_or]
    exact ⟨Or.imp_right hclosing, fun h => ⟨hclosed h.1, h.2.imp_left hclosing⟩⟩
  | @write x s m d es es' hwrite hes ih =>
    obtain ⟨hclosing, hclosed⟩ := ih
    rw [text_append, text_append, text_chars, text_chars, text_cons]
    constructor
    · rw [List.mem_append, List.mem_append, List.mem_append]
      rintro (hm | hd | hes)
      · exact absurd hm (hR.marker hwrite).closing_not_mem
      · exact .inl (hR.closing hwrite hd)
      · exact .inr (hclosing hes)
    · intro h
      obtain ⟨hes, hd⟩ := isClosed_append_iff_or.mp (h.suffix (List.suffix_append m _))
      exact isClosed_append_iff_or.mpr ⟨hclosed hes, hd.imp hclosing (hR.isClosed hwrite)⟩

/-- A bracket that is rewritten in the new text was rewritten in the text before. -/
theorem exists_isRewritten (h : Rewrites R [] [] es es') (hR : R.KeepsBrackets)
    (hes : AreRead none none es) (hes' : AreRead none none es') {m : Match Enclosure}
    (hm : m ∈ Delimiter.bracket.reader.findAll (text es'))
    (hrewritten : isRewritten (text es') m = true) :
  ∃ x y, R.Keeps x (m.source ++ y)
    ∧ ⟨x.length, m.source, m.value, y⟩ ∈ Delimiter.bracket.reader.findAll (text es)
    ∧ isRewritten (text es) ⟨x.length, m.source, m.value, y⟩ = true
  := by
  obtain ⟨x, hx, htext, hstart, hbracket, hsource⟩ := mem_findAll_bracket_iff.mp hm
  rw [isRewritten, Bool.and_eq_true, Bool.not_eq_true', Match.span, hstart] at hrewritten
  obtain ⟨htouches, hmath⟩ := hrewritten
  obtain ⟨A', B', hentries, rfl, hrest⟩ := Dollars.exists_chars_of_touches htext htouches
  rw [hes'.entries_eq] at hentries
  subst hentries
  obtain ⟨s, hs⟩ : ∃ s, m.source = s ++ [']'] := by
    obtain ⟨body, hvalue, -⟩ := hbracket
    exact ⟨'[' :: body, by simp [hsource, hvalue, Enclosure.source]⟩
  rw [hs] at h
  obtain ⟨A, B, rfl, hA, hB, hkeeps⟩ := h.exists_of_closing hR (show IsSpaces [] by simp [IsSpaces])
  rw [List.append_nil] at hkeeps
  rw [← hs] at hes hkeeps hB ⊢
  refine ⟨text A, text B, hkeeps, ?_, ?_⟩
  · apply mem_findAll_bracket_iff.mpr
    exact ⟨text A, (hA.isClosed hR).2 hx, by simp, rfl, hbracket, hsource⟩
  · rw [isRewritten, Bool.and_eq_true, Bool.not_eq_true']
    refine ⟨Dollars.touches_eq_false_of_chars hes.entries_eq, ?_⟩
    apply isMathBracket_of_rest hmath
    rcases hB.head?_text with hsame | ⟨s', k, d, y, hwrite, heq, -⟩
    · left
      rw [List.append_nil, List.append_nil] at hsame
      rw [← hrest, hsame]
    · right
      rw [List.append_nil] at heq
      rw [heq, List.head?_append_of_ne_nil _ (hR.source_ne_nil hwrite)]
      apply hR.link hwrite
      rw [List.nil_append, hs, ← List.append_assoc, List.getLast?_concat]

end Rewrites

end DollarMath
