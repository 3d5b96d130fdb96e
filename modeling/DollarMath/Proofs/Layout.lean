import DollarMath.Proofs.Spared

/-!
# Displays on lines of their own

A text is laid out if all its dollars belong to displays, each with its body, trimmed, on lines
of its own.  The displays of a laid-out text are all its dollar mathematics, four of its dollars
belong to each of them, and writing one more display outside of them leaves the text laid out.
-/

namespace DollarMath

open Explicit (IsSplice)

namespace Dollars

/-- A character other than the dollar, or a display that is written for a body. -/
inductive IsLaidOutEntry : Option Dollars × Text → Prop
  /-- A character that is no dollar. -/
  | char {c : Char} (h : c ≠ '$') : IsLaidOutEntry (none, [c])
  /-- A display on lines of its own. -/
  | display {body : Text} (h : '$' ∉ body) : IsLaidOutEntry (some (ofBody body), displayOf body)

/-- The characters of a display that is written for a body. -/
theorem IsLaidOutEntry.exists_body {d : Dollars} {s : Text} (h : IsLaidOutEntry (some d, s)) :
  ∃ body, '$' ∉ body ∧ s = displayOf body
  := by
  cases h with
  | display hbody => exact ⟨_, hbody, rfl⟩

/-- Only displays on lines of their own hold a dollar. -/
def AreLaidOut (es : List (Option Dollars × Text)) : Prop :=
  ∀ e ∈ es, IsLaidOutEntry e

/-- Entries are laid out if those on both sides are. -/
theorem areLaidOut_append {es es' : List (Option Dollars × Text)} :
  AreLaidOut (es ++ es') ↔ AreLaidOut es ∧ AreLaidOut es'
  := List.forall_mem_append

/-- Characters are laid out if none is a dollar. -/
theorem areLaidOut_chars {s : Text} :
  AreLaidOut (s.map fun c => (none, [c])) ↔ '$' ∉ s
  := by
  rw [AreLaidOut, List.forall_mem_map]
  constructor
  · intro h hmem
    obtain ⟨hne⟩ := h '$' hmem
    exact hne rfl
  · intro h c hc
    apply IsLaidOutEntry.char
    rintro rfl
    exact h hc

/-- A text of which all dollars belong to displays on lines of their own. -/
def IsLaidOut (t : Text) : Prop :=
  AreLaidOut ((read .displays).entries .start t)

/-- A text without dollars is laid out. -/
theorem isLaidOut_of_not_mem {t : Text} (h : '$' ∉ t) :
  IsLaidOut t
  := by
  have hchars : (read .displays).entries .start t = t.map fun c => (none, [c]) := by
    rw [Reader.entries, pieces_of_not_mem h, List.map_map]
    rfl
  rw [IsLaidOut, hchars]
  exact areLaidOut_chars.mpr h

/-! ### Writing a display -/

/-- Displays are read without a look at what follows them. -/
theorem isLocal_read_displays :
  (read .displays).IsLocal
  := reads_displays.isLocal

/-- What follows laid-out text does not change its displays. -/
theorem entries_append_of_areLaidOut {p : Place} {s : Text} (t : Text)
    (h : AreLaidOut ((read .displays).entries p s)) :
  (read .displays).entries p (s ++ t)
    = (read .displays).entries p s ++ (read .displays).entries (p.after s) t
  := by
  apply isLocal_read_displays.entries_append_of_passes
  intro u c v _ hc _
  apply passes_of_ne
  obtain ⟨hne⟩ := h _ hc
  exact hne

/-- A display with a marker in front of it is laid out. -/
theorem areLaidOut_displayOf {p : Place} {marker body : Text} (hmarker : '$' ∉ marker)
    (hbody : '$' ∉ body) :
  AreLaidOut ((read .displays).entries p (marker ++ displayOf body))
  := by
  have hne : (ofBody body).source ≠ [] := by simp [ofBody, source]
  have hdisplay := (reads_displays.isRead (p := p.after marker) (isDisplay_ofBody hbody) hne
    []).entries_eq
  rw [List.append_nil, source_ofBody] at hdisplay
  rw [Reader.entries_append_of_forall_passes, hdisplay, areLaidOut_append, areLaidOut_chars]
  · use hmarker
    intro e he
    obtain rfl := List.mem_singleton.mp he
    apply IsLaidOutEntry.display hbody
  · intro u c v hu
    apply passes_of_ne
    rintro rfl
    apply hmarker
    simp [hu]

/-- Displays written for characters that stand apart from the displays of a laid-out text leave
it laid out. -/
theorem isLaidOut_replace
    {α : Type} {r : Reader α} {f : Match α → Option Text} {t : Text} (h : IsLaidOut t)
    (hsplice : ∀ m ∈ r.findAll t, ∀ w, f m = some w → IsSplice m.source w)
    (hapart : ∀ m ∈ r.findAll t, ∀ w, f m = some w →
      ∀ i ∈ (read .displays).findAll t, m.span.Apart i.span) :
  IsLaidOut (r.replace f t).text
  := by
  apply isLocal_read_displays.replace_apart_induction f reads_displays.seesEscape
    (fun es es' => AreLaidOut es → AreLaidOut es') hapart _ _ _ h
  · intro m hm w hw p q
    obtain ⟨⟨marker, body, rfl, -, -⟩, hescaped⟩ := hsplice m hm w hw
    rw [hescaped, Explicit.escaped_after_displayOf]
  · exact fun es hes => hes
  · intro p g m w es u' hm hw ih h
    rw [areLaidOut_append, areLaidOut_append, areLaidOut_chars] at h
    obtain ⟨hg, hsource, hes⟩ := h
    obtain ⟨⟨marker, body, rfl, hmarker, hbody⟩, -⟩ := hsplice m hm w hw
    have hw : AreLaidOut ((read .displays).entries (p.after g) (marker ++ displayOf body)) := by
      apply areLaidOut_displayOf
      · exact fun hmem => (hmarker _ hmem).1 rfl
      · exact fun hmem => hsource (hbody hmem)
    rw [entries_append_of_areLaidOut _ hg, entries_append_of_areLaidOut _ hw,
      areLaidOut_append, areLaidOut_append, ← Place.after_append]
    exact ⟨hg, hw, ih hes⟩

/-! ### The dollars of a laid-out text -/

/-- The displays of a laid-out text are all its dollar mathematics. -/
theorem pieces_eq_of_isLaidOut {t : Text} (h : IsLaidOut t) (scope : Scope) :
  (read scope).pieces t = (read .displays).pieces t
  := by
  have hpieces : (read scope).pieces t
      = ((read .displays).pieces t).flatMap (Piece.cutUp some) := by
    apply Reader.piecesFrom_eq_flatMap
    · intro q c u hc _
      apply passes_of_ne
      obtain ⟨hne⟩ := h _ (List.mem_map_of_mem hc)
      exact hne
    · intro q m n d _ hm hd
      obtain rfl := Option.some.inj hd
      apply read_of_read_displays hm.read
    · intro q m n _ _ hnone
      cases hnone
  rw [hpieces]
  conv_rhs => rw [← List.flatMap_singleton' ((read .displays).pieces t)]
  apply List.flatMap_congr
  rintro (c | m) -
  · rfl
  · rfl

/-- In a text that is laid out all dollar mathematics is displays. -/
theorem dollarSpans_eq_of_isLaidOut {t : Text} (h : IsLaidOut t) (scope : Scope) :
  dollarSpans scope t = dollarSpans .displays t
  := by
  rw [dollarSpans, Reader.findAll, pieces_eq_of_isLaidOut h]
  rfl

/-- Displays written outside the dollar mathematics of a laid-out text leave it laid out. -/
theorem isLaidOut_replaceOutside
    {α : Type} {r : Reader α} {f : Match α → Option Text} {t : Text} {scope : Scope}
    (h : IsLaidOut t) (hsplice : ∀ m ∈ r.findAll t, ∀ w, f m = some w → IsSplice m.source w) :
  IsLaidOut (r.replaceOutside scope f t).text
  := by
  apply isLaidOut_replace h
  · intro m hm w hw
    obtain ⟨-, hw⟩ := Option.ite_none_left_eq_some.mp hw
    apply hsplice m hm w hw
  · intro m hm w hw
    obtain ⟨htouches, -⟩ := Option.ite_none_left_eq_some.mp hw
    rw [Bool.not_eq_true, dollarSpans_eq_of_isLaidOut h] at htouches
    apply apart_of_touches_eq_false htouches

/-- Four dollars of a laid-out text belong to each display. -/
theorem count_dollar_of_areLaidOut {es : List (Option Dollars × Text)} (h : AreLaidOut es) :
  (es.flatMap Prod.snd).count '$' = 4 * (es.filterMap Prod.fst).length
  := by
  induction es with
  | nil => rfl
  | cons e es ih =>
    obtain ⟨he, hes⟩ := List.forall_mem_cons.mp h
    rw [List.flatMap_cons, List.count_append, ih hes]
    cases he with
    | char hne =>
      rw [List.filterMap_cons_none rfl, List.count_singleton, if_neg (by simpa using hne),
        Nat.zero_add]
    | display hbody =>
      have hsome : ∀ (body : Text) (es : List (Option Dollars × Text)),
          ((some (ofBody body), displayOf body) :: es).filterMap Prod.fst
            = ofBody body :: es.filterMap Prod.fst := fun _ _ => rfl
      rw [count_dollar_displayOf, List.count_eq_zero.mpr hbody, hsome, List.length_cons]
      omega

/-- Each display has four dollars, and no others are there. -/
theorem count_dollar_of_isLaidOut {t : Text} (h : IsLaidOut t) :
  t.count '$' = 4 * (dollarSpans .displays t).length
  := by
  have hcount := count_dollar_of_areLaidOut h
  rw [Reader.flatMap_entries, ← Reader.values, Reader.values_start, List.length_map] at hcount
  rw [dollarSpans, List.length_map, hcount]

/-- Every dollar of a laid-out text stands in a display. -/
theorem exists_dollarSpan_of_isLaidOut {t : Text} {i : Nat} (h : IsLaidOut t)
    (hi : t[i]? = some '$') :
  ∃ s ∈ dollarSpans .displays t, s.start ≤ i ∧ i < s.stop
  := by
  rcases (read .displays).mem_pieces_or_exists_of_getElem? hi with hchar | ⟨m, hm, hspan⟩
  · obtain ⟨hne⟩ := h _ (List.mem_map_of_mem hchar)
    exact absurd rfl hne
  · exact ⟨m.span, List.mem_map_of_mem hm, hspan⟩

/-- The characters of a display of a laid-out text. -/
theorem exists_extract_of_isLaidOut {t : Text} {s : Span} (h : IsLaidOut t)
    (hs : s ∈ dollarSpans .displays t) :
  ∃ body, t.extract s.start s.stop = ['$', '$', '\n'] ++ body ++ ['\n', '$', '$']
    ∧ '$' ∉ body ∧ trim body = body
  := by
  obtain ⟨m, hm, rfl⟩ := List.mem_map.mp hs
  obtain ⟨body, hbody, hsource⟩ :=
    IsLaidOutEntry.exists_body (h _ (List.mem_map_of_mem (Reader.mem_findAll_iff.mp hm)))
  use trim body
  rw [Reader.extract_of_mem_findAll hm, hsource, trim_trim]
  exact ⟨rfl, fun hmem => hbody (mem_of_mem_trim hmem), rfl⟩

end Dollars

/-! ### Displays and brackets -/

open Dollars

/-- Displays between backslash brackets are laid out. -/
theorem isLaidOut_convertDisplays {t : Text} (h : '$' ∉ t) :
  IsLaidOut (convertDisplays t).text
  := by
  apply isLaidOut_replace (isLaidOut_of_not_mem h)
  · intro m hm w hw
    obtain rfl := Option.some.inj hw
    apply isSplice_of_mem_display hm
  · intro m _ w _ i hi
    rw [findAll_of_not_mem h] at hi
    cases hi

/-- Bracket blocks are laid out among displays. -/
theorem isLaidOut_convertBracketBlocks {t : Text} (h : IsLaidOut t) :
  IsLaidOut (convertBracketBlocks t).text
  := by
  apply isLaidOut_replaceOutside h
  intro m hm w hw
  obtain ⟨-, hw⟩ := Option.ite_none_right_eq_some.mp hw
  obtain rfl := Option.some.inj hw
  apply isSplice_of_mem_bracketBlock hm

/-- So are brackets. -/
theorem isLaidOut_convertBrackets {t : Text} (h : IsLaidOut t) :
  IsLaidOut (convertBrackets t).text
  := by
  apply isLaidOut_replaceOutside h
  intro m hm w hw
  obtain ⟨-, hw⟩ := Option.ite_none_right_eq_some.mp hw
  obtain rfl := Option.some.inj hw
  apply isSplice_of_mem_bracket hm

/-- The conversions that write displays where the text is not quoted. -/
def convertUnquotedDisplays : Conversion :=
  .inOrder [convertDisplays, convertBracketBlocks, convertBrackets]

/-- The dollars of unquoted displays balance. -/
theorem convertUnquotedDisplays_isBalanced :
  convertUnquotedDisplays.Obeys IsBalanced
  := by
  apply isBalanced_law.inOrder
  simp only [List.forall_mem_cons]
  exact ⟨convertDisplays_isBalanced, convertBracketBlocks_isBalanced, convertBrackets_isBalanced,
    by simp⟩

/-- The blocks that a converted text tallies are its dollar mathematics. -/
structure HasDisplays (c : Converted) : Prop where
  /-- All dollar mathematics of the text is displayed. -/
  displayed : dollarSpans .displays c.text = dollarSpans .all c.text
  /-- There are as many displays as are tallied. -/
  length : ((dollarSpans .all c.text).length : Int) = c.tally.block
  /-- Every dollar stands in a display. -/
  dollars : ∀ i : Nat, c.text[i]? = some '$' →
    ∃ s ∈ dollarSpans .all c.text, s.start ≤ i ∧ i < s.stop
  /-- Every display has its body, trimmed and without dollars, on lines of its own. -/
  bodies : ∀ s ∈ dollarSpans .all c.text,
    ∃ body, c.text.extract s.start s.stop = ['$', '$', '\n'] ++ body ++ ['\n', '$', '$']
      ∧ '$' ∉ body ∧ trim body = body

/-- In a text without dollars, the displays that are written are found again. -/
theorem hasDisplays_convertUnquotedDisplays {t : Text} (h : '$' ∉ t) :
  HasDisplays (convertUnquotedDisplays t)
  := by
  have hlaid : IsLaidOut (convertUnquotedDisplays t).text :=
    isLaidOut_convertBrackets (isLaidOut_convertBracketBlocks (isLaidOut_convertDisplays h))
  have hbalanced := convertUnquotedDisplays_isBalanced t
  have hinline : (convertUnquotedDisplays t).tally.inline = 0 := rfl
  rw [IsBalanced, Tally.dollars, hinline, List.count_eq_zero.mpr h,
    count_dollar_of_isLaidOut hlaid] at hbalanced
  have hspans := dollarSpans_eq_of_isLaidOut hlaid .all
  constructor
  · exact hspans.symm
  · rw [hspans]
    omega
  · rw [hspans]
    exact fun i hi => exists_dollarSpan_of_isLaidOut hlaid hi
  · rw [hspans]
    exact fun s hs => exists_extract_of_isLaidOut hlaid hs

/-- An empty display, another one that touches it, and a bracket. -/
theorem hasDisplays_convertUnquotedDisplays_touching :
  let t := ['\\', '[', '\\', ']', '\\', '[', 'a', '\\', ']', ' ', '[', '0', ',', '1', ']']
  ('$' ∉ t ∧ dollarSpans .all (convertUnquotedDisplays t).text = [⟨0, 6⟩, ⟨6, 13⟩, ⟨14, 23⟩])
    ∧ HasDisplays (convertUnquotedDisplays t)
  := by
  intro t
  have hdollar : '$' ∉ t := by decide
  exact ⟨⟨hdollar, by decide⟩, hasDisplays_convertUnquotedDisplays hdollar⟩

end DollarMath
