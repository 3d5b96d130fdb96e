import DollarMath.Proofs.Doubled
import DollarMath.Proofs.Gaps

/-!
# Groups between displays

Between two displays of a text stands a group: characters and inline formulas.  Where all dollars
are read, the displays are those that are found when no inline formulas are looked for, and the
groups are the chunks between them.  A group may be put between displays if it neither starts nor
ends with a dollar.
-/

namespace DollarMath

namespace Dollars

/-- An inline formula holds no doubled dollar. -/
theorem separates_inline {body : Text} (hne : body ≠ []) (h : '$' ∉ body) :
  Separates '$' '$' (inline body).source
  := by
  apply separates_between_dollars.mpr
  refine ⟨Separates.of_not_mem h, hne, ?_, ?_⟩
  · exact fun hhead => h (List.mem_of_head? hhead)
  · exact fun hlast => h (List.mem_of_getLast? hlast)

/-- A display holds a doubled dollar. -/
theorem isInfix_display (body : Text) :
  ['$', '$'] <:+: (display body).source
  := by
  use [], body ++ ['$', '$']
  simp [source]

/-- No display starts where no two dollars stand side by side. -/
theorem passes_displays_of_separates {p : Place} {s u v z : Text} {c : Char}
    (h : Separates '$' '$' s) (hz : ¬ (s.getLast? = some '$' ∧ z.head? = some '$'))
    (hcut : s = u ++ c :: v) :
  (read .displays).Passes p (c :: (v ++ z))
  := by
  by_cases hc : c = '$'
  · subst hc
    have hhead : (v ++ z).head? ≠ some '$' := by
      cases v with
      | nil =>
        rw [hcut, List.getLast?_concat] at hz
        exact fun hhead => hz ⟨rfl, hhead⟩
      | cons d v =>
        intro hhead
        obtain rfl : d = '$' := Option.some.inj hhead
        apply separates_iff.mp h
        rw [hcut]
        exact ⟨u, v, by simp⟩
    intro d k hread
    rw [read_displays_eq_none hhead] at hread
    cases hread
  · exact passes_of_ne hc

end Dollars

namespace Entries

/-- The entry of a display. -/
def IsDisplay (e : Option Dollars × Text) : Prop :=
  ∃ body, e.1 = some (.display body)

/-- Entries without displays. -/
def AreInline (es : Entries) : Prop :=
  ∀ e ∈ es, ¬ IsDisplay e

/-- Entries start with a display, or there are none. -/
def StartWithDisplay (es : Entries) : Prop :=
  ∀ e ∈ es.head?, IsDisplay e

/-- Entries with the inline formulas taken apart. -/
def openInlines (es : Entries) : Entries :=
  es.flatMap fun e =>
    match e.1 with
    | some (.display _) => [e]
    | _ => chars e.2

@[simp]
theorem openInlines_append (es es' : Entries) :
  openInlines (es ++ es') = openInlines es ++ openInlines es'
  := List.flatMap_append

theorem openInlines_cons (e : Option Dollars × Text) (es : Entries) :
  openInlines (e :: es) = openInlines [e] ++ openInlines es
  := openInlines_append [e] es

/-- Entries without displays are all taken apart. -/
theorem openInlines_of_areInline {es : Entries} (h : AreInline es) :
  openInlines es = chars (text es)
  := by
  induction es with
  | nil => rfl
  | cons e es ih =>
    obtain ⟨he, hes⟩ := List.forall_mem_cons.mp h
    rw [openInlines_cons, ih hes, text_cons, chars_append]
    congr 1
    obtain ⟨_ | _ | _, s⟩ := e
    · apply List.append_nil
    · exact absurd ⟨_, rfl⟩ he
    · apply List.append_nil

theorem StartWithDisplay.startWithMath {es : Entries} (h : StartWithDisplay es) :
  StartWithMath (openInlines es)
  := by
  cases es with
  | nil => simp [StartWithMath, openInlines]
  | cons e es =>
    obtain ⟨body, hbody⟩ := h e rfl
    obtain ⟨_, s⟩ := e
    obtain rfl := hbody
    simp [StartWithMath, openInlines]

/-- The first entry is a display. -/
theorem StartWithDisplay.exists_eq_cons {before after : Option Char} {es : Entries}
    (h : StartWithDisplay es) (hread : AreRead after before es) (hne : es ≠ []) :
  ∃ body es', es = (some (.display body), (Dollars.display body).source) :: es'
  := by
  cases hread with
  | nil => exact absurd rfl hne
  | char c hc hes =>
    obtain ⟨_, hbody⟩ := h _ rfl
    cases hbody
  | math d hd hes =>
    obtain ⟨body, hbody⟩ := h _ rfl
    obtain rfl := Option.some.inj hbody
    exact ⟨body, _, rfl⟩

/-- A group and what comes behind it are cut where the group ends. -/
theorem cut_openInlines_append {gs es : Entries} (hgs : AreInline gs) (hne : text gs ≠ [])
    (hes : StartWithDisplay es) :
  cut (openInlines (gs ++ es)) = ⟨false, text gs⟩ :: cut (openInlines es)
  := by
  rw [openInlines_append, openInlines_of_areInline hgs, cut_chars_append hne hes.startWithMath]

/-- What holds of no entries, and is kept by a display and by a group in front, holds of all
entries. -/
theorem groups_induction {P : Entries → Prop} (nil : P [])
    (display : ∀ body s es, P es → P ((some (.display body), s) :: es))
    (group : ∀ gs es, gs ≠ [] → AreInline gs → StartWithDisplay es → P es → P (gs ++ es))
    (es : Entries) :
  P es
  := by
  suffices ∀ gs, AreInline gs → P (gs ++ es) from this [] (by simp [AreInline])
  induction es with
  | nil =>
    intro gs hgs
    by_cases hne : gs = []
    · rw [hne]
      exact nil
    · exact group gs [] hne hgs (by simp [StartWithDisplay]) nil
  | cons e es ih =>
    intro gs hgs
    by_cases he : IsDisplay e
    · obtain ⟨body, hbody⟩ := id he
      have hdisplay : P (e :: es) := by
        obtain ⟨_, s⟩ := e
        obtain rfl := hbody
        exact display body s es (ih [] (by simp [AreInline]))
      by_cases hne : gs = []
      · rwa [hne]
      · exact group gs (e :: es) hne hgs (by simpa [StartWithDisplay] using he) hdisplay
    · rw [List.append_cons]
      apply ih
      intro e' he'
      rcases List.mem_append.mp he' with he' | he'
      · exact hgs e' he'
      · rwa [List.mem_singleton.mp he']

namespace AreRead

variable {before after : Option Char} {es : Entries}

/-- The displays of a text whose dollars are read, if no inline formulas are looked for. -/
theorem entries_displays_append {p : Place} {z : Text} (h : AreRead z.head? p.before es) :
  (Dollars.read .displays).entries p (text es ++ z)
    = openInlines es ++ (Dollars.read .displays).entries (p.after (text es)) z
  := by
  generalize hbefore : p.before = before at h
  induction h generalizing p with
  | nil => rfl
  | char c hc hes ih =>
    rw [text_cons, List.append_assoc]
    apply (Reader.entries_of_passes (Dollars.passes_of_ne hc)).trans
    apply congrArg (List.cons _)
    exact ih (p := p.next c) rfl
  | @math before es d hd hes ih =>
    rw [text_cons, List.append_assoc, openInlines_cons, Place.after_append, List.append_assoc,
      ← ih (d.before_after_source p)]
    cases d with
    | display body =>
      exact (Dollars.reads_displays.isRead (a := .display body) ⟨body, rfl, hd⟩
        (Dollars.source_ne_nil _) _).entries_eq
    | inline body =>
      have hopen : openInlines [(some (Dollars.inline body), (Dollars.inline body).source)]
          = (Dollars.inline body).source.map fun c => (none, [c]) := List.append_nil _
      rw [hopen]
      obtain ⟨hbody, hdollar, hafter⟩ := hd
      apply Reader.entries_append_of_forall_passes
      intro u c v hcut
      apply Dollars.passes_displays_of_separates _ _ hcut
      · exact Dollars.separates_inline (Dollars.ne_nil_of_isInlineBody hbody) hdollar
      · rintro ⟨-, hhead⟩
        rw [List.head?_append] at hhead
        exact (hafter '$' hhead).2 rfl

/-- The chunks between the displays of a text whose dollars are read. -/
theorem chunks_displays_eq (h : AreRead none none es) :
  chunks .displays (text es) = cut (openInlines es)
  := by
  have hentries := AreRead.entries_displays_append (p := .start) (z := []) h
  rw [List.append_nil] at hentries
  rw [chunks, Reader.pieces, ← cut_map_entry]
  apply congrArg cut
  rw [← Reader.entries, hentries]
  apply List.append_nil

/-- A group holds no doubled dollar. -/
theorem separates (h : AreRead after before es) (hes : AreInline es) :
  Separates '$' '$' (text es)
  := by
  induction h with
  | nil => exact Separates.of_not_mem List.not_mem_nil
  | char c hc _ ih =>
    apply (Separates.of_not_mem _).append (ih (List.forall_mem_cons.mp hes).2)
    · left
      rw [List.getLast?_singleton]
      exact fun heq => hc (Option.some.inj heq)
    · rw [List.mem_singleton]
      exact Ne.symm hc
  | math d hd _ ih =>
    obtain ⟨hinline, hrest⟩ := List.forall_mem_cons.mp hes
    cases d with
    | display body => exact absurd ⟨body, rfl⟩ hinline
    | inline body =>
      obtain ⟨hbody, hdollar, hafter⟩ := hd
      apply (Dollars.separates_inline (Dollars.ne_nil_of_isInlineBody hbody) hdollar).append
        (ih hrest)
      right
      intro hhead
      rw [hhead] at hafter
      exact (hafter '$' rfl).2 rfl

/-- Entries of a text without doubled dollars hold no display. -/
theorem areInline (h : AreRead after before es) (hes : Separates '$' '$' (text es)) :
  AreInline es
  := by
  intro e he hdisplay
  obtain ⟨A, B, rfl⟩ := List.append_of_mem he
  obtain ⟨-, hread⟩ := areRead_append_iff.mp h
  have hstart : StartWithDisplay (e :: B) := by
    intro e' he'
    rwa [← Option.some.inj he']
  obtain ⟨body, es', heq⟩ := hstart.exists_eq_cons hread (List.cons_ne_nil e B)
  apply separates_iff.mp hes
  rw [text_append, heq, text_cons]
  apply (Dollars.isInfix_display body).trans
  exact ⟨text A, text es', List.append_assoc _ _ _⟩

/-- A group may be put between dollars if it has none at its ends. -/
theorem beside (h : AreRead none none es)
    (hbefore : ∀ c ∈ before, c = '$' ∧ (text es).head? ≠ some '$')
    (hafter : ∀ c ∈ after, c = '$' ∧ (text es).getLast? ≠ some '$') :
  AreRead after before es
  := by
  have hfront : AreRead none before es := by
    cases h with
    | nil => exact .nil
    | char c hc hes => exact .char c hc hes
    | math d hd hes =>
      cases before with
      | none => exact .math d hd hes
      | some c =>
        obtain ⟨-, hhead⟩ := hbefore c rfl
        rw [text_cons, d.head?_source] at hhead
        exact absurd rfl hhead
  clear hbefore h
  induction hfront with
  | nil => exact .nil
  | @char before es c hc hes ih =>
    apply AreRead.char c hc
    apply ih
    intro c' hc'
    obtain ⟨hdollar, hlast⟩ := hafter c' hc'
    refine ⟨hdollar, fun heq => hlast ?_⟩
    rw [text_cons, List.getLast?_append, heq]
    rfl
  | @math before es d hd hes ih =>
    apply AreRead.math d
    · cases es with
      | nil =>
        cases after with
        | none => exact hd
        | some c =>
          obtain ⟨-, hlast⟩ := hafter c rfl
          rw [text_cons, text_nil, List.append_nil, d.getLast?_source] at hlast
          exact absurd rfl hlast
      | cons e es =>
        have hne : text (e :: es) ≠ [] := by
          rw [Ne, hes.text_eq_nil_iff]
          exact List.cons_ne_nil e es
        rw [List.head?_eq_some_head hne] at hd ⊢
        exact hd
    · apply ih
      intro c hc
      obtain ⟨hdollar, hlast⟩ := hafter c hc
      refine ⟨hdollar, fun heq => hlast ?_⟩
      rw [text_cons, List.getLast?_append, heq]
      rfl

end AreRead

end Entries

end DollarMath
