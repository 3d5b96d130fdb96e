import DollarMath.Proofs.FreeParens
import DollarMath.Proofs.Groups
import DollarMath.Proofs.ItemsInTurn
import DollarMath.Proofs.Settled
import DollarMath.Proofs.StableInlines

/-!
# Inline formulas converted once and for all

Conditions on a group under which the inline formulas that are written are read again as they are,
and nothing else comes to be a formula.
-/

namespace DollarMath

open Entries

/-- The inline formulas of a text are converted once and for all. -/
@[mk_iff]
structure InlinesOnce (t : Text) : Prop where
  /-- The items of the gaps stand apart. -/
  gaps : ∀ k ∈ chunks .all t, k.isMath = false → ItemsStandApart k.text
  /-- No formula in backslash parentheses opens within dollar mathematics. -/
  math : ∀ k ∈ chunks .all t, k.isMath = true → ¬ ['\\', '('] <:+: k.text
  /-- No formula in backslash parentheses holds a dollar or opens another one, once the plain
  parentheses are converted. -/
  bodies : ∀ m ∈ Delimiter.inline.reader.findAll (convertParens.between .all t).text,
    '$' ∉ m.value.body ∧ ¬ ['\\', '('] <:+: m.value.body
  /-- The formulas in plain parentheses stand clear of dollars. -/
  parens : ParensStandClear t
  /-- The formulas in backslash parentheses stand clear of dollars and of each other. -/
  inlines : InlinesStandClear (convertParens.between .all t).text

instance (t : Text) : Decidable (InlinesOnce t) :=
  decidable_of_iff _ (inlinesOnce_iff t).symm

/-- A group whose inline formulas are converted once and for all: its items are written, all dollars
of the new group are read, and there is nothing left to convert. -/
theorem InlinesOnce.exists_rewrites {gs : Entries} (h : InlinesOnce (text gs))
    (hread : AreRead none none gs) (hgs : AreInline gs) :
  ∃ gs', text gs' = (convertAllInlines (text gs)).text ∧ AreRead none none gs' ∧ AreInline gs'
    ∧ Rewrites itemRules [] [] gs gs' ∧ (convertAllInlines (text gs')).tally.total = 0
  := by
  obtain ⟨hgaps, hmath, hbodies, hparens, hinlines⟩ := h
  rw [hread.chunks_eq] at hgaps hmath
  have hseparates : Separates '$' '$' (text gs) := hread.separates hgs
  have hnew : Separates '$' '$' (convertAllInlines (text gs)).text :=
    separates_convertInlines_iff.mpr
      ⟨(separates_convertParens_between_iff hseparates).mpr hparens, hinlines⟩
  have htext := text_convertAllInlines_of_areRead hread hmath fun m hm => (hbodies m hm).1
  obtain ⟨gs', hgs', hrewrites⟩ := Rewrites.exists_of_gaps hread hgaps
  rw [← htext] at hgs'
  rw [← hgs'] at hnew
  have hread' : AreRead none none gs' := by
    apply hrewrites.areRead_of_writesInlines itemRules_writesInlines hread (w := []) _ (.inl rfl)
    rwa [List.nil_append, List.append_nil]
  refine ⟨gs', hgs', hread', hread'.areInline hnew, hrewrites, ?_⟩
  apply (total_convertAllInlines_eq_zero_iff _).mpr
  rw [hread'.chunks_eq]
  constructor
  · exact fun k hk hprose => hrewrites.formula?_eq_none hread' hk hprose
  · rw [hgs']
    exact Delimiter.findAll_convertInlines fun m hm => (hbodies m hm).2

/-! ### Groups between displays -/

/-- What the conversion of inline formulas keeps and writes in a text with displays. -/
def groupRules : Rules where
  Keeps _ _ := True
  Writes x s m d _ :=
    m = [] ∧ s ≠ [] ∧ (']' ∈ d.source → ']' ∈ s) ∧ (IsClosed d.source → IsClosed s)
      ∧ (x.getLast? = some ']' → s.head? ≠ some '(' ∧ s.head? ≠ some ':') ∧ '\n' ∉ d.source

/-- What is written in a group keeps the brackets outside of it. -/
theorem groupRules_keepsBrackets :
  groupRules.KeepsBrackets
  where
  source_ne_nil h := h.2.1
  marker h := .inl h.1
  closing h := h.2.2.1
  isClosed h := h.2.2.2.1
  link h := h.2.2.2.2.1

/-- What is written in a group may be written between displays. -/
theorem WritesItem.groupRules {x u s m y z : Text} {d : Dollars} (h : WritesItem u s m d y)
    (hx : EndsWithDollar x) :
  groupRules.Writes (x ++ u) s m d z
  := by
  refine ⟨h.marker, h.source_ne_nil, h.closing, h.isClosed, ?_, ?_⟩
  · intro hlast
    apply h.link
    rw [List.getLast?_append] at hlast
    cases hu : u.getLast? with
    | none =>
      rw [hu, Option.none_or] at hlast
      have heq := hx ']' hlast
      cases heq
    | some c => rwa [hu] at hlast
  · obtain ⟨body, rfl, hbody, -⟩ := h.isInline
    obtain ⟨-, -, -, hline⟩ := Dollars.isInlineBody_iff.mp hbody
    simpa [Dollars.source] using hline

/-- What the conversion of inline formulas writes for a chunk between displays. -/
def Chunk.converted (k : Chunk) : Text :=
  if k.isMath then k.text else (convertAllInlines k.text).text

/-- The groups among chunks are converted once and for all. -/
@[mk_iff]
structure GroupsOnce (ks : List Chunk) : Prop where
  /-- The inline formulas of each group are. -/
  groups : ∀ k ∈ ks, k.isMath = false → InlinesOnce k.text
  /-- No dollar comes to stand beside a display. -/
  neighbours : ks.IsChain fun a b =>
    a.isMath = b.isMath ∨ ¬ (a.converted.getLast? = some '$' ∧ b.converted.head? = some '$')

instance (ks : List Chunk) : Decidable (GroupsOnce ks) :=
  decidable_of_iff _ (groupsOnce_iff ks).symm

/-- So are those behind the first chunk. -/
theorem GroupsOnce.tail {k : Chunk} {ks : List Chunk} (h : GroupsOnce (k :: ks)) :
  GroupsOnce ks
  where
  groups := (List.forall_mem_cons.mp h.groups).2
  neighbours := h.neighbours.tail

/-- Of a chunk and the next one, if only one is a display, the first one does not end with a dollar
or the second one does not start with one. -/
theorem GroupsOnce.beside {a b : Chunk} {ks : List Chunk} (h : GroupsOnce (a :: b :: ks))
    (hmath : a.isMath ≠ b.isMath) :
  ¬ (a.converted.getLast? = some '$' ∧ b.converted.head? = some '$')
  := (List.isChain_cons_cons.mp h.neighbours).1.resolve_left hmath

/-- No dollar comes to stand at the front of the first chunk, if that is a group. -/
def StandsBehindDisplay (ks : List Chunk) : Prop :=
  ∀ k ∈ ks.head?, k.isMath = false → k.converted.head? ≠ some '$'

/-- Behind a display none does. -/
theorem GroupsOnce.standsBehindDisplay {body : Text} {ks : List Chunk}
    (h : GroupsOnce (⟨true, (Dollars.display body).source⟩ :: ks)) :
  StandsBehindDisplay ks
  := by
  intro k hk hprose hhead
  obtain ⟨ks, rfl⟩ := List.head?_eq_some_iff.mp hk
  apply h.beside (by simp [hprose])
  exact ⟨(Dollars.display body).getLast?_source, hhead⟩

/-- No dollar comes to stand at the end of a group before a display. -/
theorem GroupsOnce.getLast?_ne {g : Text} {a b : Option Char} {es : Entries}
    (h : GroupsOnce (⟨false, g⟩ :: cut (openInlines es))) (hes : StartWithDisplay es)
    (hread : AreRead a b es) (hne : es ≠ []) :
  (Chunk.converted ⟨false, g⟩).getLast? ≠ some '$'
  := by
  obtain ⟨body, es, rfl⟩ := hes.exists_eq_cons hread hne
  intro hlast
  apply h.beside (by simp)
  exact ⟨hlast, rfl⟩

/-- Groups and displays behind the text `x`, converted once and for all, with `b` standing
before the new text. -/
theorem GroupsOnce.exists_rewrites_behind {es : Entries} (h : GroupsOnce (cut (openInlines es)))
    {x : Text} (hread : AreRead none x.getLast? es) (hx : EndsWithDollar x ∨ StartWithDisplay es)
    {b : Option Char}
    (hbefore : StartWithDisplay es ∨
      ∀ c ∈ b, c = '$' ∧ StandsBehindDisplay (cut (openInlines es))) :
  ∃ es', text es' = (cut (openInlines es)).flatMap Chunk.converted ∧ AreRead none b es'
    ∧ Rewrites groupRules [] x es es' ∧ (StartWithDisplay es → StartWithDisplay es')
    ∧ ∀ k ∈ cut (openInlines es'), k.isMath = false → (convertAllInlines k.text).tally.total = 0
  := by
  induction es using groups_induction generalizing x b with
  | nil => exact ⟨[], rfl, .nil, .nil x, fun h => h, by simp [openInlines, cut]⟩
  | display body s es ih =>
    have hcut : cut (openInlines ((some (.display body), s) :: es))
        = ⟨true, s⟩ :: cut (openInlines es) := rfl
    rw [hcut] at h ⊢
    cases hread with
    | math d hd hes =>
      have hlast : (x ++ (Dollars.display body).source).getLast? = some '$' := by
        rw [List.getLast?_append_of_ne_nil _ (Dollars.source_ne_nil _), Dollars.getLast?_source]
      have hx : EndsWithDollar (x ++ (Dollars.display body).source) := by
        rw [EndsWithDollar, hlast]
        exact fun c hc => (Option.some.inj hc).symm
      obtain ⟨es', htext, hread', hrewrites, -, htotal⟩ := ih h.tail
        (x := x ++ (Dollars.display body).source) (b := some '$') (by rwa [hlast]) (.inl hx)
        (.inr fun c hc => ⟨(Option.some.inj hc).symm, h.standsBehindDisplay⟩)
      refine ⟨(some (.display body), _) :: es', ?_, .math _ hd hread', .keep trivial hrewrites,
        ?_, ?_⟩
      · rw [text_cons, htext]
        rfl
      · rintro - e he
        obtain rfl := Option.some.inj he
        exact ⟨body, rfl⟩
      · intro k hk hprose
        rcases List.mem_cons.mp hk with rfl | hk
        · cases hprose
        · exact htotal k hk hprose
  | group gs es hne hgs hes ih =>
    obtain ⟨hgroup, hrest⟩ := areRead_append_iff.mp hread
    have hgroup := hgroup.none_none
    have hgsne : text gs ≠ [] := by
      rwa [Ne, hgroup.text_eq_nil_iff]
    have hstart : ¬ StartWithDisplay (gs ++ es) := by
      obtain ⟨e, gs, rfl⟩ := List.exists_cons_of_ne_nil hne
      intro hdisplay
      exact hgs e List.mem_cons_self (hdisplay e rfl)
    rw [cut_openInlines_append hgs hgsne hes] at h hbefore ⊢
    obtain ⟨gs', hgs', hread', hinline, hwritten, htotal⟩ :=
      (h.groups _ List.mem_cons_self rfl).exists_rewrites hgroup hgs
    have hconverted : Chunk.converted ⟨false, text gs⟩ = text gs' := hgs'.symm
    have hgsne' : text gs' ≠ [] := by
      rw [Ne, hread'.text_eq_nil_iff]
      rintro rfl
      exact hne hwritten.eq_nil
    rw [← List.getLast?_append] at hrest
    obtain ⟨es', htext, hreads, hrewrites, hdisplay, htotals⟩ := ih h.tail hrest (.inr hes)
      (b := (text gs').getLast?.or b) (.inl hes)
    have hdisplay := hdisplay hes
    refine ⟨gs' ++ es', ?_, ?_, ?_, fun h => absurd h hstart, ?_⟩
    · rw [text_append, htext, List.flatMap_cons, hconverted]
    · apply areRead_append_iff.mpr
      refine ⟨hread'.beside ?_ ?_, hreads⟩
      · intro c hc
        obtain ⟨hdollar, hbehind⟩ := hbefore.resolve_left hstart c hc
        refine ⟨hdollar, ?_⟩
        rw [← hconverted]
        exact hbehind _ rfl rfl
      · intro c hc
        rw [Option.or_none] at hc
        have hne' : es' ≠ [] := by
          rintro rfl
          cases hc
        obtain ⟨body, es'', rfl⟩ := hdisplay.exists_eq_cons hreads hne'
        have hhead : (text ((some (.display body), (Dollars.display body).source) :: es'')).head?
            = some '$' := (Dollars.display body).head?_source _
        rw [hhead] at hc
        refine ⟨(Option.some.inj hc).symm, ?_⟩
        rw [← hconverted]
        apply h.getLast?_ne hes hrest
        rintro rfl
        rw [htext] at hhead
        cases hhead
    · apply Rewrites.append
      · have hshift := hwritten.shift (S := groupRules) (a := x) (b := text es)
          (fun _ _ _ => trivial)
          (fun u s m d y hwrite => hwrite.groupRules (hx.resolve_right hstart))
        rw [List.append_nil] at hshift ⊢
        exact hshift
      · exact hrewrites
    · rw [cut_openInlines_append hinline hgsne' hdisplay]
      intro k hk hprose
      rcases List.mem_cons.mp hk with rfl | hk
      · exact htotal
      · exact htotals k hk hprose

/-- Groups that are converted once and for all: inline formulas are written in them, all dollars of
the new text are read, and no group has anything left to convert. -/
theorem GroupsOnce.exists_rewrites {es : Entries} (h : GroupsOnce (chunks .displays (text es)))
    (hread : AreRead none none es) :
  ∃ es', text es' = ((convertAllInlines.between .displays) (text es)).text ∧ AreRead none none es'
    ∧ Rewrites groupRules [] [] es es'
    ∧ ∀ k ∈ chunks .displays (text es'), k.isMath = false →
      (convertAllInlines k.text).tally.total = 0
  := by
  rw [hread.chunks_displays_eq] at h
  obtain ⟨es', htext, hread', hrewrites, -, htotal⟩ := h.exists_rewrites_behind (x := [])
    (b := none) hread (.inl (by simp [EndsWithDollar])) (.inr (by simp))
  refine ⟨es', ?_, hread', hrewrites, ?_⟩
  · rw [htext, Conversion.text_between, hread.chunks_displays_eq]
    rfl
  · rwa [hread'.chunks_displays_eq]

end DollarMath
