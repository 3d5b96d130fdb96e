import DollarMath.Proofs.Apart
import DollarMath.Proofs.Reading
import DollarMath.Proofs.Trimming
import DollarMath.Formula

/-!
# Explicit mathematics

Displays between dollars and inline formulas between backslash parentheses are mathematics
whatever stands between their delimiters.  A formula counts outside the displays only.  Where
all dollars of a text belong to displays, writing one more display in place of characters
that stand apart from the explicit mathematics keeps every formula.
-/

namespace DollarMath

open scoped List

/-- Mathematics with delimiters of its own. -/
inductive Explicit where
  /-- A display between dollars. -/
  | display (d : Dollars)
  /-- An inline formula between backslash parentheses. -/
  | formula (e : Enclosure)
deriving DecidableEq, Repr

namespace Explicit

/-- The characters of explicit mathematics. -/
def source : Explicit → Text
  | display d => d.source
  | formula e => e.source

/-- The body of a formula; a display counts for none. -/
def body? : Explicit → Option Text
  | display _ => none
  | formula e => some e.body

/-- The dollar mathematics of a display; a formula counts for none. -/
def dollars? : Explicit → Option Dollars
  | display d => some d
  | formula _ => none

/-- Explicit mathematics that is read where a backslash stands before it, or none does. -/
def IsAllowed (escaped : Bool) : Explicit → Prop
  | display d => d.IsDisplay
  | formula e => Delimiter.IsInline escaped e

/-- Reads explicit mathematics. -/
def read : Reader Explicit := fun p t =>
  match Dollars.read .displays p t with
  | some (d, n) => some (.display d, n)
  | none => (Delimiter.inline.reader p t).map fun r => (.formula r.1, r.2)

end Explicit

namespace Dollars

/-- Dollar mathematics starts with a dollar. -/
theorem passes_of_ne {scope : Scope} {p : Place} {c : Char} {t : Text} (hc : c ≠ '$') :
  (read scope).Passes p (c :: t)
  := by
  intro d k h
  rw [read.eq_def] at h
  split at h
  · next heq => exact hc (List.cons.inj heq).1
  · next heq => exact hc (List.cons.inj heq).1
  · cases h

/-- Displays are read whichever dollar mathematics is looked for. -/
theorem read_of_read_displays
    {scope : Scope} {p : Place} {t : Text} {r : Dollars × Nat}
    (h : read .displays p t = some r) :
  read scope p t = some r
  := by
  rw [read.eq_def] at h ⊢
  split at h
  · exact h
  · cases h
  · cases h

/-- A body without dollars makes a display. -/
theorem isDisplay_of_not_mem {body : Text} (h : '$' ∉ body) :
  IsDisplay (.display body)
  := by
  use body, rfl
  intro hinside
  have hle := hinside.sublist.count_le '$'
  rw [List.count_append, List.count_eq_zero.mpr h] at hle
  simp at hle

/-- The display that is written for a body. -/
def ofBody (body : Text) : Dollars := display ('\n' :: trim body ++ ['\n'])

/-- A display with its line ends is what is written for a body. -/
theorem source_ofBody (body : Text) :
  (ofBody body).source = displayOf body
  := by simp [ofBody, source, displayOf]

/-- It is a display if the body has no dollars. -/
theorem isDisplay_ofBody {body : Text} (h : '$' ∉ body) :
  (ofBody body).IsDisplay
  := by
  apply isDisplay_of_not_mem
  simpa using fun hmem => h (mem_of_mem_trim hmem)

theorem pieces_of_not_mem {scope : Scope} {p : Place} {t : Text} (h : '$' ∉ t) :
  (read scope).piecesFrom 0 p t = t.map .char
  := by
  apply Reader.piecesFrom_of_forall_passes
  rintro u c v rfl
  apply passes_of_ne
  rintro rfl
  simp at h

/-- A text without dollars has no dollar mathematics. -/
theorem findAll_of_not_mem {scope : Scope} {t : Text} (h : '$' ∉ t) :
  (read scope).findAll t = []
  := by
  rw [Reader.findAll, Reader.pieces, pieces_of_not_mem h]
  simp [Piece.match?]

end Dollars

theorem Dollars.dollar_mem_source (d : Dollars) :
  '$' ∈ d.source
  := by
  cases d with
  | display body => simp [source]
  | inline body => simp [source]

/-- Dollar mathematics ends with a dollar. -/
theorem Dollars.getLast?_source (d : Dollars) :
  d.source.getLast? = some '$'
  := by
  cases d with
  | display body =>
    rw [source, List.getLast?_append_of_ne_nil _ (List.cons_ne_nil _ _)]
    rfl
  | inline body => rw [source, List.getLast?_concat]

/-- It starts with one. -/
theorem Dollars.head?_source {d : Dollars} (t : Text) :
  (d.source ++ t).head? = some '$'
  := by
  cases d with
  | display body => rfl
  | inline body => rfl

namespace Explicit

open Reader

/-- A display and a formula never start with the same character. -/
theorem read_displays_eq_none_of_inline
    {p : Place} {t : Text} {e : Enclosure} {k : Nat}
    (h : Delimiter.inline.reader p t = some (e, k)) :
  Dollars.read .displays p t = none
  := by
  obtain ⟨he, -, u, rfl⟩ := (Delimiter.reads_inline p t e k).mp h
  rw [Option.eq_none_iff_forall_ne_some]
  rintro ⟨d, n⟩ hd
  obtain ⟨-, -, v, hv⟩ := (Dollars.reads_displays p _ d n).mp hd
  have hheads := congrArg List.head? hv
  rw [d.head?_source, he.head?_source] at hheads
  cases hheads

/-- A display is read where the displays are read by themselves. -/
theorem read_eq_display_iff {p : Place} {t : Text} {d : Dollars} {k : Nat} :
  read p t = some (.display d, k) ↔ Dollars.read .displays p t = some (d, k)
  := by
  rw [read]
  split
  · next d' n hd =>
    rw [hd]
    simp
  · next hnone =>
    rw [hnone]
    simp

/-- A formula is read where the formulas are read by themselves. -/
theorem read_eq_formula_iff {p : Place} {t : Text} {e : Enclosure} {k : Nat} :
  read p t = some (.formula e, k) ↔ Delimiter.inline.reader p t = some (e, k)
  := by
  rw [read]
  split
  · next d' n hd =>
    constructor
    · intro h
      cases h
    · intro h
      rw [read_displays_eq_none_of_inline h] at hd
      cases hd
  · simp

/-- The reader reads the sources of what is allowed. -/
theorem reads_explicit :
  read.Reads source IsAllowed
  := by
  intro p t a k
  cases a with
  | display d => exact read_eq_display_iff.trans (Dollars.reads_displays p t d k)
  | formula e => exact read_eq_formula_iff.trans (Delimiter.reads_inline p t e k)

/-- Where no dollar stands, explicit mathematics is a formula. -/
theorem passes_iff_of_ne {p : Place} {c : Char} {t : Text} (hc : c ≠ '$') :
  read.Passes p (c :: t) ↔ Delimiter.inline.reader.Passes p (c :: t)
  := by
  constructor
  · intro h e k hread
    apply h _ _ (read_eq_formula_iff.mpr hread)
  · rintro h (d | e) k hread
    · apply Dollars.passes_of_ne hc _ _ (read_eq_display_iff.mp hread)
    · apply h _ _ (read_eq_formula_iff.mp hread)

/-- What is read starts with a dollar or a backslash. -/
theorem passes_of_ne {p : Place} {c : Char} {t : Text} (hdollar : c ≠ '$') (hc : c ≠ '\\') :
  read.Passes p (c :: t)
  := (passes_iff_of_ne hdollar).mpr (Delimiter.passes_inline_of_ne hc)

/-- What is read does not depend on what follows it. -/
theorem isLocal_read :
  read.IsLocal
  := reads_explicit.isLocal

/-- Of what stands before a place, only a backslash matters. -/
theorem seesEscape_read :
  read.SeesEscape
  := reads_explicit.seesEscape

/-! ### Formulas -/

/-- The bodies of the formulas among entries. -/
def bodies (es : List (Option Explicit × Text)) : List Text :=
  es.filterMap fun e => e.1.bind body?

@[simp]
theorem bodies_append (es es' : List (Option Explicit × Text)) :
  bodies (es ++ es') = bodies es ++ bodies es'
  := List.filterMap_append

@[simp]
theorem bodies_chars (s : Text) :
  bodies (s.map fun c => (none, [c])) = []
  := by
  rw [bodies, List.filterMap_map, List.filterMap_eq_nil_iff]
  intro c _
  rfl

/-- Only displays hold a dollar. -/
def AreTidy (es : List (Option Explicit × Text)) : Prop :=
  ∀ e ∈ es, '$' ∈ e.2 → ∃ d, e.1 = some (.display d)

/-- Entries are tidy if those on both sides are. -/
theorem areTidy_append {es es' : List (Option Explicit × Text)} :
  AreTidy (es ++ es') ↔ AreTidy es ∧ AreTidy es'
  := List.forall_mem_append

theorem areTidy_chars {s : Text} :
  AreTidy (s.map fun c => (none, [c])) ↔ '$' ∉ s
  := by
  simp only [AreTidy, List.forall_mem_map, List.mem_singleton, reduceCtorEq, exists_false,
    imp_false]
  apply List.forall_mem_ne

/-- The bodies of the formulas outside the displays of a text. -/
def formulaBodies (t : Text) : List Text :=
  bodies (read.entries .start t)

/-- A text of which all dollars belong to displays. -/
def IsTidy (t : Text) : Prop :=
  AreTidy (read.entries .start t)

/-- A text without dollars is tidy. -/
theorem isTidy_of_not_mem {t : Text} (h : '$' ∉ t) :
  IsTidy t
  := by
  intro e he hmem
  exfalso
  apply h
  rw [← read.flatMap_entries .start t]
  apply List.mem_flatMap.mpr ⟨e, he, hmem⟩

/-- Where no formula is read in a text without a dollar at its front, none is read when more
text follows, if the line ends in the text or no closing parenthesis follows on it. -/
theorem passes_append
    {p : Place} {c : Char} {v u : Text} (hc : c ≠ '$')
    (hline : '\n' ∈ c :: v ∨ ')' ∉ u.takeWhile (· ≠ '\n')) (h : read.Passes p (c :: v)) :
  read.Passes p (c :: (v ++ u))
  := by
  rw [passes_iff_of_ne hc] at h ⊢
  apply Delimiter.passes_inline_append hline h

/-! ### The dollars of a tidy text -/

/-- Where only displays hold a dollar, the displays are all the dollar mathematics. -/
theorem dollars_eq_flatMap
    {scope : Dollars.Scope} {p : Place} {t : Text} (h : AreTidy (read.entries p t)) :
  (Dollars.read scope).piecesFrom 0 p t
    = (read.piecesFrom 0 p t).flatMap (Piece.cutUp dollars?)
  := by
  apply Reader.piecesFrom_eq_flatMap
  · intro q c u hc _
    apply Dollars.passes_of_ne
    rintro rfl
    obtain ⟨d, hd⟩ := h _ (List.mem_map_of_mem hc) List.mem_cons_self
    cases hd
  · rintro q ⟨start, m, value, rest⟩ n d - hm hvalue
    cases value with
    | formula e => cases hvalue
    | display d' =>
      obtain rfl := Option.some.inj hvalue
      apply Dollars.read_of_read_displays
      apply read_eq_display_iff.mp hm.read
  · intro q m n hm _ hvalue u c v hsource
    apply Dollars.passes_of_ne
    rintro rfl
    obtain ⟨d, hd⟩ := h _ (List.mem_map_of_mem hm) (by
      change '$' ∈ m.source
      rw [hsource]
      simp)
    have heq : m.value = .display d := Option.some.inj hd
    rw [heq] at hvalue
    cases hvalue

/-- In a tidy text every display is dollar mathematics of either scope. -/
theorem exists_dollars_of_display
    (scope : Dollars.Scope) {t : Text} {i : Match Explicit} {d : Dollars} (htidy : IsTidy t)
    (hi : i ∈ read.findAll t) (hvalue : i.value = .display d) :
  ∃ m ∈ (Dollars.read scope).findAll t, m.span = i.span
  := by
  use ⟨i.start, i.source, d, i.rest⟩
  constructor
  · rw [mem_findAll_iff] at hi ⊢
    rw [pieces, dollars_eq_flatMap htidy]
    apply List.mem_flatMap.mpr ⟨.found i, hi, _⟩
    simp [Piece.cutUp, hvalue, dollars?]
  · rfl

/-- The spans of the formulas outside the displays of a text. -/
def formulaSpans (t : Text) : List Span :=
  ((read.findAll t).filter fun i => i.value.body?.isSome).map Match.span

/-- Without a dollar the formulas are all the explicit mathematics. -/
theorem span_mem_formulaSpans_of_not_mem
    {t : Text} {i : Match Explicit} (hdollar : '$' ∉ t) (hi : i ∈ read.findAll t) :
  i.span ∈ formulaSpans t
  := by
  apply List.mem_map_of_mem
  apply List.mem_filter.mpr ⟨hi, _⟩
  cases hvalue : i.value with
  | formula e => rfl
  | display d =>
    exfalso
    obtain ⟨m, hm, -⟩ := exists_dollars_of_display .all (isTidy_of_not_mem hdollar)
      hi hvalue
    obtain ⟨u, k, rfl, -, hread, -⟩ := exists_of_mem_pieces hm
    cases hsource : m.source ++ m.rest with
    | nil => simp [hsource, Dollars.read] at hread
    | cons c cs =>
      rw [hsource] at hread
      apply Dollars.passes_of_ne _ _ _ hread
      rintro rfl
      apply hdollar
      simp [hsource]

/-! ### Writing a display -/

/-- What is written for a display: a marker, and the display. -/
structure IsSplice (source w : Text) : Prop where
  /-- The marker starts nothing, and closes no formula. -/
  parts : ∃ marker body, w = marker ++ displayOf body
    ∧ (∀ c ∈ marker, c ≠ '$' ∧ c ≠ '\\' ∧ c ≠ ')') ∧ body ⊆ source
  /-- No backslash stands at the end of what the display is written for. -/
  escaped : ∀ p : Place, (p.after source).escaped = false

/-- A display on lines of its own is read as such. -/
theorem entries_displayOf {p : Place} {body : Text} (h : '$' ∉ body) (z : Text) :
  read.entries p (displayOf body ++ z)
    = (some (.display (.ofBody body)), displayOf body) :: read.entries (p.after (displayOf body)) z
  := by
  rw [← Dollars.source_ofBody]
  have hne : (Dollars.ofBody body).source ≠ [] := by simp [Dollars.ofBody, Dollars.source]
  exact (reads_explicit.isRead (p := p) (a := .display (.ofBody body))
    (Dollars.isDisplay_ofBody h) hne z).entries_eq

theorem takeWhile_append_newline (t u : Text) :
  (t ++ '\n' :: u).takeWhile (· ≠ '\n') <+: t
  := by
  rw [List.takeWhile_append]
  split
  · simp
  · apply List.takeWhile_prefix

/-- A display keeps what stands around it. -/
theorem entries_append_display
    {p : Place} {g marker body z : Text} (hg : AreTidy (read.entries p g))
    (hmarker : ∀ c ∈ marker, c ≠ '$' ∧ c ≠ '\\' ∧ c ≠ ')') (hbody : '$' ∉ body) :
  ∃ es, AreTidy es ∧ read.entries p (g ++ ((marker ++ displayOf body) ++ z))
    = read.entries p g
      ++ (es ++ read.entries (p.after (g ++ (marker ++ displayOf body))) z)
  := by
  have hd := entries_displayOf (p := (p.after g).after marker) hbody z
  refine ⟨marker.map (fun c => (none, [c])) ++ [(some (.display (.ofBody body)), displayOf body)],
    ?_, ?_⟩
  · rw [areTidy_append, areTidy_chars]
    constructor
    · exact fun hmem => (hmarker _ hmem).1 rfl
    · simp [AreTidy]
  · have hline : ')' ∉ ((marker ++ displayOf body) ++ z).takeWhile (· ≠ '\n') := by
      intro hmem
      have hfirst : (marker ++ displayOf body) ++ z
          = (marker ++ ['$', '$']) ++ '\n' :: (trim body ++ ['\n', '$', '$'] ++ z) := by
        simp [displayOf]
      rw [hfirst] at hmem
      have hmem := (takeWhile_append_newline _ _).subset hmem
      simp only [List.mem_append, List.mem_cons, List.not_mem_nil, or_false, Char.reduceEq] at hmem
      exact (hmarker _ hmem).2.2 rfl
    rw [isLocal_read.entries_append_of_passes, List.append_assoc,
      entries_append_of_forall_passes, hd]
    · simp only [List.append_assoc, List.singleton_append, Place.after_append]
    · intro u c v hu
      obtain ⟨hdollar, hc, -⟩ := hmarker c (by rw [hu]; simp)
      apply passes_of_ne hdollar hc
    · intro u c v _ hmem hpass
      apply passes_append _ (.inr hline) hpass
      rintro rfl
      obtain ⟨d, hd⟩ := hg _ hmem List.mem_cons_self
      cases hd

/-- Behind a display that is written nothing is escaped. -/
theorem escaped_after_displayOf (p : Place) (t body : Text) :
  (p.after (t ++ displayOf body)).escaped = false
  := by
  rw [displayOf, ← List.append_assoc]
  apply Place.escaped_after_append
  · apply List.cons_ne_nil
  · decide

/-- Displays written for characters that stand apart from the explicit mathematics of a tidy
text leave it tidy, and keep its formulas. -/
theorem keepsFormulas_replace_display
    {α : Type} {r : Reader α} {f : Match α → Option Text} {t : Text} (htidy : IsTidy t)
    (hsplice : ∀ m ∈ r.findAll t, ∀ w, f m = some w → IsSplice m.source w)
    (hapart : ∀ m ∈ r.findAll t, ∀ w, f m = some w →
      ∀ i ∈ read.findAll t, m.span.Apart i.span) :
  IsTidy (r.replace f t).text ∧ formulaBodies t <+ formulaBodies (r.replace f t).text
  := by
  apply isLocal_read.replace_apart_induction f seesEscape_read
    (fun es es' => AreTidy es → AreTidy es' ∧ bodies es <+ bodies es') hapart _ _ _ htidy
  · intro m hm w hw p q
    obtain ⟨⟨marker, body, rfl, -, -⟩, hescaped⟩ := hsplice m hm w hw
    rw [hescaped, escaped_after_displayOf]
  · exact fun es hes => ⟨hes, List.Sublist.refl _⟩
  · intro p g m w es u' hm hw ih htidy
    rw [areTidy_append, areTidy_append, areTidy_chars] at htidy
    obtain ⟨hg, hsource, hes⟩ := htidy
    obtain ⟨⟨marker, body, rfl, hmarker, hbody⟩, -⟩ := hsplice m hm w hw
    obtain ⟨new, hnew, hentries⟩ :=
      entries_append_display (z := u') hg hmarker fun hmem => hsource (hbody hmem)
    obtain ⟨htidy', hkept⟩ := ih hes
    rw [hentries]
    constructor
    · rw [areTidy_append, areTidy_append]
      exact ⟨hg, hnew, htidy'⟩
    · simp only [bodies_append, bodies_chars, List.nil_append]
      apply List.Sublist.append (List.Sublist.refl _)
      apply hkept.trans
      apply List.sublist_append_right

/-- Displays written outside the dollar mathematics of a tidy text leave it tidy, and keep its
formulas if they are written for characters that stand apart from them. -/
theorem keepsFormulas_replaceOutside
    {α : Type} {r : Reader α} {f : Match α → Option Text} {t : Text} (htidy : IsTidy t)
    (hsplice : ∀ m ∈ r.findAll t, ∀ w, f m = some w → IsSplice m.source w)
    (hapart : ∀ m ∈ r.findAll t, m.span.touches (dollarSpans .all t) = false → (f m).isSome →
      ∀ d ∈ formulaSpans t, m.span.Apart d) :
  IsTidy (r.replaceOutside .all f t).text
    ∧ formulaBodies t <+ formulaBodies (r.replaceOutside .all f t).text
  := by
  apply keepsFormulas_replace_display htidy
  · intro m hm w hw
    obtain ⟨-, hw⟩ := Option.ite_none_left_eq_some.mp hw
    apply hsplice m hm w hw
  · intro m hm w hw i hi
    obtain ⟨htouches, hw⟩ := Option.ite_none_left_eq_some.mp hw
    rw [Bool.not_eq_true] at htouches
    cases hvalue : i.value with
    | display d =>
      obtain ⟨m', hm', hspan⟩ := exists_dollars_of_display .all htidy hi hvalue
      rw [← hspan]
      apply apart_of_touches_eq_false htouches m' hm'
    | formula e =>
      apply hapart m hm htouches (by simp [hw])
      apply List.mem_map_of_mem
      apply List.mem_filter.mpr ⟨hi, _⟩
      simp [hvalue, body?]

end Explicit

end DollarMath
