import DollarMath.Proofs.Chunks
import DollarMath.Proofs.Edits
import DollarMath.Proofs.InlineLines
import DollarMath.Proofs.Spared
import DollarMath.Proofs.Unclosed
import Mathlib.Data.List.Infix

/-!
# Formulas in backslash parentheses

Every formula in backslash parentheses is converted, unless another conversion has got at it
first: a bracket that is rewritten and shares a character with the formula, or a parenthesis
that joins the line of an unclosed formula with the line of a closed one.
-/

namespace DollarMath

open Delimiter (inlines)
open Explicit
open scoped List

/-! ### Converted formulas -/

/-- A converted text holds the inline formulas of the given bodies in order, and tallies at
least as many. -/
def HoldsInlines (bodies : List Text) (c : Converted) : Prop :=
  HoldsInOrder (bodies.map inlineOf) c.text ∧ (bodies.length : Int) ≤ c.tally.inline

namespace HoldsInlines

variable {bodies bodies' : List Text} {c : Converted}

/-- Some of the formulas are held, too. -/
theorem sublist (h : HoldsInlines bodies' c) (hsub : bodies <+ bodies') :
  HoldsInlines bodies c
  := by
  constructor
  · apply h.1.sublist (hsub.map inlineOf)
  · apply Int.le_trans _ h.2
    exact_mod_cast hsub.length_le

/-- Parts side by side hold the formulas of each. -/
theorem concat
    {κ : Type} {ks : List κ} {bodies : κ → List Text} {convert : κ → Converted}
    (h : ∀ k ∈ ks, HoldsInlines (bodies k) (convert k)) :
  HoldsInlines (ks.flatMap bodies) (.concat (ks.map convert))
  := by
  induction ks with
  | nil => exact ⟨trivial, Int.le_refl 0⟩
  | cons k ks ih =>
    have hk := h k List.mem_cons_self
    have ih := ih fun k' hk' => h k' (List.mem_cons_of_mem _ hk')
    constructor
    · rw [List.flatMap_cons, List.map_append]
      apply hk.1.append ih.1
    · rw [List.flatMap_cons, List.length_append]
      have hadd := Int.add_le_add hk.2 ih.2
      exact_mod_cast hadd

end HoldsInlines

/-- A replacement of all matches holds what it writes for them. -/
theorem holdsInOrder_text_replace
    {α : Type} {r : Reader α} {f : Match α → Option Text} {g : α → Text}
    (hf : ∀ m, f m = some (g m.value)) (t : Text) :
  HoldsInOrder ((r.values .start t).map g) (r.replace f t).text
  := by
  rw [Reader.text_replace, Reader.pieces]
  apply r.piecesFrom_induction fun p t ps =>
    HoldsInOrder ((r.values p t).map g) (ps.flatMap (Piece.written f))
  · intro p
    trivial
  · intro p c cs hpass ih
    rw [Reader.values_of_passes hpass]
    apply ih.append_left [c]
  · intro p m n hm ih
    rw [hm.values_eq, List.map_cons, List.flatMap_cons, Piece.written, hf]
    exact ⟨[], _, rfl, ih⟩

/-- The formulas in backslash parentheses are held once they are converted. -/
theorem holdsInlines_convertInlines (t : Text) :
  HoldsInlines ((inlines .start t).map Enclosure.body) (convertInlines t)
  := by
  constructor
  · rw [List.map_map]
    apply holdsInOrder_text_replace (g := inlineOf ∘ Enclosure.body)
    exact fun m => rfl
  · rw [convertInlines_eq_ofEntries, List.length_map]
    apply Int.le_refl

/-! ### Chunks -/

namespace Chunk

/-- The bodies of the formulas of a chunk; dollar mathematics has none. -/
def bodies (k : Chunk) : List Text :=
  if k.isMath then [] else (inlines .start k.text).map Enclosure.body

/-- Characters in front of dollar mathematics, or of nothing, are one chunk, or none. -/
theorem ofPieces_map_char_append_cases
    (s : Text) (ps : List (Piece Dollars)) (h : ∀ k ∈ (ofPieces ps).head?, k.isMath = true) :
  (ofPieces (s.map .char ++ ps)).flatMap bodies
      = bodies ⟨false, s⟩ ++ (ofPieces ps).flatMap bodies
    ∧ ∀ k ∈ ofPieces (s.map .char ++ ps), k = ⟨false, s⟩ ∨ k ∈ ofPieces ps
  := by
  by_cases hne : s = []
  · rw [hne]
    exact ⟨rfl, fun k hk => .inr hk⟩
  · rw [ofPieces_map_char_append hne h]
    exact ⟨rfl, fun k hk => List.mem_cons.mp hk⟩

end Chunk

/-- Without dollars, the explicit formulas are those in backslash parentheses. -/
theorem bodies_entries_of_not_mem {p : Place} {t : Text} (h : '$' ∉ t) :
  Explicit.bodies (read.entries p t) = (inlines p t).map Enclosure.body
  := by
  revert h
  apply read.piecesFrom_induction fun p t ps => '$' ∉ t →
    Explicit.bodies (ps.map Piece.entry) = (inlines p t).map Enclosure.body
  · intro p _
    rfl
  · intro p c cs hpass ih h
    rw [List.mem_cons, not_or] at h
    rw [passes_iff_of_ne fun heq => h.1 heq.symm] at hpass
    rw [inlines, Reader.values_of_passes hpass, ← inlines, ← ih h.2]
    rfl
  · rintro p ⟨start, source, value, rest⟩ n hm ih h
    rw [List.mem_append, not_or] at h
    cases value with
    | display d =>
      obtain ⟨-, hsource⟩ := reads_explicit.of_isRead hm
      exfalso
      apply h.1
      rw [hsource]
      apply Dollars.dollar_mem_source d
    | formula e =>
      have hread : Reader.IsRead Delimiter.inline.reader p ⟨start, source, e, rest⟩ n :=
        ⟨hm.start_eq, hm.source_ne_nil, read_eq_formula_iff.mp hm.read, hm.source_eq⟩
      have hvalues := hread.values_eq
      dsimp only at hvalues ih ⊢
      rw [inlines, hvalues]
      exact congrArg (e.body :: ·) (ih h.2)

/-- A chunk of prose without a dollar. -/
theorem bodies_of_not_mem {t : Text} (h : '$' ∉ t) {p : Place} (hp : p.escaped = false) :
  Chunk.bodies ⟨false, t⟩ = Explicit.bodies (read.entries p t)
  := by
  rw [bodies_entries_of_not_mem h, Chunk.bodies, inlines, inlines,
    Delimiter.reads_inline.seesEscape.values_congr (q := .start) hp]
  rfl

/-- Without displays, the pieces are cut up into characters. -/
theorem flatMap_cutUp_of_none {ps : List (Piece Explicit)}
    (h : ∀ m, .found m ∈ ps → m.value.dollars?.isSome = false) :
  ps.flatMap (Piece.cutUp dollars?) = (ps.flatMap Piece.source).map .char
  := by
  rw [List.map_flatMap]
  apply List.flatMap_congr
  rintro (c | m) hm
  · rfl
  · have hnone := Option.isSome_eq_false_iff.mp (h m hm)
    rw [Option.isNone_iff_eq_none] at hnone
    rw [Piece.cutUp, hnone]
    rfl

/-- Tidy pieces without displays have no dollars. -/
theorem dollar_not_mem_of_none
    {ps : List (Piece Explicit)} (htidy : AreTidy (ps.map Piece.entry))
    (h : ∀ m, .found m ∈ ps → m.value.dollars?.isSome = false) :
  '$' ∉ ps.flatMap Piece.source
  := by
  intro hmem
  obtain ⟨piece, hpiece, hc⟩ := List.mem_flatMap.mp hmem
  obtain ⟨d, hd⟩ := htidy _ (List.mem_map_of_mem hpiece) (by
    cases piece with
    | char c => exact hc
    | found m => exact hc)
  cases piece with
  | char c => cases hd
  | found m =>
    have hvalue : m.value = .display d := Option.some.inj hd
    have hnone := h m hpiece
    rw [hvalue] at hnone
    cases hnone

/-- The first display of a tidy text: before it stands `g`, without a dollar. -/
structure IsFirstDisplay (p : Place) (t g : Text) (m : Match Dollars) : Prop where
  /-- What stands around the display. -/
  eq : t = g ++ (m.source ++ m.rest)
  /-- The display is not empty, and does not end with a backslash. -/
  source : m.source ≠ [] ∧ m.source.getLast? ≠ some '\\'
  /-- No dollar stands before the display. -/
  dollar : '$' ∉ g
  /-- The text behind the display is tidy. -/
  tidy : AreTidy (read.entries (p.after (g ++ m.source)) m.rest)
  /-- The display as an entry. -/
  entries : read.entries p t = read.entries p g
    ++ (some (.display m.value), m.source) :: read.entries (p.after (g ++ m.source)) m.rest
  /-- The display as dollar mathematics. -/
  pieces : (Dollars.read .displays).piecesFrom 0 p t = g.map .char
    ++ .found m :: (Dollars.read .displays).piecesFrom 0 (p.after (g ++ m.source)) m.rest

/-- A tidy text has no dollar, or it has a first display. -/
theorem not_mem_or_isFirstDisplay {p : Place} {t : Text} (h : AreTidy (read.entries p t)) :
  '$' ∉ t ∨ ∃ g m, IsFirstDisplay p t g m
  := by
  rcases read.exists_first (fun m => m.value.dollars?.isSome) p t with
    hnone | ⟨ps, m, n, hps, ht, hread, hm, hgap⟩
  · left
    have hdollar := dollar_not_mem_of_none h hnone
    rwa [Reader.flatMap_source_piecesFrom] at hdollar
  · right
    obtain ⟨d, hd⟩ : ∃ d, m.value = .display d := by
      cases hvalue : m.value with
      | display d => exact ⟨d, rfl⟩
      | formula e => simp [hvalue, dollars?] at hm
    have hentries : read.entries p t = ps.map Piece.entry
        ++ (some (.display d), m.source)
          :: read.entries (p.after (ps.flatMap Piece.source ++ m.source)) m.rest := by
      rw [Reader.entries, hps, List.map_append, ← hd]
      rfl
    have hcut : Piece.cutUp dollars? (.found m) = [.found ⟨m.start, m.source, d, m.rest⟩] := by
      rw [Piece.cutUp, hd]
      rfl
    have htidy := h
    rw [hentries, areTidy_append] at htidy
    obtain ⟨hgapTidy, htidy⟩ := htidy
    have hrest := (List.forall_mem_cons.mp htidy).2
    refine ⟨ps.flatMap Piece.source, ⟨m.start, m.source, d, m.rest⟩, ht, ?_, ?_, hrest, ?_, ?_⟩
    · use hread.source_ne_nil
      rw [(reads_explicit.of_isRead hread).2, hd, Explicit.source, d.getLast?_source]
      simp
    · apply dollar_not_mem_of_none hgapTidy hgap
    · rw [hentries, isLocal_read.entries_eq_of_append hps]
    · rw [dollars_eq_flatMap h, dollars_eq_flatMap hrest, hps, List.flatMap_append,
        flatMap_cutUp_of_none hgap, List.flatMap_cons, hcut]
      rfl

/-- The formulas of a tidy text are those of its prose chunks, which hold no dollar. -/
theorem formulaBodies_eq_flatMap {t : Text} (h : IsTidy t) :
  formulaBodies t = (chunks .displays t).flatMap Chunk.bodies
    ∧ ∀ k ∈ chunks .displays t, k.isMath = false → '$' ∉ k.text
  := by
  suffices ∀ p : Place, p.escaped = false → AreTidy (read.entries p t) →
      Explicit.bodies (read.entries p t)
          = (Chunk.ofPieces ((Dollars.read .displays).piecesFrom 0 p t)).flatMap Chunk.bodies
        ∧ ∀ k ∈ Chunk.ofPieces ((Dollars.read .displays).piecesFrom 0 p t),
          k.isMath = false → '$' ∉ k.text from this .start rfl h
  clear h
  induction hn : t.length using Nat.strongRecOn generalizing t with
  | ind n ih =>
    subst hn
    intro p hp htidy
    rcases not_mem_or_isFirstDisplay htidy with hdollar | ⟨g, m, hfirst⟩
    · obtain ⟨hbodies, hmem⟩ := Chunk.ofPieces_map_char_append_cases t [] (by
        simp [Chunk.ofPieces])
      rw [List.append_nil] at hbodies hmem
      rw [Dollars.pieces_of_not_mem hdollar, hbodies, bodies_of_not_mem hdollar hp]
      constructor
      · apply (List.append_nil _).symm
      · intro k hk _
        rcases hmem k hk with rfl | hk
        · exact hdollar
        · cases hk
    · have hescaped : (p.after (g ++ m.source)).escaped = false := by
        rw [Place.after_append]
        apply Place.escaped_after_eq_false hfirst.source.1 hfirst.source.2
      have hlength : m.rest.length < t.length := by
        have hpos := List.length_pos_iff.mpr hfirst.source.1
        rw [hfirst.eq, List.length_append, List.length_append]
        omega
      obtain ⟨hbodies, hprose⟩ := ih m.rest.length hlength rfl _ hescaped hfirst.tidy
      obtain ⟨hsplit, hmem⟩ := Chunk.ofPieces_map_char_append_cases g
        (.found m :: (Dollars.read .displays).piecesFrom 0 (p.after (g ++ m.source)) m.rest)
        (by simp [Chunk.ofPieces])
      rw [hfirst.pieces, hsplit, bodies_of_not_mem hfirst.dollar hp, hfirst.entries,
        bodies_append]
      constructor
      · exact congrArg (Explicit.bodies (read.entries p g) ++ ·) hbodies
      · intro k hk hmath
        rcases hmem k hk with rfl | hk
        · exact hfirst.dollar
        · rcases List.mem_cons.mp hk with rfl | hk
          · cases hmath
          · apply hprose k hk hmath

/-! ### Between the displays -/

/-- A text without a dollar is one chunk. -/
theorem text_between_of_not_mem {f : Conversion} {scope : Dollars.Scope} {t : Text}
    (h : '$' ∉ t) (hne : t ≠ []) :
  ((f.between scope) t).text = (f t).text
  := by
  have hchunks : chunks scope t = [⟨false, t⟩] := by
    rw [chunks, Reader.pieces, Dollars.pieces_of_not_mem h, Chunk.ofPieces_map_char hne]
  rw [Conversion.text_between, hchunks]
  apply List.append_nil

/-- The inline formulas of a text without a dollar. -/
theorem holdsInlines_convertAllInlines
    {t : Text} (hdollar : '$' ∉ t)
    (h : ∀ m ∈ (Paren.read (Paren.pairs t)).findAll t, ∀ w ∈ m.value.formula?,
      opensInline (t.take m.start) = true → '\n' ∈ m.source → '\n' ∈ w) :
  HoldsInlines ((inlines .start t).map Enclosure.body) (convertAllInlines t)
  := by
  rw [convertAllInlines, Conversion.inOrder_cons]
  have hparens : ((convertParens.between .all) t).text = (convertParens t).text := by
    by_cases hne : t = []
    · rw [hne]
      rfl
    · apply text_between_of_not_mem hdollar hne
  have hnonneg := (isTallied_law.between convertParens_isTallied .all t).1.1
  have hinlines := (holdsInlines_convertInlines (convertParens t).text).sublist
    ((inlines_sublist_convertParens h).map Enclosure.body)
  constructor
  · rw [Converted.text_andThen, Conversion.inOrder_singleton, hparens]
    apply hinlines.1
  · rw [Converted.tally_andThen, Conversion.inOrder_singleton, hparens]
    apply Int.le_trans hinlines.2
    change _ ≤ ((convertParens.between .all) t).tally.inline
      + (convertInlines (convertParens t).text).tally.inline
    omega

/-! ### The conversion of prose -/

/-- No conversion gets at the formulas in backslash parentheses of a text before they are
converted. -/
structure LeavesInlines (t : Text) : Prop where
  /-- The quoted brackets that are collapsed spare the formulas. -/
  quotedBrackets : ∀ m ∈ Delimiter.quotedBracket.reader.findAll t,
    isCollapsible m = true → m.span.Spares t
  /-- The bracket blocks that look like mathematics spare the formulas. -/
  bracketBlocks : ∀ m ∈ Delimiter.bracketBlock.reader.findAll (collapsed t),
    looksMath m.value.body = true → m.span.Spares (collapsed t)
  /-- The brackets that are rewritten spare the formulas. -/
  brackets : ∀ m ∈ Delimiter.bracket.reader.findAll (convertBracketBlocks (collapsed t)).text,
    isRewritten (convertBracketBlocks (collapsed t)).text m = true →
      m.span.Spares (convertBracketBlocks (collapsed t)).text
  /-- Between the displays, a parenthesis of several lines that is a formula has several lines
  as a formula, if an opening backslash parenthesis stands before it on its line. -/
  parens : ∀ k ∈ chunks .displays (convertAllDisplays t).text, k.isMath = false →
    ∀ m ∈ (Paren.read (Paren.pairs k.text)).findAll k.text, ∀ w ∈ m.value.formula?,
      opensInline (k.text.take m.start) = true → '\n' ∈ m.source → '\n' ∈ w

/-- All formulas in backslash parentheses are converted, in their order, as long as no other
conversion gets at them. -/
theorem holdsInOrder_convertMath
    {t : Text} (hdollar : '$' ∉ t) (hdisplay : occurs ['\\', '['] t = false)
    (h : LeavesInlines t) :
  HoldsInOrder ((Delimiter.inline.reader.findAll t).map fun m => inlineOf m.value.body)
      (convertMath t).text
    ∧ ((Delimiter.inline.reader.findAll t).length : Int) ≤ (convertMath t).tally.inline
  := by
  have hseparates : Separates '\\' '[' t := by
    rw [separates_iff, ← occurs_iff, hdisplay]
    exact Bool.false_ne_true
  obtain ⟨hdollar', hcollapsed⟩ := keepsFormulas_collapsed hdollar h.quotedBrackets
  obtain ⟨htidy, hblocks⟩ := keepsFormulas_convertBracketBlocks (isTidy_of_not_mem hdollar')
    fun m hm _ => h.bracketBlocks m hm
  obtain ⟨htidy', hbrackets⟩ := keepsFormulas_convertBrackets htidy h.brackets
  rw [← text_convertAllDisplays_of_separates hseparates] at htidy' hbrackets
  obtain ⟨hchunks, hprose⟩ := formulaBodies_eq_flatMap htidy'
  have hbetween : HoldsInlines ((chunks .displays (convertAllDisplays t).text).flatMap Chunk.bodies)
      ((convertAllInlines.between .displays) (convertAllDisplays t).text) := by
    apply HoldsInlines.concat
    intro k hk
    rw [Chunk.bodies]
    cases hmath : k.isMath with
    | true => exact ⟨trivial, Int.le_refl 0⟩
    | false => exact holdsInlines_convertAllInlines (hprose k hk hmath) (h.parens k hk hmath)
  rw [← hchunks] at hbetween
  have hall := hbetween.sublist (hcollapsed.trans (hblocks.trans hbrackets))
  rw [formulaBodies, bodies_entries_of_not_mem hdollar, inlines, Reader.values_start] at hall
  have hnonneg := (convertAllDisplays_isNonneg t).1
  rw [convertMath_eq_andThen]
  constructor
  · have hholds := hall.1
    rw [List.map_map, List.map_map] at hholds
    rw [Converted.text_andThen]
    exact hholds
  · have hle := hall.2
    rw [List.length_map, List.length_map] at hle
    apply Int.le_trans hle
    rw [Converted.tally_andThen]
    change _ ≤ (convertAllDisplays t).tally.inline
      + ((convertAllInlines.between .displays) (convertAllDisplays t).text).tally.inline
    omega

/-- An unclosed formula before a parenthesis of two lines, and a bracket after a formula. -/
theorem holdsInOrder_convertMath_unclosed :
  let t := ['\\', '(', 'a', ' ', '(', '1', ',', '\n', '2', ')', ' ', '\\', '(', 'z', '\\', ')', ' ',
    '[', '0', ',', '1', ']']
  ('$' ∉ t ∧ occurs ['\\', '['] t = false ∧ LeavesInlines t)
    ∧ (HoldsInOrder ((Delimiter.inline.reader.findAll t).map fun m => inlineOf m.value.body)
        (convertMath t).text
      ∧ ((Delimiter.inline.reader.findAll t).length : Int) ≤ (convertMath t).tally.inline)
  := by
  intro t
  have hdollar : '$' ∉ t := by decide
  have hdisplay : occurs ['\\', '['] t = false := by decide
  have hleaves : LeavesInlines t := ⟨by decide, by decide, by decide, by decide⟩
  exact ⟨⟨hdollar, hdisplay, hleaves⟩, holdsInOrder_convertMath hdollar hdisplay hleaves⟩

/-- A bracket in a formula is rewritten, and the formula is not. -/
theorem not_holdsInOrder_convertMath :
  let t := ['\\', '(', '[', '0', ',', '1', ']', '\\', ')']
  ('$' ∉ t ∧ occurs ['\\', '['] t = false ∧ occurs ['\\', ']'] t = false)
    ∧ ¬ HoldsInOrder ((Delimiter.inline.reader.findAll t).map fun m => inlineOf m.value.body)
        (convertMath t).text
    ∧ ¬ ((Delimiter.inline.reader.findAll t).length : Int) ≤ (convertMath t).tally.inline
  := by
  decide

end DollarMath
