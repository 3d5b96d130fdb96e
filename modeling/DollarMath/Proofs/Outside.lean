import DollarMath.Proofs.Edits
import Mathlib.Data.List.TakeWhile

/-!
# Replacements outside dollar mathematics

A replacement can be kept outside the dollar mathematics of a text.  It then rewrites exactly the
matches that share no character with any of it, so that the dollar mathematics stays in the text
as it is.
-/

namespace DollarMath

/-! ### Spans that touch dollar mathematics -/

/-- A span that touches one of the given spans shares a character with it. -/
theorem Span.exists_of_touches {s : Span} {ds : List Span} (h : s.touches ds = true) :
  ∃ d ∈ ds, ¬ s.Apart d
  := by
  obtain ⟨d, hlast, hd⟩ := (Option.any_eq_true _ _).mp h
  have hmem := List.mem_of_getLast? hlast
  have hstart : d.start < s.stop := by simpa using List.mem_takeWhile_imp hmem
  have hstop : s.start < d.stop := by simpa using hd
  refine ⟨d, (List.takeWhile_sublist _).mem hmem, ?_⟩
  rintro (hle | hle) <;> omega

/-- To look at one span of dollar mathematics is to look at all of them. -/
theorem touches_eq_false_iff {s : Span} {scope : Dollars.Scope} {t : Text} :
  s.touches (dollarSpans scope t) = false ↔ ∀ d ∈ dollarSpans scope t, s.Apart d
  := by
  constructor
  · intro h d hd
    obtain ⟨m, hm, rfl⟩ := List.mem_map.mp hd
    exact apart_of_touches_eq_false h m hm
  · intro h
    rw [← Bool.not_eq_true]
    intro htouches
    obtain ⟨d, hd, hapart⟩ := Span.exists_of_touches htouches
    exact hapart (h d hd)

/-! ### The characters of dollar mathematics -/

/-- The dollar mathematics of a text, from left to right. -/
def dollarTexts (scope : Dollars.Scope) (t : Text) : List Text :=
  ((chunks scope t).filter Chunk.isMath).map Chunk.text

theorem Chunk.math_ofPieces (ps : List (Piece Dollars)) :
  ((ofPieces ps).filter isMath).map text = (ps.filterMap Piece.match?).map Match.source
  := by
  induction ps with
  | nil => rfl
  | cons piece ps ih =>
    cases piece with
    | found m =>
      have hmatch : (Piece.found m).match? = some m := rfl
      rw [ofPieces, List.filter_cons_of_pos rfl, List.filterMap_cons_some hmatch, List.map_cons,
        List.map_cons, ih]
    | char c =>
      rw [ofPieces, List.filterMap_cons_none rfl, ← ih]
      split
      · next heq =>
        rw [heq, List.filter_cons_of_neg Bool.false_ne_true,
          List.filter_cons_of_neg Bool.false_ne_true]
      · rw [List.filter_cons_of_neg Bool.false_ne_true]

/-- The dollar mathematics among the chunks of a text stands at its spans. -/
theorem dollarTexts_eq (scope : Dollars.Scope) (t : Text) :
  dollarTexts scope t = (dollarSpans scope t).map fun s => t.extract s.start s.stop
  := by
  rw [dollarTexts, chunks, Chunk.math_ofPieces]
  apply Reader.map_source_findAll

/-- Edits that stand apart from all dollar mathematics keep it. -/
theorem Edits.holdsInOrder_dollarTexts {scope : Dollars.Scope} {t : Text} (es : Edits t)
    (h : ∀ e ∈ es.list, ∀ s ∈ dollarSpans scope t, e.span.Apart s) :
  HoldsInOrder (dollarTexts scope t) es.text
  := by
  rw [dollarTexts, chunks, Chunk.math_ofPieces]
  apply es.holdsInOrder_findAll
  exact fun e he m hm => h e he m.span (List.mem_map_of_mem hm)

/-! ### Replacements -/

namespace Reader

variable {α : Type}

/-- A replacement outside dollar mathematics rewrites the matches that stand apart from all of it
and for which a text is given, and keeps everything else, the dollar mathematics with it. -/
theorem exists_edits_replaceOutside
    (r : Reader α) (scope : Dollars.Scope) (f : Match α → Option Text) (t : Text) :
  ∃ es : Edits t,
    (∀ e, e ∈ es.list ↔ ∃ m ∈ r.findAll t, e.span = m.span
      ∧ (∀ s ∈ dollarSpans scope t, m.span.Apart s) ∧ f m = some e.text)
    ∧ r.replaceOutside scope f t = ⟨es.text, es.list.length⟩
    ∧ HoldsInOrder (dollarTexts scope t) es.text
  := by
  have hmem : ∀ e, e ∈ (r.edits (fun m =>
        if m.span.touches (dollarSpans scope t) then none else f m) t).list
      ↔ ∃ m ∈ r.findAll t, e.span = m.span
        ∧ (∀ s ∈ dollarSpans scope t, m.span.Apart s) ∧ f m = some e.text := by
    intro e
    rw [mem_edits_iff]
    apply exists_congr
    intro m
    rw [Option.ite_none_left_eq_some, Bool.not_eq_true, touches_eq_false_iff]
  refine ⟨_, hmem, replace_eq_edits, ?_⟩
  apply Edits.holdsInOrder_dollarTexts
  intro e he
  obtain ⟨m, -, hspan, hapart, -⟩ := (hmem e).mp he
  rw [hspan]
  exact hapart

end Reader

end DollarMath
