import DollarMath.Proofs.Apart
import DollarMath.Proofs.MixedEnds

/-!
# Pieces with mixed line ends

A reader that reads the same at a place whether the carriage returns behind it are there or not
cuts a text with mixed line ends into the pieces of the text without them.
-/

namespace DollarMath

open LineEnds

/-! ### Positions -/

/-- The position in the text without carriage returns of what stands at a position of a text. -/
def LineEnds.position (t : Text) (i : Nat) : Nat :=
  (dropReturns (t.take i)).length

/-- The position behind the first of two texts. -/
theorem LineEnds.position_append (u v : Text) :
  position (u ++ v) u.length = (dropReturns u).length
  := by
  rw [position, List.take_left]

/-- A character that is no carriage return keeps positions apart. -/
theorem LineEnds.position_lt_iff {t : Text} {i j : Nat} {c : Char} (hi : t[i]? = some c)
    (hc : c ≠ '\r') :
  position t i < position t j ↔ i < j
  := by
  obtain ⟨hlt, hget⟩ := List.getElem?_eq_some_iff.mp hi
  have hcut := List.take_append_drop i t
  rw [List.drop_eq_getElem_cons hlt, hget] at hcut
  constructor
  · intro h
    by_contra hle
    have hprefix : t.take j <+: t.take i := List.take_prefix_take_left (Nat.le_of_not_lt hle)
    have hlength := (List.IsPrefix.filter (fun c => c ≠ '\r') hprefix).length_le
    exact Nat.lt_irrefl _ (Nat.lt_of_lt_of_le h hlength)
  · intro h
    obtain ⟨k, rfl⟩ := Nat.exists_eq_add_of_lt h
    have htake : t.take (i + k + 1) = t.take i ++ c :: (t.drop (i + 1)).take k := by
      conv_lhs => rw [← hcut]
      rw [List.take_append, List.take_of_length_le (by rw [List.length_take]; omega)]
      have hlength : i + k + 1 - (t.take i).length = k + 1 := by
        rw [List.length_take, Nat.min_eq_left (Nat.le_of_lt hlt)]
        omega
      rw [hlength, List.take_succ_cons]
    rw [position, position, htake, dropReturns_append, dropReturns_cons hc, List.length_append,
      List.length_cons]
    omega

/-- A span without the carriage returns before it and in it. -/
def Span.dropReturns (t : Text) (s : Span) : Span :=
  ⟨position t s.start, position t s.stop⟩

section Match

variable {α : Type} (t : Text) (s : α → α)

/-- A match as it stands in the text without carriage returns. -/
def Match.dropReturns (m : Match α) : Match α :=
  ⟨position t m.start, LineEnds.dropReturns m.source, s m.value, LineEnds.dropReturns m.rest⟩

/-- A piece as it stands in the text without carriage returns, unless it is one. -/
def Piece.dropReturns : Piece α → Option (Piece α)
  | char c => if c = '\r' then none else some (char c)
  | found m => some (found (m.dropReturns t s))

end Match

/-! ### Readers -/

namespace Reader

variable {α : Type} {s : α → α} {r r' : Reader α} {t : Text}

/-- In a text `t` without its carriage returns the reader `r'` reads what `r` reads in `t`. -/
structure Commutes (s : α → α) (r r' : Reader α) (t : Text) : Prop where
  /-- Nothing is read where a line ends. -/
  eq_none : ∀ c, c = '\r' ∨ c = '\n' → ∀ p cs, r p (c :: cs) = none ∧ r' p (c :: cs) = none
  /-- Elsewhere the same is read. -/
  read : ∀ u c cs, t = u ++ c :: cs → c ≠ '\r' → c ≠ '\n' →
    r' (Place.start.after (dropReturns u)) (dropReturns (c :: cs))
      = (r (Place.start.after u) (c :: cs)).map fun a =>
        (s a.1, (dropReturns ((c :: cs).take a.2)).length)

namespace Commutes

variable (h : Commutes s r r' t)
include h

/-- Where nothing is read, nothing is read in the other text. -/
theorem passes_dropReturns {u cs : Text} {c : Char} (ht : t = u ++ c :: cs) (hc : c ≠ '\r')
    (hpass : r.Passes (Place.start.after u) (c :: cs)) :
  r'.Passes (Place.start.after (dropReturns u)) (c :: dropReturns cs)
  := by
  by_cases hn : c = '\n'
  · intro b k hread
    rw [(h.eq_none c (.inr hn) _ _).2] at hread
    cases hread
  · intro b k hread
    rw [← dropReturns_cons hc, h.read u c cs ht hc hn, Option.map_eq_some_iff] at hread
    obtain ⟨⟨a, n⟩, hr, heq⟩ := hread
    cases n with
    | zero => cases (Prod.mk.inj heq).2
    | succ n => exact hpass a n hr

/-- A match is no line end, so it does not start with a carriage return. -/
theorem exists_source_eq_cons {p : Place} {m : Match α} {n : Nat} (hm : IsRead r p m n) :
  ∃ c cs, m.source = c :: cs ∧ c ≠ '\r' ∧ c ≠ '\n'
  := by
  obtain ⟨c, cs, hsource⟩ := List.exists_cons_of_ne_nil hm.source_ne_nil
  have hread := hm.read
  rw [hsource, List.cons_append] at hread
  have hne : ¬ (c = '\r' ∨ c = '\n') := by
    intro hc
    rw [(h.eq_none c hc p _).1] at hread
    cases hread
  exact ⟨c, cs, hsource, fun hc => hne (.inl hc), fun hc => hne (.inr hc)⟩

/-- A match is read in the other text. -/
theorem isRead_dropReturns {u : Text} {m : Match α} {n : Nat} (ht : t = u ++ (m.source ++ m.rest))
    (hm : IsRead r (Place.start.after u) m n) :
  ∃ k, IsRead r' (Place.start.after (dropReturns u)) (m.dropReturns t s) k
  := by
  obtain ⟨c, cs, hsource, hc, hn⟩ := h.exists_source_eq_cons hm
  have hstart : m.start = u.length := by
    rw [hm.start_eq, Place.after_offset, Place.start, Nat.zero_add]
  have hdrop : dropReturns m.source = c :: dropReturns cs := by rw [hsource, dropReturns_cons hc]
  have hread := h.read u c (cs ++ m.rest) (by rw [ht, hsource]; rfl) hc hn
  rw [← List.cons_append, ← hsource, hm.read, Option.map_some, ← hm.source_eq, dropReturns_append]
    at hread
  have hlength : (dropReturns m.source).length = (dropReturns cs).length + 1 := by
    rw [hdrop, List.length_cons]
  use (dropReturns cs).length
  constructor
  · rw [Match.dropReturns, hstart, ht, position_append, Place.after_offset, Place.start,
      Nat.zero_add]
  · rw [Match.dropReturns, hdrop]
    exact List.cons_ne_nil _ _
  · rw [← hlength]
    exact hread
  · rw [Match.dropReturns, ← hlength, List.take_left]

/-- The pieces of a text without its carriage returns are its pieces without them. -/
theorem pieces_dropReturns :
  r'.pieces (dropReturns t) = (r.pieces t).filterMap (Piece.dropReturns t s)
  := by
  suffices ∀ p v, ∀ u, t = u ++ v → p = Place.start.after u →
      r'.piecesFrom 0 (Place.start.after (dropReturns u)) (dropReturns v)
        = (r.piecesFrom 0 p v).filterMap (Piece.dropReturns t s) from
    this .start t [] rfl rfl
  apply r.piecesFrom_induction fun p v ps => ∀ u, t = u ++ v → p = Place.start.after u →
    r'.piecesFrom 0 (Place.start.after (dropReturns u)) (dropReturns v)
      = ps.filterMap (Piece.dropReturns t s)
  · intro p u _ _
    rfl
  · rintro p c cs hpass ih u ht rfl
    have ih := ih (u ++ [c]) (by rw [ht, List.append_assoc]; rfl) (Place.after_concat _ _ _).symm
    rw [dropReturns_append] at ih
    by_cases hc : c = '\r'
    · subst hc
      rw [List.filterMap_cons_none rfl, ← ih, dropReturns_return, dropReturns_return,
        dropReturns_nil, List.append_nil]
    · have hpiece : Piece.dropReturns t s (.char c) = some (.char c) := if_neg hc
      rw [List.filterMap_cons_some hpiece, ← ih, dropReturns_cons hc, dropReturns_cons hc,
        piecesFrom_of_passes (h.passes_dropReturns ht hc hpass), dropReturns_nil,
        Place.after_concat]
  · rintro p m n hm ih u ht rfl
    have ih := ih (u ++ m.source) (by rw [ht, List.append_assoc]) (Place.after_append _ _ _).symm
    have hpiece : Piece.dropReturns t s (.found m) = some (.found (m.dropReturns t s)) := rfl
    obtain ⟨k, hk⟩ := h.isRead_dropReturns ht hm
    rw [List.filterMap_cons_some hpiece, ← ih, dropReturns_append, dropReturns_append,
      Place.after_append]
    exact hk.piecesFrom_eq

/-- The matches in the text without carriage returns are those of the text. -/
theorem findAll_dropReturns :
  r'.findAll (dropReturns t) = (r.findAll t).map (Match.dropReturns t s)
  := by
  rw [findAll, findAll, h.pieces_dropReturns, List.filterMap_filterMap, List.map_filterMap]
  apply List.filterMap_congr
  rintro (c | m) -
  · rw [Piece.dropReturns]
    split
    · rfl
    · rfl
  · rfl

/-- A replacement that writes the same for a match with and without carriage returns does so for
a text. -/
theorem replace_dropReturns {f f' : Match α → Option Text}
    (hf : ∀ m ∈ r.findAll t, f' (m.dropReturns t s) = (f m).map dropReturns) :
  r'.replace f' (dropReturns t)
    = ⟨dropReturns (r.replace f t).text, (r.replace f t).count⟩
  := by
  have htext : (r'.replace f' (dropReturns t)).text = dropReturns (r.replace f t).text := by
    suffices ∀ ps : List (Piece α), (∀ m, .found m ∈ ps → m ∈ r.findAll t) →
        (ps.filterMap (Piece.dropReturns t s)).flatMap (Piece.written f')
          = dropReturns (ps.flatMap (Piece.written f)) by
      rw [text_replace, text_replace, h.pieces_dropReturns]
      exact this _ fun m hm => mem_findAll_iff.mpr hm
    intro ps
    induction ps with
    | nil => exact fun _ => rfl
    | cons piece ps ih =>
      intro hps
      have ih := ih fun m hm => hps m (List.mem_cons_of_mem _ hm)
      rw [List.flatMap_cons, dropReturns_append, ← ih]
      cases piece with
      | char c =>
        rw [List.filterMap_cons, Piece.dropReturns]
        by_cases hc : c = '\r'
        · rw [if_pos hc, hc]
          rfl
        · rw [if_neg hc, Piece.written, dropReturns_cons hc]
          rfl
      | found m =>
        have hwritten := hf m (hps m List.mem_cons_self)
        have hpiece : Piece.dropReturns t s (.found m) = some (.found (m.dropReturns t s)) := rfl
        rw [List.filterMap_cons_some hpiece, List.flatMap_cons, Piece.written, hwritten]
        cases hfm : f m with
        | none => rw [Piece.written, hfm]; rfl
        | some w => rw [Piece.written, hfm]; rfl
  have hcount : (r'.replace f' (dropReturns t)).count = (r.replace f t).count := by
    rw [replace, replace, h.findAll_dropReturns, List.countP_map]
    apply List.countP_congr
    intro m hm
    rw [Function.comp_apply, hf m hm, Option.isSome_map]
  calc r'.replace f' (dropReturns t)
    _ = ⟨(r'.replace f' (dropReturns t)).text, (r'.replace f' (dropReturns t)).count⟩ := rfl
    _ = _ := by rw [htext, hcount]

/-- What is written for the pieces of a text has mixed line ends if what is written for its
matches has. -/
theorem isMixed_replace {f : Match α → Option Text} (ht : IsMixed t)
    (hf : ∀ m ∈ r.findAll t, ∀ w, f m = some w → IsMixed w) :
  IsMixed (r.replace f t).text
  := by
  suffices ∀ p v, (∀ m, .found m ∈ r.piecesFrom 0 p v → m ∈ r.findAll t) → IsMixed v →
      IsMixed ((r.piecesFrom 0 p v).flatMap (Piece.written f))
        ∧ (v.head? = some '\n' →
          ((r.piecesFrom 0 p v).flatMap (Piece.written f)).head? = some '\n') by
    rw [text_replace]
    exact (this .start t (fun m hm => mem_findAll_iff.mpr hm) ht).1
  apply r.piecesFrom_induction fun p v ps => (∀ m, .found m ∈ ps → m ∈ r.findAll t) → IsMixed v →
    IsMixed (ps.flatMap (Piece.written f))
      ∧ (v.head? = some '\n' → (ps.flatMap (Piece.written f)).head? = some '\n')
  · intro p _ hv
    exact ⟨hv, id⟩
  · intro p c cs _ ih hps hv
    obtain ⟨hc, hcs⟩ := isMixed_cons.mp hv
    obtain ⟨hmixed, hhead⟩ := ih (fun m hm => hps m (List.mem_cons_of_mem _ hm)) hcs
    exact ⟨isMixed_cons.mpr ⟨fun hcr => hhead (hc hcr), hmixed⟩, id⟩
  · intro p m n hm ih hps hv
    obtain ⟨hmixed, hhead⟩ :=
      ih (fun m hm => hps m (List.mem_cons_of_mem _ hm)) hv.of_append_right
    rw [List.flatMap_cons, Piece.written]
    constructor
    · cases hfm : f m with
      | none => exact hv.append_congr hmixed hhead
      | some w => exact (hf m (hps m List.mem_cons_self) w hfm).append hmixed
    · intro hn
      obtain ⟨c, cs, hsource, -, hc⟩ := h.exists_source_eq_cons hm
      rw [hsource] at hn
      exact absurd (Option.some.inj hn) hc

end Commutes

end Reader

end DollarMath
