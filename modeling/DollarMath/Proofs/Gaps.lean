import DollarMath.Proofs.Chunks
import DollarMath.Proofs.Clear
import Mathlib.Data.List.DropRight

/-!
# Gaps between dollar mathematics

The entries of a text tell its chunks: a gap is a run of characters that starts behind dollar
mathematics or nothing, and stops before dollar mathematics or nothing.  Where all dollars are read,
the gap that a place lies in is told by the dollars of the text alone.
-/

namespace DollarMath

/-- A text in front of a gap ends with a dollar or is empty. -/
def EndsWithDollar (x : Text) : Prop :=
  ∀ c ∈ x.getLast?, c = '$'

/-- A text behind a gap starts with a dollar or is empty. -/
def StartsWithDollar (y : Text) : Prop :=
  ∀ c ∈ y.head?, c = '$'

namespace Entries

/-- The chunks of entries: neighbouring characters form one chunk. -/
def cut : Entries → List Chunk
  | [] => []
  | (some _, s) :: es => ⟨true, s⟩ :: cut es
  | (none, s) :: es =>
    match cut es with
    | ⟨false, t⟩ :: ks => ⟨false, s ++ t⟩ :: ks
    | ks => ⟨false, s⟩ :: ks

/-- The chunks of pieces are those of their entries. -/
theorem cut_map_entry (ps : List (Piece Dollars)) :
  cut (ps.map Piece.entry) = Chunk.ofPieces ps
  := by
  induction ps with
  | nil => rfl
  | cons piece ps ih =>
    cases piece with
    | found m => exact congrArg (List.cons _) ih
    | char c =>
      rw [List.map_cons, Piece.entry, cut, Chunk.ofPieces, ih]
      cases Chunk.ofPieces ps with
      | nil => rfl
      | cons k ks =>
        obtain ⟨isMath, t⟩ := k
        cases isMath <;> rfl

/-- Entries start with dollar mathematics, or there are none. -/
def StartWithMath (es : Entries) : Prop :=
  ∀ e ∈ es.head?, e.1.isSome = true

/-- A run of characters before dollar mathematics, or at the end, is a chunk. -/
theorem cut_chars_append {g : Text} {es : Entries} (hne : g ≠ []) (hes : StartWithMath es) :
  cut (chars g ++ es) = ⟨false, g⟩ :: cut es
  := by
  have hcut : ∀ t ks, cut es ≠ ⟨false, t⟩ :: ks := by
    intro t ks heq
    cases es with
    | nil => cases heq
    | cons e es =>
      obtain ⟨o, s⟩ := e
      cases o with
      | none => cases hes _ rfl
      | some d => cases heq
  induction g with
  | nil => exact absurd rfl hne
  | cons c g ih =>
    change cut ((none, [c]) :: (chars g ++ es)) = _
    rw [cut]
    by_cases hg : g = []
    · rw [hg, chars, List.map_nil, List.nil_append]
      split
      · next t ks heq => exact absurd heq (hcut t ks)
      · rfl
    · rw [ih hg]
      rfl

namespace AreRead

variable {before after : Option Char} {es : Entries}

/-- What holds of no entries, and is kept by dollar mathematics and by runs of characters in front,
holds of all entries that are read. -/
theorem gaps_induction {P : Entries → Prop} (nil : P [])
    (math : ∀ d es, P es → P ((some d, d.source) :: es))
    (gap : ∀ g es, g ≠ [] → '$' ∉ g → StartWithMath es → StartsWithDollar (text es) → P es →
      P (chars g ++ es))
    (h : AreRead after before es) :
  P es
  := by
  suffices ∀ g : Text, '$' ∉ g → P (chars g ++ es) from this [] List.not_mem_nil
  induction h with
  | nil =>
    intro g hg
    by_cases hne : g = []
    · rw [hne]
      exact nil
    · exact gap g [] hne hg (by simp [StartWithMath]) (by simp [StartsWithDollar]) nil
  | @char before es c hc hes ih =>
    intro g hg
    have hcons : chars g ++ (none, [c]) :: es = chars (g ++ [c]) ++ es := by
      rw [chars_append, List.append_assoc]
      rfl
    rw [hcons]
    apply ih
    rw [List.mem_append, List.mem_singleton, not_or]
    exact ⟨hg, Ne.symm hc⟩
  | math d hd hes ih =>
    intro g hg
    have hmath := math d _ (ih [] List.not_mem_nil)
    by_cases hne : g = []
    · rw [hne]
      exact hmath
    · apply gap g _ hne hg (by simp [StartWithMath]) _ hmath
      intro c hc
      rw [text_cons, d.head?_source] at hc
      exact (Option.some.inj hc).symm

/-- The chunks of a text are those of its entries. -/
theorem chunks_eq (h : AreRead none none es) :
  chunks .all (text es) = cut es
  := by
  rw [chunks, Reader.pieces, ← cut_map_entry]
  exact congrArg cut h.entries_eq

/-- A chunk between dollar mathematics is a run of characters with a dollar or nothing on either
side. -/
theorem exists_gap (h : AreRead after before es) {k : Chunk} (hk : k ∈ cut es)
    (hprose : k.isMath = false) :
  ∃ A B, es = A ++ (chars k.text ++ B) ∧ k.text ≠ [] ∧ '$' ∉ k.text ∧ EndsWithDollar (text A)
    ∧ StartsWithDollar (text B)
  := by
  apply h.gaps_induction (P := fun es => k ∈ cut es → ∃ A B, es = A ++ (chars k.text ++ B)
    ∧ k.text ≠ [] ∧ '$' ∉ k.text ∧ EndsWithDollar (text A) ∧ StartsWithDollar (text B)) _ _ _ hk
  · exact fun hmem => nomatch hmem
  · intro d es ih hmem
    rcases List.mem_cons.mp hmem with rfl | hmem
    · cases hprose
    · obtain ⟨A, B, rfl, hne, hdollar, hA, hB⟩ := ih hmem
      refine ⟨(some d, d.source) :: A, B, rfl, hne, hdollar, ?_, hB⟩
      intro c hc
      rw [text_cons, List.getLast?_append, d.getLast?_source] at hc
      cases hlast : (text A).getLast? with
      | none =>
        rw [hlast] at hc
        exact (Option.some.inj hc).symm
      | some c' =>
        rw [hlast] at hc
        rw [← Option.some.inj hc]
        exact hA c' hlast
  · intro g es hne hdollar hes hfirst ih hmem
    rw [cut_chars_append hne hes] at hmem
    rcases List.mem_cons.mp hmem with rfl | hmem
    · exact ⟨[], es, rfl, hne, hdollar, by simp [EndsWithDollar], hfirst⟩
    · obtain ⟨A, B, rfl, hne', hdollar', hA, hB⟩ := ih hmem
      refine ⟨chars g ++ A, B, by simp, hne', hdollar', ?_, hB⟩
      have hnil : text A ≠ [] := by
        intro hnil
        obtain ⟨c, t, ht⟩ := List.exists_cons_of_ne_nil hne'
        rw [text_append, text_append, text_chars, hnil, ht] at hfirst
        rw [ht] at hdollar'
        exact hdollar' (by rw [hfirst c rfl]; exact List.mem_cons_self)
      rwa [EndsWithDollar, text_append, List.getLast?_append_of_ne_nil _ hnil]

end AreRead

end Entries

/-! ### Places in gaps -/

/-- A text without dollars behind another one that ends with a dollar is told by the whole. -/
theorem EndsWithDollar.append_inj {x x' u u' : Text} (hx : EndsWithDollar x)
    (hx' : EndsWithDollar x') (hu : '$' ∉ u) (hu' : '$' ∉ u') (h : x ++ u = x' ++ u') :
  x = x' ∧ u = u'
  := by
  have hnil : ∀ {a b s t : Text}, EndsWithDollar (a ++ b) → '$' ∉ s → s = b ++ t → b = [] := by
    intro a b s t hab hs heq
    rcases List.eq_nil_or_concat' b with rfl | ⟨b, c, rfl⟩
    · rfl
    · rw [← List.append_assoc, EndsWithDollar, List.getLast?_concat] at hab
      exfalso
      apply hs
      rw [heq, ← hab c rfl]
      simp
  rcases List.append_eq_append_iff.mp h with ⟨a, rfl, rfl⟩ | ⟨a, rfl, rfl⟩
  · obtain rfl := hnil hx' hu rfl
    exact ⟨(List.append_nil x).symm, rfl⟩
  · obtain rfl := hnil hx hu' rfl
    exact ⟨List.append_nil x', rfl⟩

/-- A text without dollars before another one that starts with a dollar is told by the whole. -/
theorem StartsWithDollar.append_inj {v v' y y' : Text} (hy : StartsWithDollar y)
    (hy' : StartsWithDollar y') (hv : '$' ∉ v) (hv' : '$' ∉ v') (h : v ++ y = v' ++ y') :
  v = v' ∧ y = y'
  := by
  have hnil : ∀ {a b s t : Text}, StartsWithDollar (b ++ a) → '$' ∉ s → s = t ++ b → b = [] := by
    intro a b s t hab hs heq
    cases b with
    | nil => rfl
    | cons c b =>
      exfalso
      apply hs
      rw [heq, ← hab c rfl]
      simp
  rcases List.append_eq_append_iff.mp h with ⟨a, rfl, rfl⟩ | ⟨a, rfl, rfl⟩
  · obtain rfl := hnil hy hv' rfl
    exact ⟨(List.append_nil v).symm, rfl⟩
  · obtain rfl := hnil hy' hv rfl
    exact ⟨List.append_nil v', rfl⟩

/-- A text ends with a part of a gap. -/
theorem exists_endsWithDollar_append (x : Text) :
  ∃ x' u, x = x' ++ u ∧ EndsWithDollar x' ∧ '$' ∉ u
  := by
  refine ⟨x.rdropWhile (· ≠ '$'), x.rtakeWhile (· ≠ '$'), ?_, ?_, ?_⟩
  · apply List.rdropWhile_append_rtakeWhile.symm
  · intro c hc
    have hne : x.rdropWhile (· ≠ '$') ≠ [] := List.ne_nil_of_mem (List.mem_of_getLast? hc)
    have hlast := (List.getLast?_eq_some_getLast hne).symm.trans hc
    have hnot := List.rdropWhile_last_not _ x hne
    rw [Option.some.inj hlast] at hnot
    simpa using hnot
  · intro hmem
    simpa using List.mem_rtakeWhile_imp hmem

/-- A text starts with a part of a gap. -/
theorem exists_append_startsWithDollar (y : Text) :
  ∃ v y', y = v ++ y' ∧ StartsWithDollar y' ∧ '$' ∉ v
  := by
  refine ⟨y.takeWhile (· ≠ '$'), y.dropWhile (· ≠ '$'), ?_, ?_, ?_⟩
  · apply List.takeWhile_append_dropWhile.symm
  · intro c hc
    have hnot := List.head?_dropWhile_not (fun c => decide (c ≠ '$')) y
    rw [Option.mem_def.mp hc] at hnot
    simpa using hnot
  · intro hmem
    simpa using List.mem_takeWhile_imp hmem

end DollarMath
