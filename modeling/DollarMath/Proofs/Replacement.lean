import DollarMath.Dollar
import Mathlib.Data.List.Basic

/-!
# Replacements

A replacement writes something for every piece of a text, so what holds of the pieces one by
one holds of the whole.  Where a match stands in its text is said by the text before it.
-/

namespace DollarMath

namespace Place

/-- The place behind two texts. -/
theorem after_append (p : Place) (s t : Text) :
  p.after (s ++ t) = (p.after s).after t
  := List.foldl_append

/-- The offset of a place behind a text. -/
@[simp]
theorem after_offset (p : Place) (t : Text) :
  (p.after t).offset = p.offset + t.length
  := by
  induction t generalizing p with
  | nil => rfl
  | cons c cs ih =>
    rw [after, List.foldl_cons]
    apply (ih (p.next c)).trans
    simp only [next, List.length_cons]
    omega

end Place

/-- What is written for a match that is kept under a condition. -/
theorem eq_of_ite_none_eq_some
    {p : Prop} [Decidable p] {v w : Text} (h : (if p then none else some w) = some v) :
  v = w
  := by
  obtain ⟨-, heq⟩ := Option.ite_none_left_eq_some.mp h
  exact (Option.some.inj heq).symm

/-- What is written for a match that is kept under a condition, and without another one. -/
theorem eq_of_ite_none_ite_eq_some
    {p q : Prop} [Decidable p] [Decidable q] {v w : Text}
    (h : (if p then none else if q then some w else none) = some v) :
  v = w
  := by
  obtain ⟨-, h⟩ := Option.ite_none_left_eq_some.mp h
  obtain ⟨-, heq⟩ := Option.ite_none_right_eq_some.mp h
  exact (Option.some.inj heq).symm

/-- What a replacement by `f` writes for a piece. -/
def Piece.written {α : Type} (f : Match α → Option Text) : Piece α → Text
  | char c => [c]
  | found m => (f m).getD m.source

namespace Reader

variable {α : Type} (r : Reader α) (f : Match α → Option Text)

/-- A replaced text is what is written for its pieces. -/
theorem text_replace (t : Text) :
  (r.replace f t).text = (r.pieces t).flatMap (Piece.written f)
  := by
  rw [replace]
  apply List.flatMap_congr
  rintro (c | m) -
  · rfl
  · rfl

/-- The matches are the pieces that are found. -/
theorem mem_findAll_iff {r : Reader α} {t : Text} {m : Match α} :
  m ∈ r.findAll t ↔ .found m ∈ r.pieces t
  := by
  rw [findAll, List.mem_filterMap]
  constructor
  · rintro ⟨piece, hmem, heq⟩
    cases piece with
    | char c => cases heq
    | found m' =>
      obtain rfl := Option.some.inj heq
      apply hmem
  · intro h
    use .found m, h
    rfl

/-- A match among the pieces from a place on: the reader read it at the place after the text
before it. -/
theorem exists_of_mem_piecesFrom_zero {r : Reader α} {p : Place} {t : Text} {m : Match α}
    (h : .found m ∈ r.piecesFrom 0 p t) :
  ∃ u k, t = u ++ (m.source ++ m.rest) ∧ m.start = p.offset + u.length
    ∧ r (p.after u) (m.source ++ m.rest) = some (m.value, k + 1)
    ∧ m.source = (m.source ++ m.rest).take (k + 1)
  := by
  suffices ∀ n t p, .found m ∈ r.piecesFrom n p t →
      ∃ u k, t = u ++ (m.source ++ m.rest) ∧ m.start = p.offset + u.length
        ∧ r (p.after u) (m.source ++ m.rest) = some (m.value, k + 1)
        ∧ m.source = (m.source ++ m.rest).take (k + 1) from this 0 t p h
  intro n t
  induction t generalizing n with
  | nil =>
    intro p h
    simp [piecesFrom] at h
  | cons c cs ih =>
    intro p h
    have later : ∀ n, .found m ∈ r.piecesFrom n (p.next c) cs →
        ∃ u k, c :: cs = u ++ (m.source ++ m.rest) ∧ m.start = p.offset + u.length
          ∧ r (p.after u) (m.source ++ m.rest) = some (m.value, k + 1)
          ∧ m.source = (m.source ++ m.rest).take (k + 1) := by
      intro n hn
      obtain ⟨u, k, hcs, hstart, hread, htake⟩ := ih n (p.next c) hn
      use c :: u, k
      refine ⟨by rw [hcs]; rfl, ?_, hread, htake⟩
      rw [hstart]
      simp only [Place.next, List.length_cons]
      omega
    cases n with
    | succ n =>
      rw [piecesFrom] at h
      apply later n h
    | zero =>
      rw [piecesFrom] at h
      split at h
      · next a k hr =>
        rcases List.mem_cons.mp h with heq | h
        · obtain rfl := Piece.found.inj heq
          use [], k
          have hcat : (c :: cs.take k) ++ cs.drop k = c :: cs := by simp
          simp only [hcat]
          exact ⟨rfl, rfl, hr, rfl⟩
        · apply later k h
      · rcases List.mem_cons.mp h with heq | h
        · cases heq
        · apply later 0 h

/-- A match found in a text: the reader read it at the place after the text before it. -/
theorem exists_of_mem_pieces {r : Reader α} {t : Text} {m : Match α} (h : m ∈ r.findAll t) :
  ∃ u k, t = u ++ (m.source ++ m.rest) ∧ m.start = u.length
    ∧ r (Place.start.after u) (m.source ++ m.rest) = some (m.value, k + 1)
    ∧ m.source = (m.source ++ m.rest).take (k + 1)
  := by
  obtain ⟨u, k, ht, hstart, hread, htake⟩ :=
    exists_of_mem_piecesFrom_zero (mem_findAll_iff.mp h)
  use u, k, ht
  refine ⟨?_, hread, htake⟩
  simpa [Place.start] using hstart

/-- A match stands in the text. -/
theorem source_isInfix_of_mem_findAll {r : Reader α} {t : Text} {m : Match α}
    (h : m ∈ r.findAll t) :
  m.source <:+: t
  := by
  obtain ⟨u, k, ht, -⟩ := exists_of_mem_pieces h
  use u, m.rest
  rw [ht, List.append_assoc]

/-- The characters of a text at the span of a match are those of the match. -/
theorem extract_of_mem_findAll {r : Reader α} {t : Text} {m : Match α} (h : m ∈ r.findAll t) :
  t.extract m.span.start m.span.stop = m.source
  := by
  obtain ⟨u, k, rfl, hstart, -⟩ := exists_of_mem_pieces h
  simp [Match.span, hstart, List.extract_eq_take_drop]

/-- The character of a text at the start of a match is the first one of the match. -/
theorem getElem?_start_of_mem_findAll {r : Reader α} {t : Text} {m : Match α}
    (h : m ∈ r.findAll t) :
  t[m.start]? = m.source.head?
  := by
  obtain ⟨u, k, rfl, hstart, -, htake⟩ := exists_of_mem_pieces h
  rw [hstart, List.getElem?_append_right (Nat.le_refl _), Nat.sub_self, ← List.head?_eq_getElem?]
  conv_rhs => rw [htake]
  rw [List.head?_take, if_neg (Nat.succ_ne_zero k)]

/-- Nothing is counted if nothing is replaced. -/
theorem count_replace_eq_zero_iff (t : Text) :
  (r.replace f t).count = 0 ↔ ∀ m ∈ r.findAll t, f m = none
  := by
  simp [replace, List.countP_eq_zero]

/-- What relates a text to what is written for it, with the number of its replaced matches,
piece by piece, relates the text to its replacement. -/
theorem replace_induction
    {t : Text} (P : Text → Text → Nat → Prop)
    (nil : P [] [] 0)
    (char : ∀ c u w n, P u w n → P (c :: u) (c :: w) n)
    (kept : ∀ m ∈ r.findAll t, f m = none →
      ∀ u w n, P u w n → P (m.source ++ u) (m.source ++ w) n)
    (replaced : ∀ m ∈ r.findAll t, ∀ v, f m = some v →
      ∀ u w n, P u w n → P (m.source ++ u) (v ++ w) (n + 1)) :
  P t (r.replace f t).text (r.replace f t).count
  := by
  have pieces : ∀ ps : List (Piece α), (∀ m, .found m ∈ ps → m ∈ r.findAll t) →
      P (ps.flatMap Piece.source) (ps.flatMap (Piece.written f))
        ((ps.filterMap Piece.match?).countP fun m => (f m).isSome) := by
    intro ps
    induction ps with
    | nil =>
      intro _
      apply nil
    | cons piece ps ih =>
      intro hps
      have ih := ih fun m hm => hps m (List.mem_cons_of_mem _ hm)
      rw [List.flatMap_cons, List.flatMap_cons]
      cases piece with
      | char c => exact char c _ _ _ ih
      | found m =>
        have hm := hps m List.mem_cons_self
        have hmatch : (Piece.found m).match? = some m := rfl
        rw [List.filterMap_cons_some hmatch]
        cases hf : f m with
        | none =>
          rw [List.countP_cons_of_neg (by simp [hf]), Piece.written, hf]
          apply kept m hm hf _ _ _ ih
        | some v =>
          rw [List.countP_cons_of_pos (by simp [hf]), Piece.written, hf]
          apply replaced m hm v hf _ _ _ ih
  have h := pieces (r.pieces t) fun m hm => mem_findAll_iff.mpr hm
  rw [flatMap_source_pieces] at h
  rw [text_replace]
  apply h

/-- A replacement that replaces no match keeps the text. -/
theorem text_replace_of_none {t : Text} (h : ∀ m ∈ r.findAll t, f m = none) :
  (r.replace f t).text = t
  := by
  apply r.replace_induction f fun u w _ => w = u
  · rfl
  · rintro c u w - rfl
    rfl
  · rintro m - - u w - rfl
    rfl
  · intro m hm v hv
    rw [h m hm] at hv
    cases hv

/-- If every replaced match keeps its characters of a class, in their order, then so does the
text. -/
theorem filter_text_replace
    {t : Text} {p : Char → Bool}
    (h : ∀ m ∈ r.findAll t, ∀ w, f m = some w → w.filter p = m.source.filter p) :
  (r.replace f t).text.filter p = t.filter p
  := by
  apply r.replace_induction f fun u w _ => w.filter p = u.filter p
  · rfl
  · intro a u w _ ih
    rw [List.filter_cons, List.filter_cons, ih]
  · intro m _ _ u w _ ih
    rw [List.filter_append, List.filter_append, ih]
  · intro m hm v hv u w _ ih
    rw [List.filter_append, List.filter_append, ih, h m hm v hv]

/-- If every replaced match gains `k` times the character `c`, then the text gains it `k`
times for every replaced match. -/
theorem count_text_replace
    {t : Text} {c : Char} {k : Nat}
    (h : ∀ m ∈ r.findAll t, ∀ w, f m = some w → w.count c = m.source.count c + k) :
  (r.replace f t).text.count c = t.count c + k * (r.replace f t).count
  := by
  apply r.replace_induction f fun u w n => w.count c = u.count c + k * n
  · simp
  · intro a u w n ih
    rw [List.count_cons, List.count_cons, ih]
    omega
  · intro m _ _ u w n ih
    rw [List.count_append, List.count_append, ih]
    omega
  · intro m hm v hv u w n ih
    rw [List.count_append, List.count_append, ih, h m hm v hv, Nat.mul_succ]
    omega

/-- If every replaced match loses the character `c`, then the text loses it at least once for
every replaced match. -/
theorem count_text_replace_add_le
    {t : Text} {c : Char}
    (h : ∀ m ∈ r.findAll t, ∀ w, f m = some w → w.count c < m.source.count c) :
  (r.replace f t).text.count c + (r.replace f t).count ≤ t.count c
  := by
  apply r.replace_induction f fun u w n => w.count c + n ≤ u.count c
  · simp
  · intro a u w n ih
    rw [List.count_cons, List.count_cons]
    omega
  · intro m _ _ u w n ih
    rw [List.count_append, List.count_append]
    omega
  · intro m hm v hv u w n ih
    have hlt := h m hm v hv
    rw [List.count_append, List.count_append]
    omega

end Reader

end DollarMath
