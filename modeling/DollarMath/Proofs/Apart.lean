import DollarMath.Proofs.Pieces
import Mathlib.Data.List.Pairwise

/-!
# Matches that stand apart

The matches of a reader stand in order and share no character, so it is enough to look at one
of them to tell whether a span shares a character with any.  A replacement keeps what stands
before the first replaced match, writes something for the match, and goes on behind it.
-/

namespace DollarMath

namespace Span

/-- Two spans of which one ends before the other one starts. -/
def Apart (s d : Span) : Prop :=
  s.stop ≤ d.start ∨ d.stop ≤ s.start

instance (s d : Span) : Decidable (s.Apart d) :=
  inferInstanceAs (Decidable (_ ∨ _))

/-- A span that touches none of some ordered spans stands apart from each. -/
theorem apart_of_touches_eq_false
    {s : Span} {ds : List Span} (hs : ∀ d ∈ ds, d.start ≤ d.stop)
    (hds : ds.Pairwise fun d d' => d.stop ≤ d'.start) (h : s.touches ds = false) :
  ∀ d ∈ ds, s.Apart d
  := by
  intro d hd
  have hcat := List.takeWhile_append_dropWhile (p := fun d => decide (d.start < s.stop)) (l := ds)
  rw [touches] at h
  generalize hbefore : ds.takeWhile (fun d => decide (d.start < s.stop)) = before at hcat h
  generalize hafter : ds.dropWhile (fun d => decide (d.start < s.stop)) = after at hcat
  rw [← hcat] at hd hds hs
  obtain ⟨hdsBefore, hdsAfter, -⟩ := List.pairwise_append.mp hds
  rcases List.mem_append.mp hd with hd | hd
  · right
    obtain ⟨ds', last, rfl⟩ : ∃ ds' last, before = ds' ++ [last] :=
      (List.eq_nil_or_concat' before).resolve_left (List.ne_nil_of_mem hd)
    have hlast : last.stop ≤ s.start := by simpa using h
    rcases List.mem_append.mp hd with hd | hd
    · have hle := (List.pairwise_append.mp hdsBefore).2.2 d hd last List.mem_cons_self
      have := hs last (by simp)
      omega
    · rw [List.mem_singleton.mp hd]
      exact hlast
  · left
    cases after with
    | nil => cases hd
    | cons first after =>
      have hfirst : s.stop ≤ first.start := by
        have hhead := List.head_dropWhile_not (p := fun d => decide (d.start < s.stop)) (l := ds)
          (by rw [hafter]; apply List.cons_ne_nil)
        simp only [hafter, List.head_cons] at hhead
        simpa using hhead
      rcases List.mem_cons.mp hd with rfl | hd
      · exact hfirst
      · have hle := (List.pairwise_cons.mp hdsAfter).1 d hd
        have := hs first (by simp)
        omega

end Span

namespace Reader

variable {α : Type} {r : Reader α}

/-- The matches from a place on start behind it, and stand one behind the other. -/
theorem pairwise_piecesFrom (p : Place) (t : Text) :
  (∀ m ∈ (r.piecesFrom 0 p t).filterMap Piece.match?, p.offset ≤ m.start)
    ∧ ((r.piecesFrom 0 p t).filterMap Piece.match?).Pairwise fun m m' => m.span.stop ≤ m'.start
  := by
  apply r.piecesFrom_induction fun p _ ps =>
    (∀ m ∈ ps.filterMap Piece.match?, p.offset ≤ m.start)
      ∧ (ps.filterMap Piece.match?).Pairwise fun m m' => m.span.stop ≤ m'.start
  · intro p
    simp
  · rintro p c cs - ⟨hstart, hpairs⟩
    rw [List.filterMap_cons_none rfl]
    refine ⟨?_, hpairs⟩
    intro m hm
    have hle := hstart m hm
    simp only [Place.next] at hle
    omega
  · rintro p m n hread ⟨hstart, hpairs⟩
    have hmatch : (Piece.found m).match? = some m := rfl
    rw [List.filterMap_cons_some hmatch, List.pairwise_cons, List.forall_mem_cons]
    simp only [Place.after_offset] at hstart
    refine ⟨⟨Nat.le_of_eq hread.start_eq.symm, ?_⟩, ?_, hpairs⟩
    · intro m' hm'
      have hle := hstart m' hm'
      omega
    · intro m' hm'
      rw [Match.span, hread.start_eq]
      apply hstart m' hm'

/-- The matches in a text stand one behind the other. -/
theorem pairwise_findAll (r : Reader α) (t : Text) :
  (r.findAll t).Pairwise fun m m' => m.span.stop ≤ m'.start
  := (pairwise_piecesFrom .start t).2

/-- Two matches in a text stand apart. -/
theorem apart_of_mem_findAll {t : Text} {m m' : Match α} (hm : m ∈ r.findAll t)
    (hm' : m' ∈ r.findAll t) (hne : m ≠ m') :
  m.span.Apart m'.span
  := by
  have hpairs : (r.findAll t).Pairwise fun m m' => m.span.Apart m'.span := by
    apply (pairwise_findAll r t).imp
    exact fun hle => .inl hle
  have : Std.Symm fun m m' : Match α => m.span.Apart m'.span := ⟨fun _ _ h => h.symm⟩
  apply hpairs.forall hm hm' hne

/-- A match is not empty. -/
theorem source_ne_nil_of_mem_piecesFrom {p : Place} {t : Text} {m : Match α}
    (h : .found m ∈ r.piecesFrom 0 p t) :
  m.source ≠ []
  := by
  revert h
  apply r.piecesFrom_induction fun _ _ ps => .found m ∈ ps → m.source ≠ []
  · simp
  · intro p c cs _ ih h
    rcases List.mem_cons.mp h with heq | h
    · cases heq
    · apply ih h
  · intro p m' n hm' ih h
    rcases List.mem_cons.mp h with heq | h
    · obtain rfl := Piece.found.inj heq
      apply hm'.source_ne_nil
    · apply ih h

/-- A match in a text is read behind what stands before it. -/
theorem exists_isRead_of_mem_findAll {t : Text} {m : Match α} (h : m ∈ r.findAll t) :
  ∃ u n, t = u ++ (m.source ++ m.rest) ∧ m.start = u.length
    ∧ IsRead r (Place.start.after u) m n
  := by
  obtain ⟨u, k, ht, hstart, hread, htake⟩ := exists_of_mem_pieces h
  refine ⟨u, k, ht, hstart, ?_, ?_, hread, htake⟩
  · rw [hstart, Place.after_offset, Place.start, Nat.zero_add]
  · exact source_ne_nil_of_mem_piecesFrom (mem_findAll_iff.mp h)

/-- No piece is empty. -/
theorem source_ne_nil_of_mem_pieces {t : Text} {piece : Piece α} (h : piece ∈ r.pieces t) :
  piece.source ≠ []
  := by
  cases piece with
  | char c => exact List.cons_ne_nil c []
  | found m => exact source_ne_nil_of_mem_piecesFrom h

/-- Pieces without matches are the characters of their text. -/
theorem map_char_of_forall_not_mem {ps : List (Piece α)} (h : ∀ m, .found m ∉ ps) :
  ps = (ps.flatMap Piece.source).map .char
  := by
  induction ps with
  | nil => rfl
  | cons piece ps ih =>
    cases piece with
    | found m => exact absurd List.mem_cons_self (h m)
    | char c => exact congrArg (List.cons _) (ih fun m hm => h m (List.mem_cons_of_mem _ hm))

/-- The pieces of a text around characters that stand apart from all matches. -/
theorem exists_piecesFrom_of_apart
    {p : Place} {g s z : Text}
    (h : ∀ m, .found m ∈ r.piecesFrom 0 p (g ++ (s ++ z)) →
      Span.Apart ⟨p.offset + g.length, p.offset + g.length + s.length⟩ m.span) :
  ∃ ps, r.piecesFrom 0 p (g ++ (s ++ z))
      = ps ++ (s.map .char ++ r.piecesFrom 0 (p.after (g ++ s)) z)
    ∧ ps.flatMap Piece.source = g
  := by
  have hgap : ∀ m, .found m ∈ r.piecesFrom 0 p (g ++ (s ++ z)) →
      m.start < p.offset + g.length → m.span.stop ≤ p.offset + g.length := by
    intro m hm hstart
    rcases h m hm with hlater | hearlier
    · change p.offset + g.length + s.length ≤ m.start at hlater
      omega
    · exact hearlier
  obtain ⟨ps, hps, hg⟩ := exists_piecesFrom_eq_append hgap
  have hstop : ∀ m, .found m ∈ r.piecesFrom 0 (p.after g) (s ++ z) →
      p.offset + g.length + s.length ≤ m.start := by
    intro m hm
    have hne := List.length_pos_iff.mpr (source_ne_nil_of_mem_piecesFrom hm)
    have hstart := (pairwise_piecesFrom (p.after g) (s ++ z)).1 m
      (List.mem_filterMap.mpr ⟨_, hm, rfl⟩)
    rw [Place.after_offset] at hstart
    rcases h m (by rw [hps]; exact List.mem_append_right ps hm) with hlater | hearlier
    · exact hlater
    · change m.start + m.source.length ≤ p.offset + g.length at hearlier
      omega
  obtain ⟨qs, hqs, hs⟩ := exists_piecesFrom_eq_append (r := r) (p := p.after g) (s := s)
    (t := z) (by
    intro m hm hstart
    have hle := hstop m hm
    rw [Place.after_offset] at hstart
    omega)
  refine ⟨ps, ?_, hg⟩
  rw [hps, hqs, Place.after_append, ← hs]
  congr 2
  apply map_char_of_forall_not_mem
  intro m hm
  obtain ⟨as, bs, rfl⟩ := List.append_of_mem hm
  rw [List.append_assoc] at hqs
  obtain ⟨u, -, hu⟩ := piecesFrom_eq_append hqs
  obtain ⟨⟨n, hread⟩, -, -⟩ := piecesFrom_eq_found_cons hu.symm
  have hle := hstop m (by rw [hqs]; simp)
  have hpos := List.length_pos_iff.mpr hread.source_ne_nil
  rw [hread.start_eq, ← hs] at hle
  simp only [Place.after_offset, List.flatMap_append, List.flatMap_cons, Piece.source,
    List.length_append] at hle
  omega

/-- The entries of a text around characters that stand apart from all matches; the matches
behind these characters are matches of the text. -/
theorem IsLocal.entries_of_apart
    (hr : r.IsLocal) {p : Place} {g s z : Text}
    (h : ∀ m, .found m ∈ r.piecesFrom 0 p (g ++ (s ++ z)) →
      Span.Apart ⟨p.offset + g.length, p.offset + g.length + s.length⟩ m.span) :
  r.entries p (g ++ (s ++ z))
      = r.entries p g ++ (s.map (fun c => (none, [c])) ++ r.entries (p.after (g ++ s)) z)
    ∧ ∀ m, .found m ∈ r.piecesFrom 0 (p.after (g ++ s)) z →
      .found m ∈ r.piecesFrom 0 p (g ++ (s ++ z))
  := by
  obtain ⟨ps, hps, hg⟩ := exists_piecesFrom_of_apart h
  constructor
  · have hentries := hr.entries_eq_of_append hps
    rw [hg] at hentries
    rw [entries, hps, hentries, List.map_append, List.map_append, List.map_map]
    rfl
  · intro m hm
    rw [hps]
    apply List.mem_append_right
    apply List.mem_append_right _ hm

end Reader

/-- The spans of dollar mathematics stand one behind the other. -/
theorem pairwise_dollarSpans (scope : Dollars.Scope) (t : Text) :
  (dollarSpans scope t).Pairwise fun s s' => s.stop ≤ s'.start
  := by
  rw [dollarSpans, List.pairwise_map]
  apply Reader.pairwise_findAll

/-- A span that touches no dollar mathematics stands apart from all of it. -/
theorem apart_of_touches_eq_false
    {s : Span} {scope : Dollars.Scope} {t : Text}
    (h : s.touches (dollarSpans scope t) = false) :
  ∀ m ∈ (Dollars.read scope).findAll t, s.Apart m.span
  := by
  have hapart := Span.apart_of_touches_eq_false (by
    intro d hd
    obtain ⟨m, -, rfl⟩ := List.mem_map.mp hd
    apply Nat.le_add_right) (pairwise_dollarSpans scope t) h
  intro m hm
  apply hapart
  apply List.mem_map_of_mem hm

namespace Reader

variable {α : Type} (r : Reader α) (f : Match α → Option Text)

/-! ### Gaps -/

/-- What a replacement writes for the pieces of a text from a place on. -/
def writtenFrom (p : Place) (t : Text) : Text :=
  (r.piecesFrom 0 p t).flatMap (Piece.written f)

/-- Where nothing is written, the pieces stay. -/
theorem flatMap_written_of_none
    {ps : List (Piece α)} (h : ∀ m, .found m ∈ ps → f m = none) :
  ps.flatMap (Piece.written f) = ps.flatMap Piece.source
  := by
  apply List.flatMap_congr
  rintro (c | m) hmem
  · rfl
  · rw [Piece.written, h m hmem]
    rfl

variable {r} in
/-- A character at which nothing is read stays. -/
theorem writtenFrom_of_passes {p : Place} {c : Char} {cs : Text} (h : r.Passes p (c :: cs)) :
  r.writtenFrom f p (c :: cs) = c :: r.writtenFrom f (p.next c) cs
  := by
  rw [writtenFrom, piecesFrom_of_passes h]
  rfl

omit f in
/-- In a text either no match is of a kind, or there is a first one that is. -/
theorem exists_first (q : Match α → Bool) (p : Place) (t : Text) :
  (∀ m, .found m ∈ r.piecesFrom 0 p t → q m = false)
    ∨ ∃ ps m n, r.piecesFrom 0 p t
        = ps ++ .found m :: r.piecesFrom 0 (p.after (ps.flatMap Piece.source ++ m.source)) m.rest
      ∧ t = ps.flatMap Piece.source ++ (m.source ++ m.rest)
      ∧ IsRead r (p.after (ps.flatMap Piece.source)) m n
      ∧ q m = true ∧ ∀ m', .found m' ∈ ps → q m' = false
  := by
  rcases hfind : (r.piecesFrom 0 p t).find? (fun piece => piece.match?.any q) with _ | piece
  · left
    intro m hm
    simpa [Piece.match?] using List.find?_eq_none.mp hfind _ hm
  · right
    obtain ⟨hpiece, ps, qs, hpieces, hps⟩ := List.find?_eq_some_iff_append.mp hfind
    cases piece with
    | char c => simp [Piece.match?] at hpiece
    | found m =>
      obtain ⟨u, ht, hqs⟩ := piecesFrom_eq_append hpieces
      obtain ⟨⟨n, hread⟩, hu, hrest⟩ := piecesFrom_eq_found_cons hqs.symm
      rw [← Place.after_append] at hrest
      refine ⟨ps, m, n, by rw [hpieces, hrest], by rw [ht, hu], hread, ?_, ?_⟩
      · simpa [Piece.match?] using hpiece
      · intro m' hm'
        simpa [Piece.match?] using hps _ hm'

/-- What relates a text to itself, and is kept by a replaced match with a gap before it, relates
a text to its replacement. -/
theorem replace_gap_induction
    {t : Text} (P : Place → Text → Text → Prop)
    (kept : ∀ p u, P p u u)
    (replaced : ∀ p g m w n u', m ∈ r.findAll t → f m = some w → IsRead r (p.after g) m n →
      P (p.after (g ++ m.source)) m.rest u' →
      P p (g ++ (m.source ++ m.rest)) (g ++ (w ++ u'))) :
  P .start t (r.replace f t).text
  := by
  suffices ∀ p u, (∀ m, .found m ∈ r.piecesFrom 0 p u → m ∈ r.findAll t) →
      P p u (r.writtenFrom f p u) by
    rw [text_replace]
    apply this
    intro m hm
    apply mem_findAll_iff.mpr hm
  intro p u
  induction hn : u.length using Nat.strongRecOn generalizing p u with
  | ind n ih =>
    subst hn
    intro hu
    rcases r.exists_first (fun m => (f m).isSome) p u with
      hnone | ⟨ps, m, n, hps, heq, hread, hm, hgap⟩
    · rw [writtenFrom, flatMap_written_of_none f (by simpa using hnone),
        flatMap_source_piecesFrom]
      apply kept
    · obtain ⟨w, hw⟩ := Option.isSome_iff_exists.mp hm
      have hwritten : r.writtenFrom f p u = ps.flatMap Piece.source
          ++ (w ++ r.writtenFrom f (p.after (ps.flatMap Piece.source ++ m.source)) m.rest) := by
        rw [writtenFrom, hps, List.flatMap_append, List.flatMap_cons,
          flatMap_written_of_none f (by simpa using hgap), Piece.written, hw]
        rfl
      rw [hwritten]
      rw [hps] at hu
      subst heq
      apply replaced p _ m w n _ (hu m (by simp)) hw hread
      apply ih m.rest.length _ _ _ rfl
      · intro m' hm'
        apply hu m' (by simp [hm'])
      · have hpos := List.length_pos_iff.mpr hread.source_ne_nil
        simp only [List.length_append]
        omega

omit r in
/-- What a second reader finds in a text and in its replacement, if the replaced matches stand
apart from all that it finds in the text. -/
theorem IsLocal.replace_apart_induction
    {β : Type} {a : Reader β} (ha : a.IsLocal) (hsees : a.SeesEscape) {r : Reader α} {t : Text}
    (P : List (Option β × Text) → List (Option β × Text) → Prop)
    (apart : ∀ m ∈ r.findAll t, ∀ w, f m = some w → ∀ i ∈ a.findAll t, m.span.Apart i.span)
    (escaped : ∀ m ∈ r.findAll t, ∀ w, f m = some w →
      ∀ p q : Place, (p.after m.source).escaped = (q.after w).escaped)
    (kept : ∀ es, P es es)
    (replaced : ∀ p g m w es u', m ∈ r.findAll t → f m = some w →
      P es (a.entries (p.after (g ++ w)) u') →
      P (a.entries p g ++ (m.source.map (fun c => (none, [c])) ++ es))
        (a.entries p (g ++ (w ++ u')))) :
  P (a.entries .start t) (a.entries .start (r.replace f t).text)
  := by
  have hall := r.replace_gap_induction f (t := t) fun p u u' =>
    ∀ p', p'.escaped = p.escaped → (∀ i, .found i ∈ a.piecesFrom 0 p u → i ∈ a.findAll t) →
      P (a.entries p u) (a.entries p' u')
  apply hall _ _ .start rfl (fun i => mem_findAll_iff.mpr)
  · intro p u p' hp _
    rw [hsees.entries_congr hp]
    apply kept
  · intro p g m w n u' hm hw hread ih p' hp hmem
    obtain ⟨hentries, hrest⟩ := ha.entries_of_apart (p := p) (g := g) (s := m.source)
      (z := m.rest) (by
        intro i hi
        rw [← Place.after_offset, ← hread.start_eq]
        apply apart m hm w hw i (hmem i hi))
    rw [hentries, ← hsees.entries_congr hp]
    apply replaced p' g m w _ u' hm hw
    apply ih
    · rw [Place.after_append, Place.after_append p]
      apply (escaped m hm w hw _ _).symm
    · exact fun i hi => hmem i (hrest i hi)

/-- A character of a text stands by itself, and nothing is read there, or it stands in a
match. -/
theorem passes_or_exists_of_getElem? {t : Text} {i : Nat} {c : Char} (h : t[i]? = some c) :
  (.char c ∈ r.pieces t ∧ r.Passes (Place.start.after (t.take i)) (t.drop i))
    ∨ ∃ m ∈ r.findAll t, m.start ≤ i ∧ i < m.span.stop
  := by
  suffices ∀ p u, ∀ i, u[i]? = some c →
      (.char c ∈ r.piecesFrom 0 p u ∧ r.Passes (p.after (u.take i)) (u.drop i))
      ∨ ∃ m, .found m ∈ r.piecesFrom 0 p u ∧ m.start ≤ p.offset + i
        ∧ p.offset + i < m.span.stop by
    rcases this .start t i h with hchar | ⟨m, hm, hstart, hstop⟩
    · left
      exact hchar
    · right
      rw [Place.start, Nat.zero_add] at hstart hstop
      exact ⟨m, mem_findAll_iff.mpr hm, hstart, hstop⟩
  clear h i
  intro p u
  apply r.piecesFrom_induction fun p u ps => ∀ i, u[i]? = some c →
    (.char c ∈ ps ∧ r.Passes (p.after (u.take i)) (u.drop i))
    ∨ ∃ m, .found m ∈ ps ∧ m.start ≤ p.offset + i ∧ p.offset + i < m.span.stop
  · intro p i hi
    cases hi
  · intro p d cs hpass ih i hi
    cases i with
    | zero =>
      obtain rfl := Option.some.inj hi
      left
      exact ⟨List.mem_cons_self, hpass⟩
    | succ i =>
      rcases ih i hi with ⟨hchar, hpass⟩ | ⟨m, hm, hstart, hstop⟩
      · left
        exact ⟨List.mem_cons_of_mem _ hchar, hpass⟩
      · right
        simp only [Place.next] at hstart hstop
        exact ⟨m, List.mem_cons_of_mem _ hm, by omega, by omega⟩
  · intro p m n hread ih i hi
    by_cases hin : i < m.source.length
    · right
      use m, List.mem_cons_self
      simp only [Match.span, hread.start_eq]
      omega
    · obtain ⟨k, rfl⟩ := Nat.exists_eq_add_of_le (Nat.le_of_not_lt hin)
      rw [List.getElem?_append_right (by omega), Nat.add_sub_cancel_left] at hi
      rcases ih k hi with ⟨hchar, hpass⟩ | ⟨m', hm', hstart, hstop⟩
      · left
        rw [List.take_length_add_append, List.drop_length_add_append, Place.after_append]
        exact ⟨List.mem_cons_of_mem _ hchar, hpass⟩
      · right
        rw [Place.after_offset] at hstart hstop
        exact ⟨m', List.mem_cons_of_mem _ hm', by omega, by omega⟩

/-- A character of a text stands by itself, or in a match. -/
theorem mem_pieces_or_exists_of_getElem? {t : Text} {i : Nat} {c : Char} (h : t[i]? = some c) :
  .char c ∈ r.pieces t ∨ ∃ m ∈ r.findAll t, m.start ≤ i ∧ i < m.span.stop
  := (r.passes_or_exists_of_getElem? h).imp_left And.left

end Reader

/-! ### Coarser and finer readers -/

/-- A piece cut up: a match whose value is none of another reader is a text of characters for
it. -/
def Piece.cutUp {α β : Type} (φ : α → Option β) : Piece α → List (Piece β)
  | char c => [char c]
  | found m =>
    match φ m.value with
    | some b => [found ⟨m.start, m.source, b, m.rest⟩]
    | none => m.source.map char

namespace Reader

variable {α β : Type} {r : Reader α} {a : Reader β}

/-- The pieces of one reader, cut up further, are those of another one that reads nothing but
some of its matches. -/
theorem piecesFrom_eq_flatMap
    {φ : α → Option β} {p : Place} {t : Text}
    (char : ∀ q c u, .char c ∈ r.piecesFrom 0 p t → r.Passes q (c :: u) → a.Passes q (c :: u))
    (reads : ∀ q m n b, .found m ∈ r.piecesFrom 0 p t → IsRead r q m n → φ m.value = some b →
      a q (m.source ++ m.rest) = some (b, n + 1))
    (skips : ∀ q m n, .found m ∈ r.piecesFrom 0 p t → IsRead r q m n → φ m.value = none →
      ∀ u c v, m.source = u ++ c :: v → a.Passes (q.after u) (c :: (v ++ m.rest))) :
  a.piecesFrom 0 p t = (r.piecesFrom 0 p t).flatMap (Piece.cutUp φ)
  := by
  revert char reads skips
  apply r.piecesFrom_induction fun p t ps =>
    (∀ q c u, .char c ∈ ps → r.Passes q (c :: u) → a.Passes q (c :: u)) →
    (∀ q m n b, .found m ∈ ps → IsRead r q m n → φ m.value = some b →
      a q (m.source ++ m.rest) = some (b, n + 1)) →
    (∀ q m n, .found m ∈ ps → IsRead r q m n → φ m.value = none →
      ∀ u c v, m.source = u ++ c :: v → a.Passes (q.after u) (c :: (v ++ m.rest))) →
    a.piecesFrom 0 p t = ps.flatMap (Piece.cutUp φ)
  · intro p _ _ _
    rfl
  · intro p c cs hpass ih char reads skips
    have hpass' := char p c cs List.mem_cons_self hpass
    rw [piecesFrom_of_passes hpass', List.flatMap_cons, ih]
    · rfl
    · exact fun q d u hd => char q d u (List.mem_cons_of_mem _ hd)
    · exact fun q m n b hm => reads q m n b (List.mem_cons_of_mem _ hm)
    · exact fun q m n hm => skips q m n (List.mem_cons_of_mem _ hm)
  · intro p m n hm ih char reads skips
    rw [List.flatMap_cons, ← ih]
    · cases hvalue : φ m.value with
      | none =>
        rw [piecesFrom_append_of_forall_passes (skips p m n List.mem_cons_self hm hvalue),
          Piece.cutUp, hvalue]
      | some b =>
        have hread : IsRead a p ⟨m.start, m.source, b, m.rest⟩ n := by
          constructor
          · apply hm.start_eq
          · apply hm.source_ne_nil
          · apply reads p m n b List.mem_cons_self hm hvalue
          · apply hm.source_eq
        rw [Piece.cutUp, hvalue]
        apply hread.piecesFrom_eq
    · exact fun q d u hd => char q d u (List.mem_cons_of_mem _ hd)
    · exact fun q m n b hm => reads q m n b (List.mem_cons_of_mem _ hm)
    · exact fun q m n hm => skips q m n (List.mem_cons_of_mem _ hm)

/-- The matches of a reader whose pieces are those of another one, cut up. -/
theorem mem_findAll_iff_of_cutUp
    {φ : α → Option β} {t : Text} {m : Match β}
    (h : a.pieces t = (r.pieces t).flatMap (Piece.cutUp φ)) :
  m ∈ a.findAll t
    ↔ ∃ m' ∈ r.findAll t, ∃ b, φ m'.value = some b ∧ m = ⟨m'.start, m'.source, b, m'.rest⟩
  := by
  rw [mem_findAll_iff, h, List.mem_flatMap]
  constructor
  · rintro ⟨piece, hpiece, hm⟩
    cases piece with
    | char c => simp [Piece.cutUp] at hm
    | found m' =>
      refine ⟨m', mem_findAll_iff.mpr hpiece, ?_⟩
      rw [Piece.cutUp] at hm
      split at hm
      · next b hb => exact ⟨b, hb, Piece.found.inj (List.mem_singleton.mp hm)⟩
      · simp at hm
  · rintro ⟨m', hm', b, hb, rfl⟩
    refine ⟨.found m', mem_findAll_iff.mp hm', ?_⟩
    rw [Piece.cutUp, hb]
    apply List.mem_singleton_self

end Reader

end DollarMath
