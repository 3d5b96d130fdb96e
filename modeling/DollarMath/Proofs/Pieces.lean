import DollarMath.Proofs.Replacement

/-!
# Pieces one after another

The pieces of a text are read off from left to right.  Where no match straddles a cut, the
pieces before and after it are those of the two parts, as long as the reader does not look
beyond what it takes.
-/

namespace DollarMath

namespace Place

/-- Whether a place behind a text is escaped depends on the text, and on the place before if it is
empty. -/
theorem escaped_after_congr {p q : Place} (h : p.escaped = q.escaped) (t : Text) :
  (p.after t).escaped = (q.after t).escaped
  := by
  induction t generalizing p q with
  | nil => exact h
  | cons c cs ih =>
    apply ih (p := p.next c) (q := q.next c)
    rfl

/-- One character more. -/
theorem after_concat (p : Place) (t : Text) (c : Char) :
  p.after (t ++ [c]) = (p.after t).next c
  := after_append p t [c]

/-- The character before a place is the last of the text before it. -/
theorem before_after_concat (p : Place) (t : Text) (c : Char) :
  (p.after (t ++ [c])).before = some c
  := by
  rw [after_append]
  rfl

/-- A place is escaped behind a backslash. -/
theorem escaped_after_concat (p : Place) (t : Text) (c : Char) :
  (p.after (t ++ [c])).escaped = decide (c = '\\')
  := by
  simp [escaped, before_after_concat]

/-- A place at the start of a line, behind a text, is behind a line feed of it. -/
theorem newline_mem_of_atLineStart {p : Place} {s t : Text} (hne : t ≠ [])
    (h : (p.after (s ++ t)).atLineStart = true) :
  '\n' ∈ t
  := by
  obtain ⟨t', c, rfl⟩ := (List.eq_nil_or_concat' t).resolve_left hne
  rw [← List.append_assoc, atLineStart, before_after_concat] at h
  obtain rfl : c = '\n' := by simpa using h
  simp

/-- The character before a place in a text. -/
theorem before_start_after (t : Text) :
  (start.after t).before = t.getLast?
  := by
  rcases List.eq_nil_or_concat' t with rfl | ⟨s, c, rfl⟩
  · rfl
  · rw [before_after_concat, List.getLast?_concat]

/-- A text that does not end with a backslash leads to a place that is not escaped. -/
theorem escaped_after_eq_false {p : Place} {t : Text} (hne : t ≠ [])
    (h : t.getLast? ≠ some '\\') :
  (p.after t).escaped = false
  := by
  obtain ⟨t', c, rfl⟩ := (List.eq_nil_or_concat' t).resolve_left hne
  rw [escaped_after_concat, decide_eq_false_iff_not]
  rintro rfl
  apply h
  apply List.getLast?_concat

/-- A text whose last part holds no backslash leads to a place that is not escaped. -/
theorem escaped_after_append {p : Place} {s t : Text} (hne : t ≠ []) (h : '\\' ∉ t) :
  (p.after (s ++ t)).escaped = false
  := by
  rw [after_append]
  apply escaped_after_eq_false hne
  exact fun hlast => h (List.mem_of_getLast? hlast)

end Place

/-- What a piece is and which characters it has, wherever it stands. -/
def Piece.entry {α : Type} : Piece α → Option α × Text
  | char c => (none, [c])
  | found m => (some m.value, m.source)

namespace Reader

variable {α : Type} (r : Reader α)

/-- Nothing that takes a character is read at the front of the text. -/
def Passes (p : Place) (t : Text) : Prop :=
  ∀ a k, r p t ≠ some (a, k + 1)

variable {r}

/-- Where nothing is read, the first piece is a character. -/
theorem piecesFrom_of_passes {p : Place} {c : Char} {cs : Text} (h : r.Passes p (c :: cs)) :
  r.piecesFrom 0 p (c :: cs) = .char c :: r.piecesFrom 0 (p.next c) cs
  := by
  rw [piecesFrom]
  split
  · next a k hr => exact absurd hr (h a k)
  · rfl

/-- Where something is read, the first piece is the match. -/
theorem piecesFrom_of_some
    {p : Place} {c : Char} {cs : Text} {a : α} {n : Nat} (h : r p (c :: cs) = some (a, n + 1)) :
  r.piecesFrom 0 p (c :: cs)
    = .found ⟨p.offset, c :: cs.take n, a, cs.drop n⟩
        :: r.piecesFrom 0 (p.after (c :: cs.take n)) (cs.drop n)
  := by
  rw [piecesFrom, h]
  dsimp only
  rw [piecesFrom_skip]
  rfl

/-- A match is read where its characters start, and holds as many of them as are taken. -/
structure IsRead (r : Reader α) (p : Place) (m : Match α) (n : Nat) : Prop where
  /-- The match starts at the place. -/
  start_eq : m.start = p.offset
  /-- The match takes a character. -/
  source_ne_nil : m.source ≠ []
  /-- The reader gives the match. -/
  read : r p (m.source ++ m.rest) = some (m.value, n + 1)
  /-- The match holds what has been taken. -/
  source_eq : m.source = (m.source ++ m.rest).take (n + 1)

/-- Behind a match that is read stands the rest. -/
theorem IsRead.rest_eq {p : Place} {m : Match α} {n : Nat} (h : IsRead r p m n) :
  m.rest = (m.source ++ m.rest).drop (n + 1)
  := by
  have hcat := List.take_append_drop (n + 1) (m.source ++ m.rest)
  rw [← h.source_eq] at hcat
  apply (List.append_cancel_left hcat).symm

/-- A match that is read is the first piece. -/
theorem IsRead.piecesFrom_eq {p : Place} {m : Match α} {n : Nat} (h : IsRead r p m n) :
  r.piecesFrom 0 p (m.source ++ m.rest)
    = .found m :: r.piecesFrom 0 (p.after m.source) m.rest
  := by
  obtain ⟨start, source, value, rest⟩ := m
  obtain ⟨hstart, hne, hread, htake⟩ := h
  dsimp only at hstart hne hread htake ⊢
  cases source with
  | nil => exact absurd rfl hne
  | cons c cs =>
    change r p (c :: (cs ++ rest)) = _ at hread
    rw [List.cons_append, List.take_succ_cons, List.cons.injEq] at htake
    have hdrop : (cs ++ rest).drop n = rest := by
      have hcat := List.take_append_drop n (cs ++ rest)
      rw [← htake.2] at hcat
      apply List.append_cancel_left hcat
    change r.piecesFrom 0 p (c :: (cs ++ rest)) = _
    rw [piecesFrom_of_some hread, ← htake.2, hdrop, hstart]

/-- At the front of a text stands a character where nothing is read, or a match. -/
theorem passes_or_exists_isRead (r : Reader α) (p : Place) (c : Char) (cs : Text) :
  r.Passes p (c :: cs) ∨ ∃ m n, IsRead r p m n ∧ c :: cs = m.source ++ m.rest
  := by
  by_cases hr : r.Passes p (c :: cs)
  · left
    apply hr
  · right
    simp only [Passes, not_forall, not_not] at hr
    obtain ⟨a, k, hr⟩ := hr
    have hcat : c :: cs = (c :: cs.take k) ++ cs.drop k := by simp
    refine ⟨⟨p.offset, c :: cs.take k, a, cs.drop k⟩, k, ?_, hcat⟩
    constructor
    · rfl
    · apply List.cons_ne_nil
    · rw [← hcat, hr]
    · rw [← hcat, List.take_succ_cons]

/-- What holds of the pieces of the empty text, and is kept by one more piece in front, holds of
the pieces of every text. -/
theorem piecesFrom_induction
    (P : Place → Text → List (Piece α) → Prop)
    (nil : ∀ p, P p [] [])
    (char : ∀ p c cs, r.Passes p (c :: cs) →
      P (p.next c) cs (r.piecesFrom 0 (p.next c) cs) →
      P p (c :: cs) (.char c :: r.piecesFrom 0 (p.next c) cs))
    (found : ∀ p m n, IsRead r p m n →
      P (p.after m.source) m.rest (r.piecesFrom 0 (p.after m.source) m.rest) →
      P p (m.source ++ m.rest) (.found m :: r.piecesFrom 0 (p.after m.source) m.rest))
    (p : Place) (t : Text) :
  P p t (r.piecesFrom 0 p t)
  := by
  induction hn : t.length using Nat.strongRecOn generalizing p t with
  | ind n ih =>
    subst hn
    cases t with
    | nil => exact nil p
    | cons c cs =>
      rcases passes_or_exists_isRead r p c cs with hpass | ⟨m, n, hm, hcat⟩
      · rw [piecesFrom_of_passes hpass]
        apply char p c cs hpass
        apply ih cs.length (by simp) _ _ rfl
      · rw [hcat, hm.piecesFrom_eq]
        apply found p m n hm
        apply ih m.rest.length _ _ _ rfl
        rw [hcat, List.length_append]
        have hpos := List.length_pos_iff.mpr hm.source_ne_nil
        omega

/-! ### Entries -/

/-- The pieces of a text from a place on, wherever they stand. -/
def entries (r : Reader α) (p : Place) (t : Text) : List (Option α × Text) :=
  (r.piecesFrom 0 p t).map Piece.entry

/-- The entries of a text concatenate to the text. -/
theorem flatMap_entries (p : Place) (t : Text) :
  (r.entries p t).flatMap Prod.snd = t
  := by
  rw [entries, List.flatMap_map]
  apply Eq.trans _ (r.flatMap_source_piecesFrom 0 p t)
  apply List.flatMap_congr
  rintro (c | m) -
  · rfl
  · rfl

/-- Where nothing is read, the first entry is a character. -/
theorem entries_of_passes {p : Place} {c : Char} {cs : Text} (h : r.Passes p (c :: cs)) :
  r.entries p (c :: cs) = (none, [c]) :: r.entries (p.next c) cs
  := by
  rw [entries, piecesFrom_of_passes h]
  rfl

/-- A match that is read is the first entry. -/
theorem IsRead.entries_eq {p : Place} {m : Match α} {n : Nat} (h : IsRead r p m n) :
  r.entries p (m.source ++ m.rest)
    = (some m.value, m.source) :: r.entries (p.after m.source) m.rest
  := by
  rw [entries, h.piecesFrom_eq]
  rfl

/-- Characters where nothing is read stand in front of the other pieces. -/
theorem piecesFrom_append_of_forall_passes
    {p : Place} {s t : Text}
    (h : ∀ u c v, s = u ++ c :: v → r.Passes (p.after u) (c :: (v ++ t))) :
  r.piecesFrom 0 p (s ++ t) = s.map .char ++ r.piecesFrom 0 (p.after s) t
  := by
  induction s generalizing p with
  | nil => rfl
  | cons c cs ih =>
    have hpass : r.Passes p (c :: (cs ++ t)) := h [] c cs rfl
    have hcs := ih (p := p.next c) fun u d v hu => h (c :: u) d v (by rw [hu]; rfl)
    rw [List.cons_append, piecesFrom_of_passes hpass, hcs]
    rfl

/-- A text where nothing is read is a text of characters. -/
theorem piecesFrom_of_forall_passes
    {p : Place} {t : Text} (h : ∀ u c v, t = u ++ c :: v → r.Passes (p.after u) (c :: v)) :
  r.piecesFrom 0 p t = t.map .char
  := by
  have hpieces := piecesFrom_append_of_forall_passes (t := []) fun u c v ht => by
    rw [List.append_nil]
    apply h u c v ht
  rwa [List.append_nil, piecesFrom, List.append_nil] at hpieces

/-- The entries of a text that is passed are its characters. -/
theorem entries_append_of_forall_passes
    {p : Place} {s t : Text}
    (h : ∀ u c v, s = u ++ c :: v → r.Passes (p.after u) (c :: (v ++ t))) :
  r.entries p (s ++ t) = s.map (fun c => (none, [c])) ++ r.entries (p.after s) t
  := by
  rw [entries, piecesFrom_append_of_forall_passes h, List.map_append, List.map_map]
  rfl

/-- Nothing is read in a text, or there is a first match: what stands before it is passed over. -/
theorem forall_passes_or_exists_isRead (r : Reader α) (p : Place) (t : Text) :
  (∀ u c v, t = u ++ c :: v → r.Passes (p.after u) (c :: v))
    ∨ ∃ g m n, t = g ++ (m.source ++ m.rest) ∧ IsRead r (p.after g) m n
      ∧ ∀ u c v, g = u ++ c :: v → r.Passes (p.after u) (c :: (v ++ (m.source ++ m.rest)))
  := by
  induction t generalizing p with
  | nil =>
    left
    intro u c v h
    simp at h
  | cons c cs ih =>
    rcases passes_or_exists_isRead r p c cs with hpass | ⟨m, n, hm, hcat⟩
    · rcases ih (p.next c) with hnone | ⟨g, m, n, hcs, hm, hgap⟩
      · left
        rintro (_ | ⟨d, u⟩) e v h
        · obtain ⟨rfl, rfl⟩ := List.cons.inj h
          apply hpass
        · obtain ⟨rfl, hcs⟩ := List.cons.inj h
          apply hnone u e v hcs
      · right
        refine ⟨c :: g, m, n, by rw [hcs]; rfl, hm, ?_⟩
        rintro (_ | ⟨d, u⟩) e v h
        · obtain ⟨rfl, rfl⟩ := List.cons.inj h
          rw [← hcs]
          apply hpass
        · obtain ⟨rfl, hg⟩ := List.cons.inj h
          apply hgap u e v hg
    · right
      refine ⟨[], m, n, hcat, hm, ?_⟩
      intro u c v h
      simp at h

/-- A reader that looks at the place only to tell whether a backslash stands before it. -/
def SeesEscape (r : Reader α) : Prop :=
  ∀ p q t, p.escaped = q.escaped → r p t = r q t

/-- The entries are the same at places that are escaped alike. -/
theorem SeesEscape.entries_congr
    (hr : r.SeesEscape) {p q : Place} (h : p.escaped = q.escaped) (t : Text) :
  r.entries p t = r.entries q t
  := by
  revert q
  apply r.piecesFrom_induction fun p t ps => ∀ {q : Place}, p.escaped = q.escaped →
    ps.map Piece.entry = r.entries q t
  · intro p q _
    rfl
  · intro p c cs hpass ih q h
    have hpass' : r.Passes q (c :: cs) := by
      intro a k
      rw [← hr p q _ h]
      apply hpass a k
    rw [entries_of_passes hpass', List.map_cons, ih (q := q.next c) rfl]
    rfl
  · intro p m n hm ih q h
    have hm' : IsRead r q { m with start := q.offset } n := by
      constructor
      · rfl
      · apply hm.source_ne_nil
      · rw [← hr p q _ h]
        apply hm.read
      · apply hm.source_eq
    apply Eq.trans _ hm'.entries_eq.symm
    rw [List.map_cons, ih (Place.escaped_after_congr h m.source)]
    rfl

/-- The values read in a text from a place on. -/
def values (r : Reader α) (p : Place) (t : Text) : List α :=
  (r.entries p t).filterMap Prod.fst

/-- The values of a text are those of its matches. -/
theorem values_start (t : Text) :
  r.values .start t = (r.findAll t).map Match.value
  := by
  rw [values, entries, findAll, pieces, List.filterMap_map, List.map_filterMap]
  apply List.filterMap_congr
  rintro (c | m) -
  · rfl
  · rfl

/-- Where nothing is read, the values are those of the rest. -/
theorem values_of_passes {p : Place} {c : Char} {cs : Text} (h : r.Passes p (c :: cs)) :
  r.values p (c :: cs) = r.values (p.next c) cs
  := by
  rw [values, entries_of_passes h]
  rfl

/-- A match that is read has the first value. -/
theorem IsRead.values_eq {p : Place} {m : Match α} {n : Nat} (h : IsRead r p m n) :
  r.values p (m.source ++ m.rest) = m.value :: r.values (p.after m.source) m.rest
  := by
  rw [values, h.entries_eq]
  rfl

/-- A text that is passed has no values. -/
theorem values_append_of_forall_passes
    {p : Place} {s t : Text}
    (h : ∀ u c v, s = u ++ c :: v → r.Passes (p.after u) (c :: (v ++ t))) :
  r.values p (s ++ t) = r.values (p.after s) t
  := by
  rw [values, entries_append_of_forall_passes h, List.filterMap_append, List.filterMap_map]
  simp [values]

/-- The values are the same at places that are escaped alike. -/
theorem SeesEscape.values_congr
    (hr : r.SeesEscape) {p q : Place} (h : p.escaped = q.escaped) (t : Text) :
  r.values p t = r.values q t
  := by
  rw [values, hr.entries_congr h]
  rfl

/-! ### Cuts -/

/-- A reader is local if what it reads at the front of a text does not depend on what follows
the characters taken. -/
def IsLocal (r : Reader α) : Prop :=
  ∀ p t u a k, r p t = some (a, k) ↔ k ≤ t.length ∧ r p (t ++ u) = some (a, k)

/-- What is taken stands in the text. -/
theorem IsLocal.length_le
    (hr : r.IsLocal) {p : Place} {t : Text} {a : α} {k : Nat} (h : r p t = some (a, k)) :
  k ≤ t.length
  := ((hr p t [] a k).mp h).1

/-- A match is as long as what is taken. -/
theorem IsLocal.length_source
    (hr : r.IsLocal) {p : Place} {m : Match α} {n : Nat} (h : IsRead r p m n) :
  m.source.length = n + 1
  := by
  have hle := hr.length_le h.read
  rw [h.source_eq, List.length_take]
  omega

/-- What is read in the first one of two texts is read in both together. -/
theorem IsLocal.isRead_append
    (hr : r.IsLocal) {p : Place} {m : Match α} {n : Nat} (h : IsRead r p m n) (u : Text) :
  IsRead r p { m with rest := m.rest ++ u } n
  := by
  have hle := hr.length_le h.read
  constructor
  · apply h.start_eq
  · apply h.source_ne_nil
  · dsimp only
    rw [← List.append_assoc]
    apply ((hr p _ u _ _).mp h.read).2
  · dsimp only
    rw [← List.append_assoc, List.take_append_of_le_length hle]
    apply h.source_eq

/-- What is read in two texts together, and ends in the first one, is read there. -/
theorem IsLocal.isRead_of_append
    (hr : r.IsLocal) {p : Place} {m : Match α} {n : Nat} (h : IsRead r p m n) {s t : Text}
    (hrest : m.rest = s ++ t) :
  IsRead r p { m with rest := s } n
  := by
  have hlength := hr.length_source h
  have hread := h.read
  have htake := h.source_eq
  rw [hrest, ← List.append_assoc] at hread htake
  have hle : n + 1 ≤ (m.source ++ s).length := by
    rw [List.length_append]
    omega
  constructor
  · apply h.start_eq
  · apply h.source_ne_nil
  · apply (hr p (m.source ++ s) t _ _).mpr ⟨hle, hread⟩
  · rw [List.take_append_of_le_length hle] at htake
    apply htake

/-- Where nothing is read with more text behind, nothing is read. -/
theorem IsLocal.passes_of_append
    (hr : r.IsLocal) {p : Place} {t : Text} (u : Text) (h : r.Passes p (t ++ u)) :
  r.Passes p t
  := by
  intro a k hread
  apply h a k ((hr p t u a (k + 1)).mp hread).2

/-- Where the pieces of a text are cut, the text is cut as well, and the later ones are the
pieces of what is left of it. -/
theorem piecesFrom_eq_append
    {p : Place} {t : Text} {ps qs : List (Piece α)} (h : r.piecesFrom 0 p t = ps ++ qs) :
  ∃ u, t = ps.flatMap Piece.source ++ u
    ∧ qs = r.piecesFrom 0 (p.after (ps.flatMap Piece.source)) u
  := by
  induction ps generalizing p t with
  | nil =>
    use t, rfl
    rw [List.nil_append] at h
    apply h.symm
  | cons piece ps ih =>
    cases t with
    | nil =>
      rw [piecesFrom] at h
      cases h
    | cons c cs =>
      rcases passes_or_exists_isRead r p c cs with hpass | ⟨m, n, hm, hcat⟩
      · rw [piecesFrom_of_passes hpass, List.cons_append] at h
        obtain ⟨rfl, htail⟩ := List.cons.inj h
        obtain ⟨u, hcs, hqs⟩ := ih htail
        use u
        constructor
        · rw [hcs]
          rfl
        · exact hqs
      · rw [hcat, hm.piecesFrom_eq, List.cons_append] at h
        obtain ⟨rfl, htail⟩ := List.cons.inj h
        obtain ⟨u, hrest, hqs⟩ := ih htail
        use u
        constructor
        · rw [hcat, hrest, List.flatMap_cons, List.append_assoc]
          rfl
        · rw [List.flatMap_cons, Place.after_append]
          exact hqs

/-- A match that is the first piece is read, and the other pieces are those behind it. -/
theorem piecesFrom_eq_found_cons
    {p : Place} {t : Text} {m : Match α} {qs : List (Piece α)}
    (h : r.piecesFrom 0 p t = .found m :: qs) :
  (∃ n, IsRead r p m n) ∧ t = m.source ++ m.rest
    ∧ qs = r.piecesFrom 0 (p.after m.source) m.rest
  := by
  cases t with
  | nil =>
    rw [piecesFrom] at h
    cases h
  | cons c cs =>
    rcases passes_or_exists_isRead r p c cs with hpass | ⟨m', n, hm, hcat⟩
    · rw [piecesFrom_of_passes hpass] at h
      cases h
    · rw [hcat, hm.piecesFrom_eq] at h
      obtain ⟨heq, rfl⟩ := List.cons.inj h
      obtain rfl := Piece.found.inj heq
      exact ⟨⟨n, hm⟩, hcat, rfl⟩

/-- The pieces before a cut are those of the text before it, up to what they say of the text
after it. -/
theorem IsLocal.entries_eq_of_append
    (hr : r.IsLocal) {p : Place} {t : Text} {ps qs : List (Piece α)}
    (h : r.piecesFrom 0 p t = ps ++ qs) :
  r.entries p (ps.flatMap Piece.source) = ps.map Piece.entry
  := by
  induction ps generalizing p t with
  | nil => rfl
  | cons piece ps ih =>
    cases t with
    | nil =>
      rw [piecesFrom] at h
      cases h
    | cons c cs =>
      rcases passes_or_exists_isRead r p c cs with hpass | ⟨m, n, hm, hcat⟩
      · rw [piecesFrom_of_passes hpass, List.cons_append] at h
        obtain ⟨rfl, htail⟩ := List.cons.inj h
        obtain ⟨u, hcs, -⟩ := piecesFrom_eq_append htail
        have hpass' : r.Passes p (c :: ps.flatMap Piece.source) := by
          apply hr.passes_of_append u
          rw [List.cons_append, ← hcs]
          apply hpass
        rw [List.map_cons, ← ih htail]
        apply entries_of_passes hpass'
      · rw [hcat, hm.piecesFrom_eq, List.cons_append] at h
        obtain ⟨rfl, htail⟩ := List.cons.inj h
        obtain ⟨u, hrest, -⟩ := piecesFrom_eq_append htail
        rw [List.map_cons, ← ih htail]
        apply (hr.isRead_of_append hm hrest).entries_eq

/-- A text can be cut between its pieces wherever no match starts before the cut and ends after
it. -/
theorem exists_piecesFrom_eq_append
    {p : Place} {s t : Text}
    (h : ∀ m, .found m ∈ r.piecesFrom 0 p (s ++ t) → m.start < p.offset + s.length →
      m.span.stop ≤ p.offset + s.length) :
  ∃ ps, r.piecesFrom 0 p (s ++ t) = ps ++ r.piecesFrom 0 (p.after s) t
    ∧ ps.flatMap Piece.source = s
  := by
  suffices ∃ ps qs, r.piecesFrom 0 p (s ++ t) = ps ++ qs ∧ ps.flatMap Piece.source = s by
    obtain ⟨ps, qs, hps, hs⟩ := this
    obtain ⟨u, hu, hqs⟩ := piecesFrom_eq_append hps
    rw [hs] at hu hqs
    obtain rfl := List.append_cancel_left hu
    use ps
    rw [hps, hqs]
    exact ⟨rfl, hs⟩
  revert h
  suffices ∀ p u, ∀ s t, u = s ++ t →
      (∀ m, .found m ∈ r.piecesFrom 0 p u → m.start < p.offset + s.length →
        m.span.stop ≤ p.offset + s.length) →
      ∃ ps qs, r.piecesFrom 0 p u = ps ++ qs ∧ ps.flatMap Piece.source = s from
    this p (s ++ t) s t rfl
  intro p u
  apply r.piecesFrom_induction fun p u pieces => ∀ s t, u = s ++ t →
    (∀ m, .found m ∈ pieces → m.start < p.offset + s.length →
      m.span.stop ≤ p.offset + s.length) →
    ∃ ps qs, pieces = ps ++ qs ∧ ps.flatMap Piece.source = s
  · intro p s t hu _
    obtain ⟨rfl, -⟩ := List.nil_eq_append_iff.mp hu
    exact ⟨[], [], rfl, rfl⟩
  · intro p c cs _ ih s t hu h
    cases s with
    | nil => exact ⟨[], _, rfl, rfl⟩
    | cons d s =>
      obtain ⟨rfl, hcs⟩ := List.cons.inj hu
      obtain ⟨ps, qs, hpieces, hs⟩ := ih s t hcs fun m hm hstart => by
        have hstop := h m (List.mem_cons_of_mem _ hm)
        simp only [Place.next, List.length_cons] at hstart hstop ⊢
        omega
      refine ⟨.char c :: ps, qs, ?_, ?_⟩
      · rw [hpieces, List.cons_append]
      · rw [List.flatMap_cons, hs]
        rfl
  · intro p m n hm ih s t hu h
    cases s with
    | nil => exact ⟨[], _, rfl, rfl⟩
    | cons d s =>
      have hle : m.source.length ≤ (d :: s).length := by
        have hstop := h m List.mem_cons_self
        rw [Match.span, hm.start_eq] at hstop
        simp only [List.length_cons] at hstop ⊢
        omega
      obtain ⟨s', hs, hrest⟩ : ∃ s', d :: s = m.source ++ s' ∧ m.rest = s' ++ t := by
        rcases List.append_eq_append_iff.mp hu with ⟨v, hv, hrest⟩ | ⟨v, hv, ht⟩
        · exact ⟨v, hv, hrest⟩
        · have hnil : v = [] := by
            rw [hv, List.length_append] at hle
            apply List.length_eq_zero_iff.mp
            omega
          use []
          rw [hnil] at hv ht
          simp [hv, ht]
      obtain ⟨ps, qs, hpieces, hs'⟩ := ih s' t hrest fun m' hm' hstart => by
        have hstop := h m' (List.mem_cons_of_mem _ hm')
        rw [hs, List.length_append] at hstop
        rw [Place.after_offset] at hstart ⊢
        omega
      refine ⟨.found m :: ps, qs, ?_, ?_⟩
      · rw [hpieces, List.cons_append]
      · rw [List.flatMap_cons, hs', hs]
        rfl

/-- The entries of a text that is cut, if where nothing is read in the first part nothing is
read with the second part behind it either. -/
theorem IsLocal.entries_append_of_passes
    (hr : r.IsLocal) {p : Place} {s t : Text}
    (h : ∀ u c v, s = u ++ c :: v → (none, [c]) ∈ r.entries p s →
      r.Passes (p.after u) (c :: v) → r.Passes (p.after u) (c :: (v ++ t))) :
  r.entries p (s ++ t) = r.entries p s ++ r.entries (p.after s) t
  := by
  revert h
  apply r.piecesFrom_induction fun p s ps =>
    (∀ u c v, s = u ++ c :: v → (none, [c]) ∈ ps.map Piece.entry →
      r.Passes (p.after u) (c :: v) → r.Passes (p.after u) (c :: (v ++ t))) →
    r.entries p (s ++ t) = ps.map Piece.entry ++ r.entries (p.after s) t
  · intro p _
    rfl
  · intro p c cs hpass ih h
    have hpass' : r.Passes p (c :: (cs ++ t)) := by
      apply h [] c cs rfl _ hpass
      simp [Piece.entry]
    rw [List.cons_append, entries_of_passes hpass', ih]
    · rfl
    · intro u d v hu hd
      apply h (c :: u) d v (by rw [hu]; rfl) (List.mem_cons_of_mem _ hd)
  · intro p m n hm ih h
    have hm' := (hr.isRead_append hm t).entries_eq
    dsimp only at hm'
    rw [List.append_assoc, hm', Place.after_append, ih]
    · rfl
    · intro u d v hu hd
      rw [← Place.after_append]
      apply h (m.source ++ u) d v (by rw [hu, List.append_assoc]) (List.mem_cons_of_mem _ hd)

end Reader

end DollarMath
