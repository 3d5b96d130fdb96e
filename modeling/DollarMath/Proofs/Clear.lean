import DollarMath.Proofs.Candidates
import DollarMath.Proofs.Explicit
import DollarMath.Proofs.Outside
import Mathlib.Tactic.MkIffOfInductiveProp

/-!
# Texts whose dollars are read

A text is clear if all its dollars belong to dollar mathematics and none stands directly behind an
inline formula.  The entries of such a text are told by conditions on neighbours: no character is a
dollar, a display holds no doubled dollar, and an inline formula has neighbours between which it is
read.  So a text that is put together from entries with fitting neighbours has just these entries.
-/

namespace DollarMath

/-- The entries of a text: characters, and dollar mathematics with its characters. -/
abbrev Entries := List (Option Dollars × Text)

namespace Entries

/-- The characters of entries, one after another. -/
def text (es : Entries) : Text := es.flatMap Prod.snd

/-- The entries of a text without dollar mathematics. -/
def chars (s : Text) : Entries := s.map fun c => (none, [c])

@[simp]
theorem text_nil :
  text [] = []
  := rfl

@[simp]
theorem text_cons (e : Option Dollars × Text) (es : Entries) :
  text (e :: es) = e.2 ++ text es
  := List.flatMap_cons

@[simp]
theorem text_append (es es' : Entries) :
  text (es ++ es') = text es ++ text es'
  := List.flatMap_append

@[simp]
theorem text_chars (s : Text) :
  text (chars s) = s
  := by
  induction s with
  | nil => rfl
  | cons c s ih => exact congrArg (List.cons c) ih

theorem chars_append (s u : Text) :
  chars (s ++ u) = chars s ++ chars u
  := List.map_append

/-- The entries of pieces have the text of the pieces. -/
theorem text_map_entry (ps : List (Piece Dollars)) :
  text (ps.map Piece.entry) = ps.flatMap Piece.source
  := by
  rw [text, List.flatMap_map]
  apply List.flatMap_congr
  rintro (c | m) -
  · rfl
  · rfl

/-- No entry of a character is dollar mathematics. -/
theorem eq_none_of_mem_chars {s : Text} {e : Option Dollars × Text} (h : e ∈ chars s) :
  e.1 = none
  := by
  obtain ⟨c, -, rfl⟩ := List.mem_map.mp h
  rfl

/-- The entries of a text have its characters. -/
theorem text_entries (scope : Dollars.Scope) (p : Place) (t : Text) :
  text ((Dollars.read scope).entries p t) = t
  := Reader.flatMap_entries p t

end Entries

/-! ### Neighbours -/

/-- Dollar mathematics fits between two characters: a display does wherever it stands, an inline
formula if it is read there and no dollar follows. -/
def Dollars.Fits (before after : Option Char) : Dollars → Prop
  | display body => ¬ ['$', '$'] <:+: body ++ ['$']
  | inline body => isInlineBody ⟨0, before⟩ body = true ∧ '$' ∉ body
      ∧ ∀ c ∈ after, isDigit c = false ∧ c ≠ '$'

/-- Entries between two characters are read as they are, whichever dollar mathematics is looked
for. -/
inductive Entries.AreRead (after : Option Char) : Option Char → Entries → Prop
  /-- There are none. -/
  | nil {before : Option Char} : AreRead after before []
  /-- A character that is no dollar. -/
  | char {before : Option Char} {es : Entries} (c : Char) (hc : c ≠ '$')
      (hes : AreRead after (some c) es) : AreRead after before ((none, [c]) :: es)
  /-- Dollar mathematics that fits. -/
  | math {before : Option Char} {es : Entries} (d : Dollars)
      (hd : d.Fits before ((text es).head?.or after)) (hes : AreRead after (some '$') es) :
      AreRead after before ((some d, d.source) :: es)

namespace Dollars

/-- Dollar mathematics is not empty. -/
theorem source_ne_nil (d : Dollars) :
  d.source ≠ []
  := List.ne_nil_of_mem d.dollar_mem_source

/-- Only the character before a body matters. -/
theorem isInlineBody_congr {p q : Place} (h : p.before = q.before) (body : Text) :
  isInlineBody p body = isInlineBody q body
  := by
  rw [isInlineBody, isInlineBody, Place.escaped, Place.escaped, h]

/-- The body of an inline formula is not empty. -/
theorem ne_nil_of_isInlineBody {p : Place} {body : Text} (h : isInlineBody p body = true) :
  body ≠ []
  := by
  obtain ⟨-, ⟨c, hc, -⟩, -⟩ := isInlineBody_iff.mp h
  rintro rfl
  cases hc

/-- An inline formula is read where it fits. -/
theorem read_inline_of_fits {p : Place} {body z : Text}
    (h : (inline body).Fits p.before z.head?) :
  read .all p ('$' :: (body ++ '$' :: z)) = some (.inline body, body.length + 2)
  := by
  obtain ⟨hbody, hdollar, hafter⟩ := h
  obtain ⟨-, ⟨c, hhead, -⟩, -⟩ := isInlineBody_iff.mp hbody
  apply (read_inline_iff _).mpr
  · refine ⟨body.length, ?_, ?_, ?_, ?_, ?_, rfl⟩
    · rw [List.getElem?_append_right (Nat.le_refl _), Nat.sub_self]
      rfl
    · rwa [List.take_left]
    · rw [List.take_left, isInlineBody_congr (p := p) (q := ⟨0, p.before⟩) rfl, hbody]
    · rw [List.getElem?_append_right (Nat.le_succ _), Nat.succ_sub (Nat.le_refl _), Nat.sub_self,
        List.getElem?_cons_succ, ← List.head?_eq_getElem?]
      cases hz : z.head? with
      | none => rfl
      | some c => exact (hafter c hz).1
    · rw [List.take_left]
  · rw [List.head?_append, hhead]
    intro heq
    obtain rfl : c = '$' := Option.some.inj heq
    exact hdollar (List.mem_of_mem_head? hhead)

/-- Dollar mathematics is read where it fits. -/
theorem Fits.isRead {d : Dollars} {p : Place} {z : Text} (h : d.Fits p.before z.head?) :
  Reader.IsRead (read .all) p ⟨p.offset, d.source, d, z⟩ (d.source.length - 1)
  := by
  cases d with
  | display body =>
    have hdisplay := reads_displays.isRead (p := p) (a := .display body) ⟨body, rfl, h⟩
      (source_ne_nil _) z
    exact ⟨hdisplay.start_eq, hdisplay.source_ne_nil, read_of_read_displays hdisplay.read,
      hdisplay.source_eq⟩
  | inline body =>
    have hlength : (inline body).source.length - 1 + 1 = (inline body).source.length := by
      simp [source]
    constructor
    · rfl
    · exact source_ne_nil (inline body)
    · dsimp only
      rw [hlength]
      have hread := read_inline_of_fits h
      simpa [source] using hread
    · dsimp only
      rw [hlength, List.take_left]

/-- Behind dollar mathematics stands a dollar. -/
theorem before_after_source (d : Dollars) (p : Place) :
  (p.after d.source).before = some '$'
  := by
  obtain ⟨s, hs⟩ : ∃ s, d.source = s ++ ['$'] :=
    List.getLast?_eq_some_iff.mp d.getLast?_source
  rw [hs, Place.before_after_concat]

end Dollars

namespace Entries

variable {before after : Option Char} {es : Entries}

/-- Entries that are read between two characters are those of their text. -/
theorem AreRead.entries_append {p : Place} {z : Text} (h : AreRead z.head? p.before es) :
  (Dollars.read .all).entries p (text es ++ z)
    = es ++ (Dollars.read .all).entries (p.after (text es)) z
  := by
  generalize hbefore : p.before = before at h
  induction h generalizing p with
  | nil => rfl
  | char c hc hes ih =>
    rw [text_cons, List.append_assoc]
    apply (Reader.entries_of_passes (Dollars.passes_of_ne hc)).trans
    apply congrArg (List.cons _)
    apply ih (p := p.next c) rfl
  | math d hd hes ih =>
    rw [← hbefore, ← List.head?_append] at hd
    rw [text_cons, List.append_assoc]
    apply hd.isRead.entries_eq.trans
    rw [ih (d.before_after_source p), Place.after_append]
    rfl

/-- Entries that are read as they are are the entries of their text. -/
theorem AreRead.entries_eq (h : AreRead none none es) :
  (Dollars.read .all).entries .start (text es) = es
  := by
  have hes := AreRead.entries_append (p := .start) (z := []) h
  rw [List.append_nil] at hes
  rw [hes]
  apply List.append_nil

/-- None of them is empty. -/
theorem AreRead.text_eq_nil_iff (h : AreRead after before es) :
  text es = [] ↔ es = []
  := by
  cases h with
  | nil => simp
  | char c hc hes => simp
  | math d hd hes => simp [d.source_ne_nil]

/-- Entries side by side are read if each part is read beside the other one. -/
theorem areRead_append_iff {es' : Entries} :
  AreRead after before (es ++ es')
    ↔ AreRead ((text es').head?.or after) before es
      ∧ AreRead after ((text es).getLast?.or before) es'
  := by
  induction es generalizing before with
  | nil => exact ⟨fun h => ⟨.nil, h⟩, fun h => h.2⟩
  | cons e es ih =>
    rw [List.cons_append]
    constructor
    · intro h
      cases h with
      | char c hc hes =>
        obtain ⟨hleft, hright⟩ := ih.mp hes
        refine ⟨.char c hc hleft, ?_⟩
        rw [text_cons, List.getLast?_append, Option.or_assoc]
        exact hright
      | math d hd hes =>
        obtain ⟨hleft, hright⟩ := ih.mp hes
        refine ⟨.math d ?_ hleft, ?_⟩
        · rw [text_append, List.head?_append, Option.or_assoc] at hd
          exact hd
        · rw [text_cons, List.getLast?_append, d.getLast?_source, Option.or_assoc]
          exact hright
    · rintro ⟨h, hright⟩
      cases h with
      | char c hc hes =>
        apply AreRead.char c hc
        apply ih.mpr ⟨hes, ?_⟩
        rw [text_cons, List.getLast?_append, Option.or_assoc] at hright
        exact hright
      | math d hd hes =>
        apply AreRead.math d
        · rw [text_append, List.head?_append, Option.or_assoc]
          exact hd
        · apply ih.mpr ⟨hes, ?_⟩
          rw [text_cons, List.getLast?_append, d.getLast?_source, Option.or_assoc] at hright
          exact hright

/-- Characters are read as they are if none is a dollar. -/
theorem areRead_chars {s : Text} (h : '$' ∉ s) :
  AreRead after before (chars s)
  := by
  induction s generalizing before with
  | nil => exact .nil
  | cons c s ih =>
    rw [List.mem_cons, not_or] at h
    exact .char c (Ne.symm h.1) (ih h.2)

/-- Characters that are read as they are hold no dollar. -/
theorem not_mem_of_areRead_chars {s : Text} (h : AreRead after before (chars s)) :
  '$' ∉ s
  := by
  induction s generalizing before with
  | nil => exact List.not_mem_nil
  | cons c s ih =>
    cases h with
    | char c hc hes =>
      rw [List.mem_cons, not_or]
      exact ⟨Ne.symm hc, ih hes⟩

/-- Neighbours that are dollar mathematics may be taken away. -/
theorem AreRead.none_none (h : AreRead after before es) :
  AreRead none none es
  := by
  have hafter : AreRead none before es := by
    induction h with
    | nil => exact .nil
    | char c hc _ ih => exact .char c hc ih
    | math d hd _ ih =>
      refine .math d ?_ ih
      cases d with
      | display body => exact hd
      | inline body =>
        refine ⟨hd.1, hd.2.1, fun c hc => hd.2.2 c ?_⟩
        rw [Option.or_none] at hc
        rw [Option.mem_def.mp hc]
        rfl
  cases hafter with
  | nil => exact .nil
  | char c hc hes => exact .char c hc hes
  | math d hd hes =>
    refine .math d ?_ hes
    cases d with
    | display body => exact hd
    | inline body =>
      obtain ⟨-, hshape⟩ := Dollars.isInlineBody_iff.mp hd.1
      exact ⟨Dollars.isInlineBody_iff.mpr ⟨by simp, hshape⟩, hd.2⟩

/-! ### Texts within entries -/

/-- A text without dollars in front of entries that are read is made of characters. -/
theorem AreRead.exists_chars {s v : Text} (h : AreRead after before es) (hs : '$' ∉ s)
    (htext : text es = s ++ v) :
  ∃ es', es = chars s ++ es' ∧ text es' = v
  := by
  induction s generalizing before es with
  | nil => exact ⟨es, rfl, htext⟩
  | cons c s ih =>
    rw [List.mem_cons, not_or] at hs
    cases h with
    | nil => cases htext
    | char c' hc hes =>
      obtain ⟨rfl, htail⟩ := List.cons.inj htext
      obtain ⟨es', rfl, hv⟩ := ih hes hs.2 htail
      exact ⟨es', rfl, hv⟩
    | math d hd hes =>
      have hhead := congrArg List.head? htext
      rw [text_cons, d.head?_source] at hhead
      exact absurd (Option.some.inj hhead) hs.1

/-- A text without dollars within entries that are read is made of characters, or it lies inside
of dollar mathematics. -/
theorem AreRead.exists_chars_or_inside {x s v : Text} (h : AreRead after before es)
    (hs : '$' ∉ s) (hne : s ≠ []) (htext : text es = x ++ (s ++ v)) :
  (∃ A B, es = A ++ (chars s ++ B) ∧ text A = x ∧ text B = v)
    ∨ ∃ A d B a c, es = A ++ (some d, d.source) :: B ∧ d.source = a ++ (s ++ c) ∧ a ≠ [] ∧ c ≠ []
      ∧ x = text A ++ a ∧ v = c ++ text B
  := by
  induction h generalizing x with
  | nil => simp [hne] at htext
  | char e hc hes ih =>
    cases x with
    | nil =>
      have hread : AreRead after none ((none, [e]) :: _) := .char e hc hes
      obtain ⟨es', hes', hv⟩ := hread.exists_chars hs htext
      exact .inl ⟨[], es', hes', rfl, hv⟩
    | cons e' x =>
      obtain ⟨rfl, htail⟩ := List.cons.inj htext
      rcases ih htail with ⟨A, B, rfl, hA, hB⟩ | ⟨A, d, B, a, w, rfl, hd, ha, hw, hx, hv⟩
      · exact .inl ⟨(none, [e]) :: A, B, rfl, congrArg (List.cons e) hA, hB⟩
      · exact .inr ⟨(none, [e]) :: A, d, B, a, w, rfl, hd, ha, hw, congrArg (List.cons e) hx, hv⟩
  | math d hd hes ih =>
    rw [text_cons] at htext
    rcases List.append_eq_append_iff.mp htext with ⟨y, rfl, hy⟩ | ⟨c, hsource, hc⟩
    · rcases ih hy with ⟨A, B, rfl, rfl, hB⟩ | ⟨A, d', B, a, w, rfl, hd', ha, hw, rfl, hv⟩
      · exact .inl ⟨(some d, d.source) :: A, B, rfl, rfl, hB⟩
      · exact .inr ⟨(some d, d.source) :: A, d', B, a, w, rfl, hd', ha, hw, by simp, hv⟩
    · dsimp only at hsource
      by_cases hnil : c = []
      · subst hnil
        rw [List.append_nil] at hsource
        rw [List.nil_append] at hc
        rcases ih (x := []) hc.symm with ⟨A, B, rfl, hA, hB⟩ | ⟨A, d', B, a, w, -, -, ha, -, hx, -⟩
        · exact .inl ⟨(some d, d.source) :: A, B, rfl, by simp [hA, hsource], hB⟩
        · exact absurd (List.append_eq_nil_iff.mp hx.symm).2 ha
      · right
        have hlast : c.getLast? = some '$' := by
          rw [← d.getLast?_source, hsource, List.getLast?_append_of_ne_nil _ hnil]
        rcases List.append_eq_append_iff.mp hc with ⟨w, rfl, hv⟩ | ⟨w, rfl, -⟩
        · refine ⟨[], d, _, x, w, rfl, hsource, ?_, ?_, rfl, hv⟩
          · rintro rfl
            have hhead := d.head?_source []
            rw [List.append_nil, hsource, List.nil_append, List.head?_append_of_ne_nil _ hne]
              at hhead
            exact hs (List.mem_of_mem_head? hhead)
          · rintro rfl
            rw [List.append_nil] at hlast
            exact hs (List.mem_of_getLast? hlast)
        · exact absurd (List.mem_append_left _ (List.mem_of_getLast? hlast)) hs

end Entries

/-! ### Clear texts -/

namespace Dollars

instance (d : Dollars) (P : Prop) [Decidable P] : Decidable (∀ body, d = .inline body → P) :=
  match d with
  | display _ => isTrue nofun
  | inline body => decidable_of_iff P ⟨fun h _ _ => h, fun h => h body rfl⟩

/-- A text whose dollars all belong to dollar mathematics, none of them directly behind an inline
formula. -/
@[mk_iff]
structure IsClear (t : Text) : Prop where
  /-- All dollars belong to dollar mathematics. -/
  dollars : .char '$' ∉ (read .all).pieces t
  /-- No dollar stands directly behind an inline formula. -/
  inlines : ∀ m ∈ (read .all).findAll t, ∀ body, m.value = .inline body → m.rest.head? ≠ some '$'

instance (t : Text) : Decidable (IsClear t) :=
  decidable_of_iff _ (isClear_iff t).symm

/-- Dollar mathematics that is read fits between the characters beside it, if no dollar stands
behind it where it is an inline formula. -/
theorem fits_of_isRead {p : Place} {m : Match Dollars} {n : Nat}
    (h : Reader.IsRead (read .all) p m n)
    (hinline : ∀ body, m.value = .inline body → m.rest.head? ≠ some '$') :
  m.value.Fits p.before m.rest.head? ∧ m.source = m.value.source
  := by
  have hsource : m.source = m.value.source := by
    rw [source_of_read h.read, ← h.source_eq]
  refine ⟨?_, hsource⟩
  have hread := h.read
  rw [hsource] at hread
  cases hvalue : m.value with
  | display body =>
    rw [hvalue] at hread
    have hdisplay : read .displays p ((display body).source ++ m.rest)
        = some (.display body, n + 1) := hread
    obtain ⟨⟨b, hb, hshape⟩, -⟩ := (reads_displays p _ _ _).mp hdisplay
    obtain rfl := display.inj hb
    exact hshape
  | inline body =>
    rw [hvalue] at hread
    have htext : (inline body).source ++ m.rest = '$' :: (body ++ '$' :: m.rest) := by
      simp [source]
    rw [htext] at hread
    have hhead : (body ++ '$' :: m.rest).head? ≠ some '$' := by
      intro hhead
      obtain ⟨cs, hcs⟩ := List.head?_eq_some_iff.mp hhead
      rw [hcs] at hread
      obtain ⟨k, -, -, heq, -⟩ := read_display_iff.mp hread
      cases heq
    obtain ⟨k, -, hdollar, hbody, hdigit, heq, -⟩ := (read_inline_iff hhead).mp hread
    have hk : (body ++ '$' :: m.rest).take k = body := (inline.inj heq).symm
    rw [hk] at hdollar hbody
    have hlength : k = body.length := by
      have hlength := congrArg List.length hk
      rw [List.length_take, List.length_append, List.length_cons] at hlength
      omega
    refine ⟨by rw [← hbody, isInlineBody_congr (p := ⟨0, p.before⟩) (q := p) rfl], hdollar, ?_⟩
    intro c hc
    refine ⟨?_, fun heq => hinline body hvalue (heq ▸ hc)⟩
    rw [hlength, List.getElem?_append_right (Nat.le_succ _), Nat.succ_sub (Nat.le_refl _),
      Nat.sub_self, List.getElem?_cons_succ, ← List.head?_eq_getElem?, hc] at hdigit
    exact hdigit

/-- The entries of a clear text are read as they are. -/
theorem IsClear.areRead {t : Text} (h : IsClear t) :
  Entries.AreRead none none ((read .all).entries .start t)
  := by
  obtain ⟨hdollars, hinlines⟩ := h
  suffices ∀ p u, .char '$' ∉ (read .all).piecesFrom 0 p u →
      (∀ m, .found m ∈ (read .all).piecesFrom 0 p u → ∀ body, m.value = .inline body →
        m.rest.head? ≠ some '$') →
      Entries.AreRead none p.before ((read .all).entries p u) from
    this .start t hdollars fun m hm => hinlines m (Reader.mem_findAll_iff.mpr hm)
  intro p u
  apply (read .all).piecesFrom_induction fun p u ps => .char '$' ∉ ps →
    (∀ m, .found m ∈ ps → ∀ body, m.value = .inline body → m.rest.head? ≠ some '$') →
    Entries.AreRead none p.before (ps.map Piece.entry)
  · exact fun p _ _ => .nil
  · intro p c cs _ ih hdollars hinlines
    rw [List.mem_cons, not_or] at hdollars
    refine .char c ?_ (ih hdollars.2 fun m hm => hinlines m (List.mem_cons_of_mem _ hm))
    rintro rfl
    exact hdollars.1 rfl
  · intro p m n hm ih hdollars hinlines
    rw [List.mem_cons, not_or] at hdollars
    obtain ⟨hfits, hsource⟩ := fits_of_isRead hm (hinlines m List.mem_cons_self)
    have hrest := ih hdollars.2 fun m' hm' => hinlines m' (List.mem_cons_of_mem _ hm')
    rw [hsource, before_after_source] at hrest
    rw [List.map_cons, Piece.entry, hsource]
    refine .math _ ?_ hrest
    rw [← hsource]
    change m.value.Fits p.before
      ((Entries.text ((read .all).entries (p.after m.source) m.rest)).head?.or none)
    rwa [Entries.text_entries, Option.or_none]

/-- Characters that touch no dollar mathematics stand by themselves. -/
theorem exists_chars_of_touches {t x s y : Text} (ht : t = x ++ (s ++ y))
    (h : Span.touches ⟨x.length, x.length + s.length⟩ (dollarSpans .all t) = false) :
  ∃ A B, (read .all).entries .start t = A ++ (Entries.chars s ++ B) ∧ Entries.text A = x
    ∧ Entries.text B = y
  := by
  obtain ⟨ps, hps, hx⟩ := Reader.exists_piecesFrom_of_apart (r := read .all) (p := .start) (g := x)
    (s := s) (z := y) (by
    intro m hm
    rw [← ht] at hm
    simpa [Place.start] using apart_of_touches_eq_false h m (Reader.mem_findAll_iff.mpr hm))
  refine ⟨ps.map Piece.entry, (read .all).entries (Place.start.after (x ++ s)) y, ?_, ?_,
    Entries.text_entries _ _ _⟩
  · rw [Reader.entries, ht, hps, List.map_append, List.map_append, List.map_map]
    rfl
  · rw [Entries.text_map_entry, hx]

/-- If all dollars are read, characters that touch no dollar mathematics are no dollars. -/
theorem dollar_not_mem_of_touches {t x s y : Text}
    (h : Entries.AreRead none none ((read .all).entries .start t)) (ht : t = x ++ (s ++ y))
    (htouches : Span.touches ⟨x.length, x.length + s.length⟩ (dollarSpans .all t) = false) :
  '$' ∉ s
  := by
  obtain ⟨A, B, hentries, -, -⟩ := exists_chars_of_touches ht htouches
  rw [hentries, Entries.areRead_append_iff, Entries.areRead_append_iff] at h
  exact Entries.not_mem_of_areRead_chars h.2.1

/-- Characters that stand by themselves touch no dollar mathematics. -/
theorem touches_eq_false_of_chars {t s : Text} {A B : Entries}
    (h : (read .all).entries .start t = A ++ (Entries.chars s ++ B)) :
  Span.touches ⟨(Entries.text A).length, (Entries.text A).length + s.length⟩ (dollarSpans .all t)
    = false
  := by
  rw [touches_eq_false_iff]
  intro d hd
  obtain ⟨m, hm, rfl⟩ := List.mem_map.mp hd
  obtain ⟨ps, qs, hpieces⟩ := List.append_of_mem (Reader.mem_findAll_iff.mp hm)
  obtain ⟨u, ht, hu⟩ := Reader.piecesFrom_eq_append hpieces
  obtain ⟨⟨n, hread⟩, -, -⟩ := Reader.piecesFrom_eq_found_cons hu.symm
  have hstart : m.start = (Entries.text (ps.map Piece.entry)).length := by
    rw [Entries.text_map_entry, hread.start_eq, Place.after_offset]
    apply Nat.zero_add
  have hlength :
      m.span.stop = (Entries.text (ps.map Piece.entry ++ [Piece.entry (.found m)])).length := by
    rw [Match.span, hstart]
    simp [Piece.entry]
  rw [Reader.entries, ← Reader.pieces, hpieces, List.map_append, List.map_cons,
    List.append_cons] at h
  rcases List.append_eq_append_iff.mp h with ⟨C, hA, -⟩ | ⟨C, hC, hB⟩
  · right
    rw [hA, Entries.text_append, List.length_append, ← hlength]
    apply Nat.le_add_right
  · rcases List.eq_nil_or_concat' C with rfl | ⟨C, e, rfl⟩
    · right
      rw [List.append_nil] at hC
      rw [← hC, ← hlength]
    · left
      rw [← List.append_assoc] at hC
      obtain ⟨hps, he⟩ := List.append_inj' hC rfl
      obtain rfl := (List.cons.inj he).1
      rw [Match.span, hstart, hps, Entries.text_append, List.length_append]
      apply Nat.add_le_add_left
      rw [List.append_assoc] at hB
      rcases List.append_eq_append_iff.mp hB with ⟨D, rfl, -⟩ | ⟨D, hD, hB⟩
      · simp
      · cases D with
        | nil =>
          rw [List.append_nil] at hD
          rw [← hD, Entries.text_chars]
        | cons e D =>
          obtain ⟨rfl, -⟩ := List.cons.inj hB
          have hnone := Entries.eq_none_of_mem_chars
            (hD ▸ List.mem_append_right C List.mem_cons_self)
          cases hnone

end Dollars

end DollarMath
