import DollarMath.Proofs.Gaps
import DollarMath.Proofs.Recognised
import DollarMath.Proofs.Standing

/-!
# Inline formulas of either kind

A gap is read once for formulas in plain parentheses and in backslash parentheses.  The conversions
take them one kind after the other.  If no formula in backslash parentheses holds a dollar when its
turn comes, both conversions together write a formula between single dollars for every item of the
gap, and keep all other characters.
-/

namespace DollarMath

open Entries

/-! ### Blank characters and digits -/

/-- A character of a table stands in one of its ranges. -/
theorem CodeRanges.exists_of_has {rs : CodeRanges} {c : Char} (h : rs.has c = true) :
  ∃ r ∈ rs, r.1 ≤ c.toNat ∧ c.toNat ≤ r.2
  := by
  induction rs with
  | nil => cases h
  | cons r rs ih =>
    rw [has, Bool.and_eq_true, Bool.or_eq_true, decide_eq_true_eq, decide_eq_true_eq] at h
    rcases h.2 with hle | hrs
    · exact ⟨r, List.mem_cons_self, h.1, hle⟩
    · obtain ⟨s, hs, hc⟩ := ih hrs
      exact ⟨s, List.mem_cons_of_mem r hs, hc⟩

/-- Tables of ranges that stand apart share no character. -/
theorem CodeRanges.has_eq_false {rs ss : CodeRanges}
    (hapart : rs.all fun r => ss.all fun s => r.2 < s.1 || s.2 < r.1) {c : Char}
    (h : rs.has c = true) :
  ss.has c = false
  := by
  rw [Bool.eq_false_iff]
  intro hs
  obtain ⟨r, hr, hle, hge⟩ := exists_of_has h
  obtain ⟨s, hs, hle', hge'⟩ := exists_of_has hs
  have hrs := List.all_eq_true.mp (List.all_eq_true.mp hapart r hr) s hs
  rw [Bool.or_eq_true, decide_eq_true_eq, decide_eq_true_eq] at hrs
  omega

/-- A blank character is no digit. -/
theorem isDigit_of_isBlank {c : Char} (h : isBlank c = true) :
  isDigit c = false
  := CodeRanges.has_eq_false (by decide) h

/-- No digit and no opening parenthesis stands where a formula may close. -/
theorem Paren.isDigit_of_mayClose {rest : Text} (h : mayClose rest = true) :
  ∀ c ∈ rest.head?, isDigit c = false ∧ c ≠ '('
  := by
  intro c hc
  refine ⟨?_, (ne_of_mayClose h hc).2⟩
  rw [mayClose, Option.mem_def.mp hc, Option.all_some, Bool.or_eq_true, decide_eq_true_eq] at h
  rcases h with hblank | hmem
  · exact isDigit_of_isBlank hblank
  · have hmarks : [')', '.', ',', ';', ':', '?', '!'].all (fun c => !isDigit c) = true := by decide
    simpa using List.all_eq_true.mp hmarks c hmem

/-! ### Items -/

namespace Paren

/-- What is written for an item. -/
def Item.written : Item → Text
  | backslash e => inlineOf e.body
  | plain formula => formula

/-- What the two conversions write for a match. -/
abbrev writeItem (m : Match Item) : Option Text :=
  some m.value.written

/-- A gap with both kinds of formulas written. -/
def writeItems (g : Text) : Text :=
  ((read (pairs g)).replace writeItem g).text

end Paren

/-- What the two conversions write for a chunk. -/
def Chunk.writtenItems (k : Chunk) : Text :=
  if k.isMath then k.text else Paren.writeItems k.text

/-! ### What is kept and written -/

/-- What starts with `y` may be kept behind `x`: if it starts within a gap, no item is read
there. -/
def KeepsGap (x y : Text) : Prop :=
  ∀ x' u v y', x = x' ++ u → y = v ++ y' → EndsWithDollar x' → StartsWithDollar y' → '$' ∉ u →
    '$' ∉ v → v ≠ [] →
      (Paren.read (Paren.pairs (u ++ v))).Passes (Place.start.after u) v

/-- Between `x` and `y` an item `s` may be written as the inline formula `d`. -/
structure WritesItem (x s marker : Text) (d : Dollars) (y : Text) : Prop where
  /-- There is no marker. -/
  marker : marker = []
  /-- An inline formula is written. -/
  isInline : ∃ body, d = .inline body ∧ Dollars.isInlineBody .start body = true ∧ '$' ∉ body
  /-- No parenthesis closes before the item, and no backslash stands there. -/
  before : ∀ c ∈ x.getLast?, c ≠ '\\' ∧ c ≠ ')' ∧ c ≠ '\x27'
  /-- No parenthesis opens behind the item, and no digit stands there. -/
  behind : ∀ c ∈ y.head?, isDigit c = false ∧ c ≠ '('
  /-- An item that starts with a parenthesis stands behind no bracket. -/
  link : x.getLast? = some ']' → s.head? ≠ some '(' ∧ s.head? ≠ some ':'
  /-- The item is not empty. -/
  source_ne_nil : s ≠ []
  /-- No closing bracket comes up. -/
  closing : ']' ∈ d.source → ']' ∈ s
  /-- An open bracket stays open. -/
  isClosed : IsClosed d.source → IsClosed s

/-- What the conversion of inline formulas keeps and writes. -/
def itemRules : Rules where
  Keeps := KeepsGap
  Writes := WritesItem

theorem itemRules_writesInlines :
  itemRules.WritesInlines
  where
  isInline h := ⟨h.marker, h.isInline⟩
  before h hlast := (h.before '\\' hlast).1 rfl
  behind h c hc := (h.behind c hc).1

/-- What is kept at a place of a gap. -/
theorem keepsGap_of_passes {x u w z : Text} (hx : EndsWithDollar x) (hz : StartsWithDollar z)
    (hdollar : '$' ∉ u ++ w)
    (hpass : (Paren.read (Paren.pairs (u ++ w))).Passes (Place.start.after u) w) :
  KeepsGap (x ++ u) (w ++ z)
  := by
  intro x' u' v y hxu hwz hx' hy hu' hv _
  rw [List.mem_append, not_or] at hdollar
  obtain ⟨-, rfl⟩ := hx.append_inj hx' hdollar.1 hu' hxu
  obtain ⟨rfl, -⟩ := hz.append_inj hy hdollar.2 hv hwz
  exact hpass

/-- Dollar mathematics is kept. -/
theorem keepsGap_of_math (x : Text) (d : Dollars) (z : Text) :
  KeepsGap x (d.source ++ z)
  := by
  intro x' u v y _ hv _ _ _ hdollar hne
  have hhead := d.head?_source z
  rw [hv, List.head?_append_of_ne_nil _ hne] at hhead
  exact absurd (List.mem_of_mem_head? hhead) hdollar

/-- Brackets of a body that is trimmed, with texts without brackets around it. -/
theorem isClosed_of_trim {a b a' b' body : Text} (ha : '[' ∉ a ++ b) (hb : ']' ∉ b)
    (hb' : '[' ∉ b' ∧ ']' ∉ b') (h : IsClosed (a' ++ (trim body ++ b'))) :
  IsClosed (a ++ (body ++ b))
  := by
  rw [List.mem_append, not_or] at ha
  have hbody : IsClosed body := by
    obtain ⟨x, y, hx, hy, hbody⟩ := exists_eq_append_trim body
    have hblank : ∀ {w : Text} {c : Char}, IsBlankText w → isBlank c = false → c ∉ w := by
      intro w c hw hc hmem
      rw [hw c hmem] at hc
      cases hc
    have htrim : IsClosed (trim body) :=
      (isClosed_append_iff hb'.1 hb'.2).mp (h.suffix (List.suffix_append a' _))
    rw [hbody, ← List.append_assoc]
    apply (isClosed_append_iff (hblank hy (by decide)) (hblank hy (by decide))).mpr
    apply isClosed_append_iff_or.mpr
    refine ⟨htrim, .inr ?_⟩
    intro s t hst
    exact absurd (hst ▸ List.mem_append_right s List.mem_cons_self) (hblank hx (by decide))
  apply isClosed_append_iff_or.mpr
  refine ⟨(isClosed_append_iff ha.2 hb).mpr hbody, .inr ?_⟩
  intro s t hst
  exact absurd (hst ▸ List.mem_append_right s List.mem_cons_self) ha.1

/-! ### Items of a gap -/

/-- The items of a gap may be written, and are read where they stand: they are bodies of inline
formulas, and what stands beside the formulas in backslash parentheses keeps other parentheses from
standing free. -/
@[mk_iff]
structure ItemsStandApart (g : Text) : Prop where
  /-- The formulas in plain parentheses. -/
  plain : ∀ m ∈ (Paren.read (Paren.pairs g)).findAll g, ∀ w ∈ m.value.formula?,
    Dollars.isInlineBody .start (Paren.inside w) = true
  /-- The formulas in backslash parentheses. -/
  backslash : ∀ m ∈ Delimiter.inline.reader.findAll g,
    Dollars.isInlineBody .start (trim m.value.body) = true
  /-- No closing parenthesis and no prime stands before a formula in backslash parentheses. -/
  before : ∀ m ∈ Delimiter.inline.reader.findAll g, ∀ c ∈ (g.take m.start).getLast?,
    c ≠ ')' ∧ c ≠ '\x27'
  /-- No opening parenthesis and no digit stands behind a formula in backslash parentheses. -/
  behind : ∀ m ∈ Delimiter.inline.reader.findAll g, ∀ c ∈ m.rest.head?,
    isDigit c = false ∧ c ≠ '('

instance (g : Text) : Decidable (ItemsStandApart g) :=
  haveI {o : Option Char} {P : Char → Prop} [DecidablePred P] : Decidable (∀ c ∈ o, P c) :=
    Option.decidableForallMem o
  decidable_of_iff _ (itemsStandApart_iff g).symm

/-- An item in backslash parentheses is a formula in them at any place that is escaped alike. -/
theorem Paren.isInline_of_backslash {g : Text} {p q : Place} {m : Match Item} {n : Nat}
    {e : Enclosure} (hm : Reader.IsRead (read (pairs g)) p m n) (hvalue : m.value = .backslash e)
    (hq : q.escaped = p.escaped) :
  Delimiter.IsInline q.escaped e ∧ m.source = e.source
  := by
  have hread := hm.read
  rw [hvalue, read_eq_backslash_iff] at hread
  obtain ⟨hallowed, hsource⟩ := Delimiter.reads_inline.of_read
    (m := ⟨m.start, m.source, e, m.rest⟩) hread hm.source_eq
  exact ⟨hq ▸ hallowed, hsource⟩

/-- A dollar behind a text is no digit and no opening parenthesis. -/
theorem StartsWithDollar.forall_head?_append {r z : Text} (hz : StartsWithDollar z)
    (hr : ∀ c ∈ r.head?, isDigit c = false ∧ c ≠ '(') :
  ∀ c ∈ (r ++ z).head?, isDigit c = false ∧ c ≠ '('
  := by
  intro c hc
  cases r with
  | nil =>
    rw [hz c hc]
    decide
  | cons d r => exact hr c hc

section Gap

variable {g x u z : Text} {m : Match Paren.Item} {n : Nat} (hg : ItemsStandApart g)
  (hdollar : '$' ∉ g) (hx : EndsWithDollar x) (hz : StartsWithDollar z)
  (hcut : g = u ++ (m.source ++ m.rest))
  (hm : Reader.IsRead (Paren.read (Paren.pairs g)) (Place.start.after u) m n)
  (hmem : m ∈ (Paren.read (Paren.pairs g)).findAll g)
include hg hdollar hx hz hcut hm hmem

/-- A formula in plain parentheses may be written. -/
theorem writesItem_plain {w : Text} (hvalue : m.value = .plain w) :
  WritesItem (x ++ u) m.source [] (.inline (Paren.inside w)) (m.rest ++ z)
  := by
  obtain ⟨body, primes, hform⟩ := Paren.form_of_formula hmem (by rw [hvalue]; rfl)
  obtain ⟨a, b, hw, -, -, ha, hb⟩ := hform.exists_around
  have hsource : '$' ∉ m.source := by
    rw [hcut] at hdollar
    simp only [List.mem_append, not_or] at hdollar
    exact hdollar.2.1
  obtain ⟨hopen, hclose⟩ := Paren.neighbours_of_read (hvalue ▸ hm.read)
  rw [← hm.rest_eq] at hclose
  have hlast : ∀ c ∈ (x ++ u).getLast?, c = '$' ∨ isBlank c = true ∨ c = '(' := by
    intro c hc
    rcases List.eq_nil_or_concat' u with rfl | ⟨u, d, rfl⟩
    · rw [List.append_nil] at hc
      exact .inl (hx c hc)
    · rw [← List.append_assoc, List.getLast?_concat] at hc
      obtain rfl := Option.some.inj hc
      rw [Paren.mayOpen, Place.before_after_concat] at hopen
      right
      simpa using hopen
  have hne : ∀ {c d : Char}, (c = '$' ∨ isBlank c = true ∨ c = '(') → isBlank d = false → d ≠ '$' →
      d ≠ '(' → c ≠ d := by
    rintro c d (rfl | hblank | rfl) hd hdollar hparen rfl
    · exact hdollar rfl
    · rw [hblank] at hd
      cases hd
    · exact hparen rfl
  have hformula : (Dollars.inline (Paren.inside w)).source = w := hform.eq_between.symm
  have hinside := hg.plain m hmem w (by rw [hvalue]; rfl)
  constructor
  · rfl
  · exact ⟨_, rfl, hinside, hform.dollar_not_mem_inside hsource⟩
  · intro c hc
    have hc := hlast c hc
    exact ⟨hne hc (by decide) (by decide) (by decide), hne hc (by decide) (by decide) (by decide),
      hne hc (by decide) (by decide) (by decide)⟩
  · exact hz.forall_head?_append (Paren.isDigit_of_mayClose hclose)
  · intro hc
    exact absurd rfl (hne (hlast ']' hc) (d := ']') (by decide) (by decide) (by decide))
  · exact hm.source_ne_nil
  · rw [hformula, hw, hform.source_eq]
    intro hclosing
    rcases List.mem_append.mp hclosing with hmem | hmem
    · exact absurd (ha _ hmem) (by decide)
    · rcases List.mem_append.mp hmem with hmem | hmem
      · simp [mem_of_mem_trim hmem]
      · exact absurd (hb _ hmem) (by decide)
  · rw [hformula, hw, hform.source_eq]
    apply isClosed_of_trim
    · simp [hform.not_mem_primes (show '[' ≠ '\x27' by decide)]
    · simp [hform.not_mem_primes (show ']' ≠ '\x27' by decide)]
    · exact ⟨fun hmem => absurd (hb _ hmem) (by decide), fun hmem => absurd (hb _ hmem) (by decide)⟩

/-- A formula in backslash parentheses may be written. -/
theorem writesItem_backslash {e : Enclosure} (hvalue : m.value = .backslash e) :
  WritesItem (x ++ u) m.source [] (.inline (trim e.body)) (m.rest ++ z)
  := by
  have hfound : ⟨m.start, m.source, e, m.rest⟩ ∈ Delimiter.inline.reader.findAll g :=
    Paren.mem_findAll_inline_iff.mpr ⟨m, hmem, e, hvalue, rfl⟩
  obtain ⟨hallowed, hsource⟩ := Paren.isInline_of_backslash hm hvalue rfl
  have hstart : g.take m.start = u := by
    rw [hm.start_eq, Place.after_offset, hcut]
    exact (congrArg (List.take · _) (Nat.zero_add _)).trans List.take_left
  have hbody : '$' ∉ trim e.body := by
    intro hbody
    apply hdollar
    rw [hcut, hsource, hallowed.source_eq]
    simp [mem_of_mem_trim hbody]
  constructor
  · rfl
  · exact ⟨_, rfl, hg.backslash _ hfound, hbody⟩
  · intro c hc
    rcases List.eq_nil_or_concat' u with rfl | ⟨u, d, rfl⟩
    · rw [List.append_nil] at hc
      rw [hx c hc]
      decide
    · rw [← List.append_assoc, List.getLast?_concat] at hc
      obtain rfl := Option.some.inj hc
      refine ⟨?_, hg.before _ hfound d ?_⟩
      · have hescaped := hallowed.1
        rw [Place.escaped_after_concat] at hescaped
        simpa using hescaped
      · rw [hstart, List.getLast?_concat]
        rfl
  · exact hz.forall_head?_append (hg.behind _ hfound)
  · intro _
    rw [hsource, ← List.append_nil e.source, hallowed.head?_source]
    decide
  · exact hm.source_ne_nil
  · rw [hsource, hallowed.source_eq, Dollars.source]
    intro hclosing
    simp only [List.mem_append, List.mem_singleton] at hclosing
    rcases hclosing with (hmem | hmem) | hmem
    · cases hmem
    · simp [mem_of_mem_trim hmem]
    · cases hmem
  · rw [hsource, hallowed.source_eq, Dollars.source, List.append_assoc]
    apply isClosed_of_trim
    · decide
    · decide
    · decide

end Gap

/-- The items of a gap are written, and all other characters are kept. -/
theorem Rewrites.exists_of_gap {g x z : Text} (hg : ItemsStandApart g) (hdollar : '$' ∉ g)
    (hx : EndsWithDollar x) (hz : StartsWithDollar z) :
  ∃ es, text es = Paren.writeItems g ∧ Rewrites itemRules z x (chars g) es
  := by
  suffices ∀ p w u, g = u ++ w → p = Place.start.after u →
      (∀ m, .found m ∈ (Paren.read (Paren.pairs g)).piecesFrom 0 p w →
        m ∈ (Paren.read (Paren.pairs g)).findAll g) →
      ∃ es, text es = (Paren.read (Paren.pairs g)).writtenFrom Paren.writeItem p w
        ∧ Rewrites itemRules z (x ++ u) (chars w) es by
    obtain ⟨es, htext, hes⟩ := this .start g [] rfl rfl fun m => Reader.mem_findAll_iff.mpr
    refine ⟨es, ?_, ?_⟩
    · rw [htext, Paren.writeItems, Reader.text_replace]
      rfl
    · rwa [List.append_nil] at hes
  intro p w
  apply (Paren.read (Paren.pairs g)).piecesFrom_induction fun p w ps => ∀ u, g = u ++ w →
    p = Place.start.after u →
    (∀ m, .found m ∈ ps → m ∈ (Paren.read (Paren.pairs g)).findAll g) →
    ∃ es, text es = ps.flatMap (Piece.written Paren.writeItem)
      ∧ Rewrites itemRules z (x ++ u) (chars w) es
  · intro p u _ _ _
    exact ⟨[], rfl, .nil _⟩
  · rintro p c cs hpass ih u hcut rfl hmem
    obtain ⟨es, htext, hes⟩ := ih (u ++ [c]) (by rw [hcut, List.append_assoc]; rfl)
      (Place.after_concat _ u c).symm fun m hm => hmem m (List.mem_cons_of_mem _ hm)
    refine ⟨(none, [c]) :: es, ?_, ?_⟩
    · rw [text_cons, htext]
      rfl
    · apply Rewrites.keep
      · change KeepsGap (x ++ u) ([c] ++ (text (chars cs) ++ z))
        rw [text_chars]
        apply keepsGap_of_passes (w := c :: cs) hx hz (hcut ▸ hdollar)
        rwa [hcut] at hpass
      · rwa [List.append_assoc]
  · rintro p m n hm ih u hcut rfl hmem
    obtain ⟨es, htext, hes⟩ := ih (u ++ m.source) (by rw [hcut, List.append_assoc])
      (Place.after_append _ u _).symm fun m hm => hmem m (List.mem_cons_of_mem _ hm)
    have hfound := hmem m List.mem_cons_self
    have hwrite : ∃ d, WritesItem (x ++ u) m.source [] d (m.rest ++ z)
        ∧ d.source = m.value.written := by
      cases hvalue : m.value with
      | backslash e =>
        exact ⟨_, writesItem_backslash hg hdollar hx hz hcut hm hfound hvalue, rfl⟩
      | plain w =>
        obtain ⟨body, primes, hform⟩ := Paren.form_of_formula hfound (by rw [hvalue]; rfl)
        exact ⟨_, writesItem_plain hg hdollar hx hz hcut hm hfound hvalue, hform.eq_between.symm⟩
    obtain ⟨d, hwrite, hsource⟩ := hwrite
    refine ⟨chars [] ++ (some d, d.source) :: es, ?_, ?_⟩
    · rw [text_append, text_chars, text_cons, htext, hsource]
      rfl
    · rw [chars_append]
      apply Rewrites.write
      · rwa [text_chars]
      · rwa [List.append_assoc]

/-- The items of all gaps are written, and the dollar mathematics between them is kept. -/
theorem Rewrites.exists_of_gaps {es : Entries} (h : AreRead none none es)
    (hgaps : ∀ k ∈ cut es, k.isMath = false → ItemsStandApart k.text) :
  ∃ es', text es' = (cut es).flatMap Chunk.writtenItems
    ∧ Rewrites itemRules [] [] es es'
  := by
  apply h.gaps_induction (P := fun es => ∀ x, StartWithMath es ∨ EndsWithDollar x →
    (∀ k ∈ cut es, k.isMath = false → ItemsStandApart k.text) →
    ∃ es', text es' = (cut es).flatMap Chunk.writtenItems
      ∧ Rewrites itemRules [] x es es') _ _ _ [] (.inr (by simp [EndsWithDollar])) hgaps
  · exact fun x _ _ => ⟨[], rfl, .nil x⟩
  · intro d es ih x _ hgaps
    obtain ⟨es', htext, hes'⟩ := ih (x ++ d.source) (.inr (by
      intro c hc
      rw [List.getLast?_append_of_ne_nil _ d.source_ne_nil, d.getLast?_source] at hc
      exact (Option.some.inj hc).symm)) fun k hk => hgaps k (List.mem_cons_of_mem _ hk)
    refine ⟨(some d, d.source) :: es', ?_, .keep (keepsGap_of_math x d _) hes'⟩
    rw [text_cons, htext]
    rfl
  · intro g es hne hdollar hes hfirst ih x hx hgaps
    rw [cut_chars_append hne hes] at hgaps ⊢
    obtain ⟨hg, hgaps⟩ := List.forall_mem_cons.mp hgaps
    have hx : EndsWithDollar x := by
      apply hx.resolve_left
      intro hstart
      obtain ⟨c, g, rfl⟩ := List.exists_cons_of_ne_nil hne
      cases hstart _ rfl
    obtain ⟨gs, hgs, hwritten⟩ := Rewrites.exists_of_gap (z := text es ++ []) (hg rfl) hdollar hx
      (by rwa [List.append_nil])
    obtain ⟨es', htext, hes'⟩ := ih (x ++ g) (.inl hes) hgaps
    refine ⟨gs ++ es', ?_, hwritten.append (by rwa [text_chars])⟩
    rw [text_append, hgs, htext]
    rfl

end DollarMath
