import DollarMath.Proofs.InlineItems
import DollarMath.Proofs.InlineLines
import DollarMath.Proofs.Unclosed

/-!
# Items in turn

Plain parentheses are converted before backslash parentheses.  So what is read in backslash
parentheses is read in a text where formulas have been written already.  If no dollar mathematics
opens a formula in backslash parentheses, and no such formula reaches over a dollar, then each of
them is an item of its gap.
-/

namespace DollarMath

open Entries

/-- Before a dollar and at the end of a text, it does not matter where the text stands. -/
theorem StartsWithDollar.entries_inline {z : Text} (hz : StartsWithDollar z) (p q : Place) :
  Delimiter.inline.reader.entries p z = Delimiter.inline.reader.entries q z
  := by
  cases z with
  | nil => rfl
  | cons c z =>
    obtain rfl := hz c rfl
    have hpass : ∀ p, Delimiter.inline.reader.Passes p ('$' :: z) :=
      fun p => Delimiter.passes_inline_of_ne (by decide)
    have hescaped : (p.next '$').escaped = (q.next '$').escaped := rfl
    rw [Reader.entries_of_passes (hpass p), Reader.entries_of_passes (hpass q),
      Delimiter.reads_inline.seesEscape.entries_congr hescaped]

/-- A text where no formula starts is made of characters. -/
theorem Delimiter.IsInert.entries_append {s : Text} (h : IsInert s) (p : Place) (t : Text) :
  inline.reader.entries p (s ++ t)
    = s.map (fun c => (none, [c])) ++ inline.reader.entries (p.after s) t
  := by
  apply Reader.entries_append_of_forall_passes
  intro u c v hs
  exact h _ u c v t hs

/-- What the entries of a text are converted to. -/
abbrev writeEntries (es : List (Option Enclosure × Text)) : Text :=
  (Replaced.ofEntries (fun e => inlineOf e.body) es).text

theorem writeEntries_append (as bs : List (Option Enclosure × Text)) :
  writeEntries (as ++ bs) = writeEntries as ++ writeEntries bs
  := List.flatMap_append

theorem writeEntries_chars (s : Text) :
  writeEntries (s.map fun c => (none, [c])) = s
  := by
  rw [writeEntries, Replaced.ofEntries, List.flatMap_map]
  apply List.flatMap_singleton'

namespace Paren

/-- What the conversion of plain parentheses writes for a match. -/
abbrev writePlain (m : Match Item) : Option Text :=
  m.value.formula?

section Gap

variable {g z : Text} (hz : StartsWithDollar z)

/-- What is written for a formula in plain parentheses opens no other one, and what is behind it is
no more escaped than behind the parentheses. -/
theorem isInert_of_plain {p : Place} {m : Match Item} {n : Nat} {w : Text}
    (hm : Reader.IsRead (read (pairs g)) p m n) (hmem : m ∈ (read (pairs g)).findAll g)
    (hvalue : m.value = .plain w) :
  Delimiter.IsInert w ∧ ∀ q : Place, (q.after w).escaped = (p.after m.source).escaped
  := by
  obtain ⟨body, primes, hform⟩ := form_of_formula hmem
    (show m.value.formula? = some w by rw [hvalue]; rfl)
  use hform.isInert_formula
  intro q
  rw [Place.escaped_after_eq_false _ hform.getLast?_formula_ne,
    Place.escaped_after_eq_false hm.source_ne_nil hform.getLast?_source_ne]
  rw [hform.eq_between]
  simp

include hz

/-- A text without dollars in front of what is written stood there before. -/
theorem isPrefix_of_written {p : Place} {w s : Text} (hs : '$' ∉ s)
    (hmem : ∀ m, .found m ∈ (read (pairs g)).piecesFrom 0 p w → m ∈ (read (pairs g)).findAll g)
    (h : s <+: (read (pairs g)).writtenFrom writePlain p w ++ z) :
  s <+: w
  := by
  have hnil : ∀ {u : Text}, StartsWithDollar u → ∀ {s : Text}, '$' ∉ s → s <+: u → s = [] := by
    rintro u hu s hs ⟨v, rfl⟩
    cases s with
    | nil => rfl
    | cons c s =>
      obtain rfl := hu c rfl
      exact absurd List.mem_cons_self hs
  revert s
  rw [Reader.writtenFrom]
  revert hmem
  apply (read (pairs g)).piecesFrom_induction fun p w ps =>
    (∀ m, .found m ∈ ps → m ∈ (read (pairs g)).findAll g) →
    ∀ {s : Text}, '$' ∉ s → s <+: ps.flatMap (Piece.written writePlain) ++ z → s <+: w
  · intro p _ s hs h
    rw [hnil hz hs h]
  · intro p c cs _ ih hmem s hs h
    cases s with
    | nil => exact List.nil_prefix
    | cons d s =>
      rw [List.mem_cons, not_or] at hs
      obtain ⟨rfl, h⟩ := List.cons_prefix_cons.mp h
      apply List.cons_prefix_cons.mpr
      exact ⟨rfl, ih (fun m hm => hmem m (List.mem_cons_of_mem _ hm)) hs.2 h⟩
  · intro p m n hm ih hmem s hs h
    rw [List.flatMap_cons, List.append_assoc, Piece.written] at h
    cases hvalue : m.value with
    | plain w =>
      obtain ⟨body, primes, hform⟩ := form_of_formula (hmem m List.mem_cons_self)
        (show m.value.formula? = some w by rw [hvalue]; rfl)
      rw [writePlain, hvalue, Item.formula?, Option.getD_some] at h
      rw [hnil _ hs h]
      · exact List.nil_prefix
      · rw [hform.eq_between]
        intro c hc
        exact (Option.some.inj hc).symm
    | backslash e =>
      rw [writePlain, hvalue, Item.formula?, Option.getD_none] at h
      obtain ⟨v, hv⟩ := h
      rcases List.append_eq_append_iff.mp hv with ⟨a, ha, -⟩ | ⟨a, rfl, ha⟩
      · rw [ha, List.append_assoc]
        exact List.prefix_append s _
      · rw [List.mem_append, not_or] at hs
        apply (List.prefix_append_right_inj m.source).mpr
        apply ih (fun m hm => hmem m (List.mem_cons_of_mem _ hm)) hs.2
        exact ⟨v, ha.symm⟩

/-- Where no item is read, no formula in backslash parentheses is read in what is written, if none
reaches over a dollar. -/
theorem passes_written {p q : Place} {c : Char} {cs : Text}
    (hpass : (read (pairs g)).Passes p (c :: cs))
    (hmem : ∀ m, .found m ∈ .char c :: (read (pairs g)).piecesFrom 0 (p.next c) cs →
      m ∈ (read (pairs g)).findAll g)
    (hq : q.escaped = p.escaped)
    (hread : ∀ e ∈ Delimiter.inlines q
      (c :: ((read (pairs g)).writtenFrom writePlain (p.next c) cs ++ z)), '$' ∉ e.body) :
  Delimiter.inline.reader.Passes q
    (c :: ((read (pairs g)).writtenFrom writePlain (p.next c) cs ++ z))
  := by
  rw [Delimiter.reads_inline.passes_iff]
  intro e he hne hfront
  obtain ⟨v, hv⟩ := id hfront
  have hbody : '$' ∉ e.body := by
    apply hread e
    rw [← hv, Delimiter.inlines, (Delimiter.reads_inline.isRead he hne v).values_eq]
    exact List.mem_cons_self
  have hsource : e.source <+: c :: cs := by
    apply isPrefix_of_written (g := g) hz (p := p)
    · rw [he.source_eq]
      simpa using hbody
    · rwa [Reader.piecesFrom_of_passes hpass]
    · rwa [Reader.writtenFrom_of_passes _ hpass]
  have hlength := List.length_pos_iff.mpr hne
  apply hpass (.backslash e) (e.source.length - 1)
  rw [read_eq_backslash_iff, Delimiter.reads_inline]
  exact ⟨hq ▸ he, by omega, hsource⟩

/-- In a gap whose plain parentheses are converted, the formulas in backslash parentheses are
items, if none reaches over a dollar. -/
theorem exists_entries_of_gap (hdollar : '$' ∉ g) {q : Place} (hq : q.escaped = false)
    (hread : ∀ e ∈ Delimiter.inlines q ((convertParens g).text ++ z), '$' ∉ e.body) :
  ∃ as, Delimiter.inline.reader.entries q ((convertParens g).text ++ z)
      = as ++ Delimiter.inline.reader.entries .start z
    ∧ writeEntries as = writeItems g
  := by
  suffices ∀ p w, '$' ∉ w →
      (∀ m, .found m ∈ (read (pairs g)).piecesFrom 0 p w → m ∈ (read (pairs g)).findAll g) →
      ∀ q, q.escaped = p.escaped →
      (∀ e ∈ Delimiter.inlines q ((read (pairs g)).writtenFrom writePlain p w ++ z),
        '$' ∉ e.body) →
      ∃ as, Delimiter.inline.reader.entries q ((read (pairs g)).writtenFrom writePlain p w ++ z)
          = as ++ Delimiter.inline.reader.entries .start z
        ∧ writeEntries as = (read (pairs g)).writtenFrom writeItem p w by
    have hparens : (convertParens g).text
        = (read (pairs g)).writtenFrom writePlain .start g := Reader.text_replace _ _ g
    rw [hparens] at hread ⊢
    rw [writeItems, Reader.text_replace]
    exact this .start g hdollar (fun m => Reader.mem_findAll_iff.mpr) q hq hread
  intro p w
  apply (read (pairs g)).piecesFrom_induction fun p w ps => '$' ∉ w →
    (∀ m, .found m ∈ ps → m ∈ (read (pairs g)).findAll g) →
    ∀ q, q.escaped = p.escaped →
    (∀ e ∈ Delimiter.inlines q (ps.flatMap (Piece.written writePlain) ++ z), '$' ∉ e.body) →
    ∃ as, Delimiter.inline.reader.entries q (ps.flatMap (Piece.written writePlain) ++ z)
        = as ++ Delimiter.inline.reader.entries .start z
      ∧ writeEntries as = ps.flatMap (Piece.written writeItem)
  · intro p _ _ q _ _
    exact ⟨[], hz.entries_inline q .start, rfl⟩
  · intro p c cs hpass ih hdollar hmem q hq hread
    rw [List.mem_cons, not_or] at hdollar
    have hinline := passes_written hz hpass hmem hq hread
    change ∀ e ∈ Delimiter.inline.reader.values q
      (c :: ((read (pairs g)).writtenFrom writePlain (p.next c) cs ++ z)), '$' ∉ e.body at hread
    rw [Reader.values_of_passes hinline] at hread
    obtain ⟨as, has, hwritten⟩ := ih hdollar.2 (fun m hm => hmem m (List.mem_cons_of_mem _ hm))
      (q.next c) rfl hread
    refine ⟨(none, [c]) :: as, ?_, ?_⟩
    · apply (Reader.entries_of_passes hinline).trans
      exact congrArg (List.cons _) has
    · rw [List.flatMap_cons, ← hwritten]
      rfl
  · intro p m n hm ih hdollar hmem q hq hread
    rw [List.mem_append, not_or] at hdollar
    rw [List.flatMap_cons, List.append_assoc] at hread ⊢
    rw [List.flatMap_cons]
    have hmem' := fun m' hm' => hmem m' (List.mem_cons_of_mem _ hm')
    cases hvalue : m.value with
    | plain w =>
      obtain ⟨hinert, hescaped⟩ := isInert_of_plain hm (hmem m List.mem_cons_self) hvalue
      have hwritten : Piece.written writePlain (.found m) = w := by
        rw [Piece.written, writePlain, hvalue]
        rfl
      rw [hwritten, hinert.inlines_append] at hread
      obtain ⟨as, has, htext⟩ := ih hdollar.2 hmem' (q.after w) (hescaped q) hread
      refine ⟨w.map (fun c => (none, [c])) ++ as, ?_, ?_⟩
      · rw [hwritten, hinert.entries_append, has, List.append_assoc]
      · rw [writeEntries_append, writeEntries_chars, htext, Piece.written, writeItem, hvalue]
        rfl
    | backslash e =>
      obtain ⟨hallowed, hsource⟩ := isInline_of_backslash hm hvalue hq
      have hwritten : Piece.written writePlain (.found m) = e.source := by
        rw [Piece.written, writePlain, hvalue, ← hsource]
        rfl
      rw [hwritten] at hread ⊢
      have hfound := Delimiter.reads_inline.isRead hallowed (hsource ▸ hm.source_ne_nil)
      rw [Delimiter.inlines, (hfound _).values_eq, List.forall_mem_cons] at hread
      obtain ⟨as, has, htext⟩ := ih hdollar.2 hmem' (q.after e.source)
        (by rw [hsource]; exact Place.escaped_after_congr hq _) hread.2
      refine ⟨(some e, e.source) :: as, ?_, ?_⟩
      · rw [(hfound _).entries_eq, has]
        rfl
      · rw [Piece.written, writeItem, hvalue, ← htext]
        rfl

end Gap

end Paren

/-- The two conversions together write all items, if no formula in backslash parentheses starts
within dollar mathematics or reaches over a dollar. -/
theorem text_convertAllInlines_of_areRead {es : Entries} (h : AreRead none none es)
    (hmath : ∀ k ∈ cut es, k.isMath = true → ¬ ['\\', '('] <:+: k.text)
    (hread : ∀ m ∈ Delimiter.inline.reader.findAll (convertParens.between .all (text es)).text,
      '$' ∉ m.value.body) :
  (convertAllInlines (text es)).text = (cut es).flatMap Chunk.writtenItems
  := by
  suffices (StartWithMath es → StartsWithDollar ((cut es).flatMap Chunk.written))
      ∧ ∀ q, StartWithMath es ∨ q.escaped = false →
        (∀ e ∈ Delimiter.inlines q ((cut es).flatMap Chunk.written), '$' ∉ e.body) →
        writeEntries (Delimiter.inline.reader.entries q ((cut es).flatMap Chunk.written))
          = (cut es).flatMap Chunk.writtenItems by
    have hparens :
        (convertParens.between .all (text es)).text = (cut es).flatMap Chunk.written := by
      rw [Conversion.text_between, h.chunks_eq]
      rfl
    change (convertInlines (convertParens.between .all (text es)).text).text = _
    rw [hparens] at hread ⊢
    rw [convertInlines_eq_ofEntries]
    apply this.2 .start (.inr rfl)
    rw [Delimiter.inlines, Reader.values_start]
    exact List.forall_mem_map.mpr hread
  apply h.gaps_induction (P := fun es =>
    (∀ k ∈ cut es, k.isMath = true → ¬ ['\\', '('] <:+: k.text) →
    (StartWithMath es → StartsWithDollar ((cut es).flatMap Chunk.written))
      ∧ ∀ q, StartWithMath es ∨ q.escaped = false →
        (∀ e ∈ Delimiter.inlines q ((cut es).flatMap Chunk.written), '$' ∉ e.body) →
        writeEntries (Delimiter.inline.reader.entries q ((cut es).flatMap Chunk.written))
          = (cut es).flatMap Chunk.writtenItems) _ _ _ hmath
  · exact fun _ => ⟨fun _ => by simp [StartsWithDollar, cut], fun q _ _ => rfl⟩
  · intro d es ih hmath
    obtain ⟨hd, hmath⟩ := List.forall_mem_cons.mp hmath
    obtain ⟨-, ih⟩ := ih hmath
    have hinert : Delimiter.IsInert d.source := by
      apply Delimiter.isInert_of_separates (separates_iff.mpr (hd rfl))
      rw [d.getLast?_source]
      decide
    have hwritten : (cut ((some d, d.source) :: es)).flatMap Chunk.written
        = d.source ++ (cut es).flatMap Chunk.written := rfl
    rw [hwritten]
    constructor
    · intro _ c hc
      rw [d.head?_source] at hc
      exact (Option.some.inj hc).symm
    · intro q _ hread
      rw [hinert.inlines_append] at hread
      rw [hinert.entries_append, writeEntries_append, writeEntries_chars, ih _ (.inr _) hread]
      · rfl
      · rw [Place.escaped_after_eq_false d.source_ne_nil]
        rw [d.getLast?_source]
        decide
  · intro g es hne hdollar hes _ ih hmath
    rw [cut_chars_append hne hes] at hmath ⊢
    obtain ⟨hstart, ih⟩ := ih fun k hk => hmath k (List.mem_cons_of_mem _ hk)
    have hwritten : (⟨false, g⟩ :: cut es).flatMap Chunk.written
        = (convertParens g).text ++ (cut es).flatMap Chunk.written := rfl
    rw [hwritten]
    constructor
    · intro hmath
      obtain ⟨c, g, rfl⟩ := List.exists_cons_of_ne_nil hne
      cases hmath _ rfl
    · intro q hq hread
      have hq : q.escaped = false := by
        apply hq.resolve_left
        intro hmath
        obtain ⟨c, g, rfl⟩ := List.exists_cons_of_ne_nil hne
        cases hmath _ rfl
      obtain ⟨as, has, hitems⟩ := Paren.exists_entries_of_gap (hstart hes) hdollar hq hread
      rw [Delimiter.inlines, Reader.values, has, List.filterMap_append, List.forall_mem_append]
        at hread
      rw [has, writeEntries_append, hitems, ih .start (.inl hes) hread.2]
      rfl

end DollarMath
