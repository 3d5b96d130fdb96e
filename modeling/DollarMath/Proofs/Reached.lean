import DollarMath.Proofs.Edits
import DollarMath.Proofs.Unclosed

/-!
# Parentheses that are reached

A text is read once from left to right for formulas in parentheses of either kind.  What is
found can be told without the run: the formulas in backslash parentheses are those of the text
by itself, and a parenthesis that is a formula where it stands is rewritten, unless it opens
within one of these or within another parenthesis that is rewritten.
-/

namespace DollarMath

namespace Paren

/-- The formula in backslash parentheses that an item is, if it is one. -/
def Item.backslash? : Item → Option Enclosure
  | backslash e => some e
  | plain _ => none

/-- An item with backslashes. -/
theorem Item.eq_backslash {a : Item} {e : Enclosure} (h : a.backslash? = some e) :
  a = .backslash e
  := by
  cases a with
  | backslash e' =>
    obtain rfl := Option.some.inj h
    rfl
  | plain w => cases h

/-- An item with a formula. -/
theorem Item.eq_plain {a : Item} {w : Text} (h : a.formula? = some w) :
  a = .plain w
  := by
  cases a with
  | backslash e => cases h
  | plain w' =>
    obtain rfl := Option.some.inj h
    rfl

variable {t : Text}

/-! ### Formulas in backslash parentheses -/

/-- The formulas in backslash parentheses are found where the scanner of parentheses finds them. -/
theorem pieces_inline (t : Text) :
  Delimiter.inline.reader.pieces t
    = ((read (pairs t)).pieces t).flatMap (Piece.cutUp Item.backslash?)
  := by
  apply Reader.piecesFrom_eq_flatMap
  · intro p c u _ hpass e k hread
    exact hpass (.backslash e) k (read_eq_backslash_iff.mpr hread)
  · intro p m n e _ hread he
    have hm := hread.read
    rw [Item.eq_backslash he] at hm
    exact read_eq_backslash_iff.mp hm
  · intro p m n hm _ hplain u c v hsource
    cases hvalue : m.value with
    | backslash e =>
      rw [hvalue] at hplain
      cases hplain
    | plain w =>
      obtain ⟨body, primes, hform⟩ :=
        form_of_formula (Reader.mem_findAll_iff.mpr hm) (by rw [hvalue]; rfl)
      exact hform.isInert_source _ u c v m.rest hsource

/-- The formulas in backslash parentheses are found as if there were no plain ones. -/
theorem mem_findAll_inline_iff {m : Match Enclosure} :
  m ∈ Delimiter.inline.reader.findAll t
    ↔ ∃ m' ∈ (read (pairs t)).findAll t, ∃ e, m'.value = .backslash e
        ∧ m = ⟨m'.start, m'.source, e, m'.rest⟩
  := by
  rw [Reader.mem_findAll_iff_of_cutUp (pieces_inline t)]
  constructor
  · rintro ⟨m', hm', e, he, rfl⟩
    exact ⟨m', hm', e, Item.eq_backslash he, rfl⟩
  · rintro ⟨m', hm', e, he, rfl⟩
    refine ⟨m', hm', e, ?_, rfl⟩
    rw [he]
    rfl

/-! ### Formulas in plain parentheses -/

/-- A parenthesis that is rewritten is a formula where it stands. -/
theorem mathAt_start
    {m : Match Item} {w : Text} (hm : m ∈ (read (pairs t)).findAll t)
    (hw : m.value = .plain w) :
  mathAt t (pairs t) m.start = some (w, m.span.stop)
  := by
  obtain ⟨u, k, ht, hstart, hread, htake⟩ := Reader.exists_of_mem_pieces hm
  rw [hw, read] at hread
  split at hread
  · cases (Prod.mk.inj (Option.some.inj hread)).1
  · obtain ⟨⟨w', n⟩, hmath, heq⟩ := Option.map_eq_some_iff.mp hread
    obtain ⟨hvalue, rfl⟩ := Prod.mk.inj heq
    obtain rfl := Item.plain.inj hvalue
    have hlength : m.source.length = k + 1 := by
      obtain ⟨source, rest, -, -, hsource, hk, -⟩ := exists_append_of_readMath (ht ▸ hmath)
      rw [htake, List.length_take, hsource, List.length_append, hk]
      omega
    have hbefore : t.take u.length = u := by rw [ht, List.take_left]
    have hbehind : t.drop u.length = m.source ++ m.rest := by rw [ht, List.drop_left]
    rw [mathAt, Match.span, hstart, hlength, hbefore, hbehind, hmath]
    rfl

/-- The parts of a parenthesis, by their positions in a text. -/
theorem GroupForm.extract_eq {source w body primes : Text} (h : GroupForm source w body primes)
    (u rest : Text) :
  (u ++ (source ++ rest)).extract (u.length + 1) (u.length + body.length + 1) = body
    ∧ (u ++ (source ++ rest)).extract (u.length + body.length + 1 + 1) (u.length + source.length)
      = primes
  := by
  have hsource : u ++ (source ++ rest) = u ++ ['('] ++ body ++ [')'] ++ (primes ++ rest) := by
    rw [h.source_eq]
    simp
  have hstop : u.length + source.length = u.length + body.length + 1 + 1 + primes.length := by
    rw [h.source_eq]
    simp only [List.length_append, List.length_cons, List.length_nil]
    omega
  have hstart : u.length + body.length + 1 + 1 = (u ++ ['('] ++ body ++ [')']).length := by
    simp [Nat.add_assoc]
  constructor
  · rw [hsource, Nat.add_right_comm]
    simp
  · rw [hstop, hsource, hstart, extract_append_append]

/-- The parts of the formula that the parenthesis at a position stands for. -/
theorem exists_form_of_mathAt {w : Text} {i e : Nat}
    (h : mathAt t (pairs t) i = some (w, e)) :
  ∃ j, partner (pairs t) i = some j
    ∧ GroupForm (t.extract i e) w (t.extract (i + 1) j) (t.extract (j + 1) e)
  := by
  obtain ⟨⟨w', k⟩, hmath, heq⟩ := Option.map_eq_some_iff.mp h
  obtain ⟨rfl, rfl⟩ := Prod.mk.inj heq
  have hmath' : readMath (pairs (t.take i ++ t.drop i)) (Place.start.after (t.take i)) (t.drop i)
      = some (w', k) := by
    rw [List.take_append_drop, hmath]
  obtain ⟨source, rest, body, primes, hdrop, rfl, hform, hpartner⟩ :=
    exists_append_of_readMath hmath'
  have hi : i < t.length := by
    by_contra hle
    rw [List.drop_eq_nil_of_le (by omega), hform.source_eq] at hdrop
    cases hdrop
  have hlength : (t.take i).length = i := by
    rw [List.length_take, Nat.min_eq_left (Nat.le_of_lt hi)]
  have ht : t = t.take i ++ (source ++ rest) := by rw [← hdrop, List.take_append_drop]
  rw [List.take_append_drop, hlength] at hpartner
  refine ⟨i + body.length + 1, hpartner, ?_⟩
  generalize t.take i = u at ht hlength
  subst ht hlength
  obtain ⟨hbody, hprimes⟩ := hform.extract_eq u rest
  rw [extract_append_append, hbody, hprimes]
  exact hform

/-- Where a parenthesis is a formula, something is read. -/
theorem not_passes_of_mathAt {i : Nat} (h : (mathAt t (pairs t) i).isSome) :
  t[i]? = some '('
    ∧ ¬ (read (pairs t)).Passes (Place.start.after (t.take i)) (t.drop i)
  := by
  obtain ⟨r, hr⟩ := Option.isSome_iff_exists.mp h
  obtain ⟨⟨w, k⟩, hmath, -⟩ := Option.map_eq_some_iff.mp hr
  have hmath' : readMath (pairs (t.take i ++ t.drop i)) (Place.start.after (t.take i)) (t.drop i)
      = some (w, k) := by
    rw [List.take_append_drop, hmath]
  obtain ⟨source, rest, body, primes, hdrop, hk, hform, -⟩ := exists_append_of_readMath hmath'
  rw [hform.source_eq] at hdrop hk
  constructor
  · rw [← Nat.add_zero i, ← List.getElem?_drop, hdrop]
    rfl
  · intro hpass
    apply hpass (.plain w) (body ++ ([')'] ++ primes)).length
    have hinline : Delimiter.inline.reader (Place.start.after (t.take i)) (t.drop i) = none := by
      rw [hdrop]
      rfl
    rw [read, hinline]
    dsimp only
    rw [hmath, Option.map_some, hk, List.length_append, Nat.add_comm]
    rfl

/-! ### The parentheses that are rewritten -/

/-- Edits that rewrite the parentheses of a text that are reached. -/
structure Reaches (t : Text) (es : Edits t) : Prop where
  /-- Every edit writes the formula that the parenthesis where it starts stands for. -/
  formulas : ∀ e ∈ es.list, mathAt t (pairs t) e.span.start = some (e.text, e.span.stop)
  /-- Every edit stands apart from the formulas in backslash parentheses. -/
  apart : ∀ e ∈ es.list, ∀ m ∈ Delimiter.inline.reader.findAll t, e.span.Apart m.span
  /-- A parenthesis that is a formula is rewritten, or opens within a formula in backslash
  parentheses or behind the start of an edit. -/
  complete : ∀ i, (mathAt t (pairs t) i).isSome →
    (∃ e ∈ es.list, e.span.start = i)
      ∨ (∃ m ∈ Delimiter.inline.reader.findAll t, m.span.start ≤ i ∧ i < m.span.stop)
      ∨ ∃ e ∈ es.list, e.span.start < i ∧ i < e.span.stop

/-- Converting the parentheses of a text makes the edits that are reached, counts them, and keeps
the formulas in backslash parentheses. -/
theorem exists_reached (t : Text) :
  ∃ es : Edits t, Reaches t es ∧ convertParens t = ⟨es.text, .ofInline es.list.length⟩
    ∧ HoldsInOrder ((Delimiter.inline.reader.findAll t).map Match.source) es.text
  := by
  have hreaches : Reaches t ((read (pairs t)).edits (fun m => m.value.formula?) t) := by
    constructor
    · intro e he
      obtain ⟨m, hm, hspan, hw⟩ := Reader.mem_edits_iff.mp he
      rw [hspan]
      exact mathAt_start hm (Item.eq_plain hw)
    · intro e he m hm
      obtain ⟨i, hi, hspan, hw⟩ := Reader.mem_edits_iff.mp he
      obtain ⟨m', hm', b, hb, rfl⟩ := mem_findAll_inline_iff.mp hm
      rw [hspan]
      apply Reader.apart_of_mem_findAll hi hm'
      rintro rfl
      rw [hb] at hw
      cases hw
    · intro i hi
      obtain ⟨hopen, hread⟩ := not_passes_of_mathAt hi
      rcases (read (pairs t)).passes_or_exists_of_getElem? hopen with
        ⟨-, hpass⟩ | ⟨m, hm, hstart, hstop⟩
      · exact absurd hpass hread
      · cases hvalue : m.value with
        | backslash e =>
          right
          left
          exact ⟨_, mem_findAll_inline_iff.mpr ⟨m, hm, e, hvalue, rfl⟩, hstart, hstop⟩
        | plain w =>
          have he : ⟨m.span, w⟩ ∈ ((read (pairs t)).edits (fun m => m.value.formula?) t).list :=
            Reader.mem_edits_iff.mpr ⟨m, hm, rfl, by rw [hvalue]; rfl⟩
          rcases Nat.eq_or_lt_of_le hstart with heq | hlt
          · left
            exact ⟨_, he, heq⟩
          · right
            right
            exact ⟨_, he, hlt, hstop⟩
  refine ⟨_, hreaches, ?_, ?_⟩
  · rw [convertParens, Reader.replace_eq_edits]
    rfl
  · apply Edits.holdsInOrder_findAll
    exact hreaches.apart

end Paren

end DollarMath
