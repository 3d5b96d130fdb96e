import DollarMath.Proofs.Apart
import Mathlib.Data.List.Infix

/-!
# Edits

An edit writes a text for the characters of a span.  The edits of a text stand one behind the
other; made together, they keep what stands between them.  A replacement makes one edit for each
match that it replaces.
-/

namespace DollarMath

open scoped List

/-! ### Texts in order -/

/-- A text holds some texts one behind the other. -/
def HoldsInOrder : List Text → Text → Prop
  | [], _ => True
  | w :: ws, t => ∃ u v, t = u ++ (w ++ v) ∧ HoldsInOrder ws v

namespace HoldsInOrder

variable {ws ws' : List Text} {t : Text}

/-- More text may stand in front. -/
theorem append_left (h : HoldsInOrder ws t) (s : Text) :
  HoldsInOrder ws (s ++ t)
  := by
  cases ws with
  | nil => trivial
  | cons w ws =>
    obtain ⟨u, v, rfl, hv⟩ := h
    exact ⟨s ++ u, v, by rw [List.append_assoc], hv⟩

/-- Texts in order in one text and then in another. -/
theorem append {t' : Text} (h : HoldsInOrder ws t) (h' : HoldsInOrder ws' t') :
  HoldsInOrder (ws ++ ws') (t ++ t')
  := by
  induction ws generalizing t with
  | nil => exact h'.append_left t
  | cons w ws ih =>
    obtain ⟨u, v, rfl, hv⟩ := h
    exact ⟨u, v ++ t', by simp only [List.append_assoc], ih hv⟩

/-- Some of the texts are in order, too. -/
theorem sublist (h : HoldsInOrder ws' t) (hsub : ws <+ ws') :
  HoldsInOrder ws t
  := by
  induction hsub generalizing t with
  | slnil => trivial
  | cons w _ ih =>
    obtain ⟨u, v, rfl, hv⟩ := h
    rw [← List.append_assoc]
    apply (ih hv).append_left
  | cons_cons w _ ih =>
    obtain ⟨u, v, rfl, hv⟩ := h
    exact ⟨u, v, rfl, ih hv⟩

/-- The first text is found somewhere, and the others behind it. -/
theorem cons_iff {w : Text} :
  HoldsInOrder (w :: ws) t ↔ ∃ v ∈ t.tails, w <+: v ∧ HoldsInOrder ws (v.drop w.length)
  := by
  simp only [List.mem_tails]
  constructor
  · rintro ⟨u, v, rfl, hv⟩
    refine ⟨w ++ v, List.suffix_append _ _, List.prefix_append _ _, ?_⟩
    rwa [List.drop_left]
  · rintro ⟨_, ⟨u, rfl⟩, ⟨v, rfl⟩, hv⟩
    rw [List.drop_left] at hv
    exact ⟨u, v, rfl, hv⟩

instance decidable : (ws : List Text) → (t : Text) → Decidable (HoldsInOrder ws t)
  | [], _ => .isTrue trivial
  | _ :: ws, _ =>
    have : ∀ v, Decidable (HoldsInOrder ws v) := decidable ws
    decidable_of_iff _ cons_iff.symm

end HoldsInOrder

/-! ### Extracts -/

/-- The length of an extract. -/
theorem length_extract {t : Text} {i j : Nat} (h : j ≤ t.length) :
  (t.extract i j).length = j - i
  := by
  rw [List.extract_eq_take_drop, List.length_take, List.length_drop]
  omega

/-- Extracts side by side. -/
theorem extract_append_extract (t : Text) {i j k : Nat} (hij : i ≤ j) (hjk : j ≤ k) :
  t.extract i j ++ t.extract j k = t.extract i k
  := by
  have hj : t.drop j = (t.drop i).drop (j - i) := by
    rw [List.drop_drop, Nat.add_sub_cancel' hij]
  have hk : k - i = (j - i) + (k - j) := by omega
  rw [List.extract_eq_take_drop, List.extract_eq_take_drop, List.extract_eq_take_drop, hj, hk,
    List.take_add]

/-- An extract and all that follows it. -/
theorem extract_append_drop (t : Text) {i j : Nat} (hij : i ≤ j) :
  t.extract i j ++ t.drop j = t.drop i
  := by
  have hj : t.drop j = (t.drop i).drop (j - i) := by
    rw [List.drop_drop, Nat.add_sub_cancel' hij]
  rw [List.extract_eq_take_drop, hj, List.take_append_drop]

/-- The characters of a text between two others. -/
theorem extract_append_append (s v u : Text) :
  (s ++ (v ++ u)).extract s.length (s.length + v.length) = v
  := by
  simp [List.extract_eq_take_drop]

/-- An extract from the first of two texts. -/
theorem extract_append_of_le {s t : Text} {i j : Nat} (hij : i ≤ j) (h : j ≤ s.length) :
  (s ++ t).extract i j = s.extract i j
  := by
  rw [List.extract_eq_take_drop, List.extract_eq_take_drop,
    List.drop_append_of_le_length (by omega), List.take_append_of_le_length]
  rw [List.length_drop]
  omega

/-- One from the second. -/
theorem extract_append_of_ge {s t : Text} {i j : Nat} (h : s.length ≤ i) :
  (s ++ t).extract i j = t.extract (i - s.length) (j - s.length)
  := by
  rw [List.extract_eq_take_drop, List.extract_eq_take_drop, List.drop_append,
    List.drop_eq_nil_of_le h, List.nil_append]
  congr 1
  omega

/-- One from both. -/
theorem extract_append_of_lt {s t : Text} {i j : Nat} (hi : i ≤ s.length) (h : s.length ≤ j) :
  (s ++ t).extract i j = s.drop i ++ t.take (j - s.length)
  := by
  rw [List.extract_eq_take_drop, List.drop_append_of_le_length hi, List.take_append,
    List.take_of_length_le, List.length_drop]
  · congr 2
    omega
  · rw [List.length_drop]
    omega

/-! ### Edits -/

/-- A text that is written for the characters of a span. -/
structure Edit where
  /-- The characters that are taken away. -/
  span : Span
  /-- The text that is written for them. -/
  text : Text
deriving DecidableEq, Repr

/-- Edits of a text that can be made together. -/
structure Edits (t : Text) where
  /-- The edits, from left to right. -/
  list : List Edit
  /-- Each edit takes characters of the text away. -/
  within : ∀ e ∈ list, e.span.start < e.span.stop ∧ e.span.stop ≤ t.length
  /-- Each edit stands behind the edits before it. -/
  ordered : list.Pairwise fun e e' => e.span.stop ≤ e'.span.start

namespace Edit

/-- What a text becomes from the position `i` on when edits behind `i` are made. -/
def writeFrom (t : Text) (i : Nat) : List Edit → Text
  | [] => t.drop i
  | e :: es => t.extract i e.span.start ++ (e.text ++ writeFrom t e.span.stop es)

variable {t : Text} {i j k : Nat} {es : List Edit}

/-- What stands before the first edit is kept. -/
theorem writeFrom_eq_append (hij : i ≤ j) (h : ∀ e ∈ es, j ≤ e.span.start) :
  writeFrom t i es = t.extract i j ++ writeFrom t j es
  := by
  cases es with
  | nil => exact (extract_append_drop t hij).symm
  | cons e es =>
    rw [writeFrom, writeFrom, ← List.append_assoc (t.extract i j),
      extract_append_extract t hij (h e List.mem_cons_self)]

/-- What stands before the first edit starts what is written. -/
theorem head?_writeFrom (h : ∀ e ∈ es, i < e.span.start ∧ e.span.start < t.length) :
  (writeFrom t i es).head? = t[i]?
  := by
  cases es with
  | nil => rw [writeFrom, List.head?_drop]
  | cons e es =>
    obtain ⟨hlt, hlength⟩ := h e List.mem_cons_self
    have hi : i < t.length := by omega
    rw [writeFrom, List.extract_eq_take_drop, List.head?_append, List.head?_take,
      if_neg (by omega), List.head?_drop, List.getElem?_eq_getElem hi, Option.some_or]

/-- Edits that stand before a position or behind it write what the ones before it write and then
what the others do. -/
theorem writeFrom_eq_take_append_drop
    (hes : es.Pairwise fun e e' => e.span.stop ≤ e'.span.start)
    (hwithin : ∀ e ∈ es, e.span.start < e.span.stop)
    (hi : ∀ e ∈ es, i ≤ e.span.start) (hik : i ≤ k)
    (hcut : ∀ e ∈ es, e.span.stop ≤ k ∨ k ≤ e.span.start) :
  writeFrom t i es
    = writeFrom (t.take k) i (es.filter fun e => e.span.stop ≤ k)
      ++ writeFrom t k (es.filter fun e => k ≤ e.span.start)
  := by
  induction es generalizing i with
  | nil =>
    rw [List.filter_nil, List.filter_nil, writeFrom, writeFrom, writeFrom, List.drop_take,
      ← List.extract_eq_take_drop, extract_append_drop t hik]
  | cons e es ih =>
    obtain ⟨hnext, hes'⟩ := List.pairwise_cons.mp hes
    obtain ⟨hlt, hwithin'⟩ := List.forall_mem_cons.mp hwithin
    obtain ⟨hstart, hi'⟩ := List.forall_mem_cons.mp hi
    obtain ⟨hcut, hcut'⟩ := List.forall_mem_cons.mp hcut
    rcases hcut with hstop | hbehind
    · have hextract : (t.take k).extract i e.span.start = t.extract i e.span.start := by
        rw [List.extract_eq_take_drop, List.extract_eq_take_drop, List.drop_take, List.take_take,
          Nat.min_eq_left (by omega)]
      rw [List.filter_cons_of_pos (by simpa using hstop),
        List.filter_cons_of_neg (by simp; omega), writeFrom, writeFrom, hextract,
        ih hes' hwithin' hnext hstop hcut']
      simp only [List.append_assoc]
    · have hall : ∀ e' ∈ e :: es, k ≤ e'.span.start := by
        rw [List.forall_mem_cons]
        refine ⟨hbehind, fun e' he' => ?_⟩
        have hle := hnext e' he'
        omega
      have hnone : ∀ e' ∈ e :: es, ¬ decide (e'.span.stop ≤ k) = true := by
        intro e' he'
        have hle := hall e' he'
        have hlt' := hwithin e' he'
        simp only [decide_eq_true_eq]
        omega
      rw [List.filter_eq_nil_iff.mpr hnone, List.filter_eq_self.mpr (by simpa using hall),
        writeFrom_eq_append hik hall, writeFrom, List.drop_take, ← List.extract_eq_take_drop]

/-- A span before all edits, and spans behind it. -/
theorem holdsInOrder_cons_writeFrom
    {s : Span} {ws : List Text} (hi : i ≤ s.start) (hs : s.start ≤ s.stop)
    (h : ∀ e ∈ es, s.stop ≤ e.span.start) (hws : HoldsInOrder ws (writeFrom t s.stop es)) :
  HoldsInOrder (t.extract s.start s.stop :: ws) (writeFrom t i es)
  := by
  have hstart : ∀ e ∈ es, s.start ≤ e.span.start := fun e he => Nat.le_trans hs (h e he)
  refine ⟨t.extract i s.start, writeFrom t s.stop es, ?_, hws⟩
  rw [writeFrom_eq_append hi hstart, writeFrom_eq_append hs h]

/-- Spans in order keep their characters if they stand apart from all edits. -/
theorem holdsInOrder_writeFrom
    {ss : List Span} (hes : es.Pairwise fun e e' => e.span.stop ≤ e'.span.start)
    (hss : ss.Pairwise fun s s' => s.stop ≤ s'.start)
    (he : ∀ e ∈ es, e.span.start ≤ e.span.stop)
    (hs : ∀ s ∈ ss, i ≤ s.start ∧ s.start ≤ s.stop)
    (hapart : ∀ e ∈ es, ∀ s ∈ ss, e.span.Apart s) :
  HoldsInOrder (ss.map fun s => t.extract s.start s.stop) (writeFrom t i es)
  := by
  induction ss generalizing i es with
  | nil => trivial
  | cons s ss ihs =>
    obtain ⟨hfirst, hss'⟩ := List.pairwise_cons.mp hss
    obtain ⟨⟨hi, hle⟩, hs'⟩ := List.forall_mem_cons.mp hs
    have hlater : ∀ s' ∈ ss, s.stop ≤ s'.start ∧ s'.start ≤ s'.stop :=
      fun s' hs'' => ⟨hfirst s' hs'', (hs' s' hs'').2⟩
    clear hs hs'
    induction es generalizing i with
    | nil =>
      apply holdsInOrder_cons_writeFrom hi hle (by simp)
      apply ihs List.Pairwise.nil hss' (by simp) hlater (by simp)
    | cons e es ihe =>
      obtain ⟨hnext, hes'⟩ := List.pairwise_cons.mp hes
      obtain ⟨hestop, he'⟩ := List.forall_mem_cons.mp he
      rcases hapart e List.mem_cons_self s List.mem_cons_self with hbefore | hbehind
      · rw [writeFrom]
        apply HoldsInOrder.append_left
        apply HoldsInOrder.append_left
        apply ihe hes' he' _ hbefore
        exact fun e' he'' => hapart e' (List.mem_cons_of_mem _ he'')
      · apply holdsInOrder_cons_writeFrom hi hle
        · rw [List.forall_mem_cons]
          refine ⟨hbehind, fun e' he'' => ?_⟩
          have hstart := hnext e' he''
          omega
        · apply ihs hes hss' he hlater
          exact fun e' he'' s' hs'' => hapart e' he'' s' (List.mem_cons_of_mem _ hs'')

end Edit

namespace Edits

variable {t : Text}

/-- The text with the edits made. -/
def text (es : Edits t) : Text :=
  Edit.writeFrom t 0 es.list

/-- Spans in order keep their characters if they stand apart from all edits. -/
theorem holdsInOrder_text
    (es : Edits t) {ss : List Span} (hss : ss.Pairwise fun s s' => s.stop ≤ s'.start)
    (hs : ∀ s ∈ ss, s.start ≤ s.stop) (hapart : ∀ e ∈ es.list, ∀ s ∈ ss, e.span.Apart s) :
  HoldsInOrder (ss.map fun s => t.extract s.start s.stop) es.text
  := by
  apply Edit.holdsInOrder_writeFrom es.ordered hss _ _ hapart
  · exact fun e he => Nat.le_of_lt (es.within e he).1
  · exact fun s hs' => ⟨Nat.zero_le _, hs s hs'⟩

/-! ### Texts beside an edit -/

section Beside

variable (es : Edits t)

/-- What stands before the position `k` when the edits are made. -/
def front (k : Nat) : Text :=
  Edit.writeFrom (t.take k) 0 (es.list.filter fun e => e.span.stop ≤ k)

/-- What stands from the position `k` on when the edits are made. -/
def behind (k : Nat) : Text :=
  Edit.writeFrom t k (es.list.filter fun e => k ≤ e.span.start)

/-- The edits share no character with a span. -/
def Keep (s : Span) : Prop :=
  ∀ e ∈ es.list, e.span.Apart s

/-- Where a span stands when edits that keep it are made. -/
def moved (s : Span) : Span :=
  ⟨(es.front s.start).length, (es.front s.start).length + (s.stop - s.start)⟩

variable {es}

/-- What is written from a position on, if no edit starts there, starts with the character that
stands there. -/
theorem head?_behind {k : Nat} (h : ∀ e ∈ es.list, e.span.start ≠ k) :
  (es.behind k).head? = t[k]?
  := by
  apply Edit.head?_writeFrom
  intro e he
  obtain ⟨he, hle⟩ := List.mem_filter.mp he
  have hne := h e he
  have hlt := es.within e he
  rw [decide_eq_true_eq] at hle
  omega

/-- A kept span stands between what the edits before it and those behind it write. -/
theorem text_eq_of_keep {s : Span} (h : es.Keep s) (hs : s.start ≤ s.stop) :
  es.text = es.front s.start ++ (t.extract s.start s.stop ++ es.behind s.stop)
  := by
  have hbehind : ∀ e ∈ es.list, (s.start ≤ e.span.start ↔ s.stop ≤ e.span.start) := by
    intro e he
    have hlt := (es.within e he).1
    have hapart := h e he
    rw [Span.Apart] at hapart
    omega
  rw [text, Edit.writeFrom_eq_take_append_drop es.ordered (fun e he => (es.within e he).1)
    (fun e _ => Nat.zero_le _) (Nat.zero_le s.start)]
  · rw [front, behind, List.filter_congr fun e he => decide_eq_decide.mpr (hbehind e he),
      Edit.writeFrom_eq_append hs]
    intro e he
    simpa using (List.mem_filter.mp he).2
  · intro e he
    have hapart := h e he
    rw [Span.Apart] at hapart
    omega

/-- What an edit writes stands between what the edits before it and those behind it write. -/
theorem text_eq_of_mem {e : Edit} (he : e ∈ es.list) :
  es.text = es.front e.span.start ++ (e.text ++ es.behind e.span.stop)
  := by
  obtain ⟨before, after, hlist⟩ := List.append_of_mem he
  have hordered := es.ordered
  rw [hlist, List.pairwise_append, List.pairwise_cons] at hordered
  obtain ⟨-, ⟨hafter, -⟩, hbefore⟩ := hordered
  have hlt : ∀ e' ∈ es.list, e'.span.start < e'.span.stop := fun e' he' => (es.within e' he').1
  have hcut : ∀ e' ∈ es.list, e'.span.stop ≤ e.span.start ∨ e.span.start ≤ e'.span.start := by
    intro e' he'
    have hlt' := hlt e he
    rw [hlist, List.mem_append, List.mem_cons] at he'
    rcases he' with he' | rfl | he'
    · exact .inl (hbefore e' he' e List.mem_cons_self)
    · exact .inr (Nat.le_refl _)
    · have hle := hafter e' he'
      omega
  have hfilter : es.list.filter (fun e' => e.span.start ≤ e'.span.start)
      = e :: es.list.filter fun e' => e.span.stop ≤ e'.span.start := by
    have hlt' := hlt e he
    have hnone : ∀ {k}, e.span.start ≤ k →
        before.filter (fun e' => decide (k ≤ e'.span.start)) = [] := by
      intro k hk
      rw [List.filter_eq_nil_iff]
      intro e' he'
      have hle := hbefore e' he' e List.mem_cons_self
      have hlt'' := hlt e' (by rw [hlist]; exact List.mem_append_left _ he')
      simp only [decide_eq_true_eq]
      omega
    have hall : ∀ {k}, k ≤ e.span.stop →
        after.filter (fun e' => decide (k ≤ e'.span.start)) = after := by
      intro k hk
      rw [List.filter_eq_self]
      intro e' he'
      have hle := hafter e' he'
      simp only [decide_eq_true_eq]
      omega
    rw [hlist, List.filter_append, List.filter_append, hnone (Nat.le_refl _),
      hnone (Nat.le_of_lt hlt'), List.filter_cons_of_pos (by simp),
      List.filter_cons_of_neg (by simp; omega), hall (Nat.le_of_lt hlt'),
      hall (Nat.le_refl _)]
    rfl
  rw [text, Edit.writeFrom_eq_take_append_drop es.ordered hlt (fun e _ => Nat.zero_le _)
    (Nat.zero_le e.span.start) hcut, hfilter, Edit.writeFrom, List.extract_eq_take_drop,
    Nat.sub_self, List.take_zero, List.nil_append]
  rfl

end Beside

end Edits

/-! ### Matches and edits -/

/-- The characters of the matches in a text are those at their spans. -/
theorem Reader.map_source_findAll {α : Type} (r : Reader α) (t : Text) :
  (r.findAll t).map Match.source
    = ((r.findAll t).map Match.span).map fun s => t.extract s.start s.stop
  := by
  rw [List.map_map]
  apply List.map_congr_left
  intro m hm
  exact (extract_of_mem_findAll hm).symm

/-- Edits that stand apart from all matches of a reader keep them. -/
theorem Edits.holdsInOrder_findAll
    {α : Type} {r : Reader α} {t : Text} (es : Edits t)
    (h : ∀ e ∈ es.list, ∀ m ∈ r.findAll t, e.span.Apart m.span) :
  HoldsInOrder ((r.findAll t).map Match.source) es.text
  := by
  rw [Reader.map_source_findAll]
  apply es.holdsInOrder_text
  · rw [List.pairwise_map]
    apply Reader.pairwise_findAll
  · intro s hs
    obtain ⟨m, -, rfl⟩ := List.mem_map.mp hs
    apply Nat.le_add_right
  · intro e he s hs
    obtain ⟨m, hm, rfl⟩ := List.mem_map.mp hs
    exact h e he m hm

/-! ### Replacements -/

/-- The edit that a replacement by `f` makes for a match. -/
def Match.edit? {α : Type} (f : Match α → Option Text) (m : Match α) : Option Edit :=
  (f m).map fun w => ⟨m.span, w⟩

namespace Reader

variable {α : Type}

/-- The span of a match lies in its text. -/
theorem span_within_of_mem_findAll {r : Reader α} {t : Text} {m : Match α}
    (h : m ∈ r.findAll t) :
  m.span.start < m.span.stop ∧ m.span.stop ≤ t.length
  := by
  have hpos := List.length_pos_iff.mpr (source_ne_nil_of_mem_piecesFrom (mem_findAll_iff.mp h))
  obtain ⟨u, k, ht, hstart, -⟩ := exists_of_mem_pieces h
  have hlength := congrArg List.length ht
  simp only [List.length_append] at hlength
  simp only [Match.span]
  omega

/-- The edits for the matches from a place on stand behind it. -/
theorem le_start_of_mem_edit
    {r : Reader α} {f : Match α → Option Text} {p : Place} {u : Text} {e : Edit} {i : Nat}
    (h : e ∈ ((r.piecesFrom 0 p u).filterMap Piece.match?).filterMap (Match.edit? f))
    (hi : i ≤ p.offset) :
  i ≤ e.span.start
  := by
  obtain ⟨m, hm, heq⟩ := List.mem_filterMap.mp h
  obtain ⟨w, -, rfl⟩ := Option.map_eq_some_iff.mp heq
  have hle := (pairwise_piecesFrom p u).1 m hm
  exact Nat.le_trans hi hle

variable (r : Reader α) (f : Match α → Option Text) (t : Text)

/-- The edits that a replacement makes. -/
def edits : Edits t where
  list := (r.findAll t).filterMap (Match.edit? f)
  within := by
    intro e he
    obtain ⟨m, hm, heq⟩ := List.mem_filterMap.mp he
    obtain ⟨w, -, rfl⟩ := Option.map_eq_some_iff.mp heq
    exact span_within_of_mem_findAll hm
  ordered := by
    apply List.Pairwise.filterMap _ _ (pairwise_findAll r t)
    intro m m' hle e he e' he'
    obtain ⟨w, -, rfl⟩ := Option.map_eq_some_iff.mp he
    obtain ⟨w', -, rfl⟩ := Option.map_eq_some_iff.mp he'
    exact hle

variable {r f t}

/-- The edits of a replacement are those of the matches that it replaces. -/
theorem mem_edits_iff {e : Edit} :
  e ∈ (r.edits f t).list ↔ ∃ m ∈ r.findAll t, e.span = m.span ∧ f m = some e.text
  := by
  rw [edits, List.mem_filterMap]
  apply exists_congr
  intro m
  apply and_congr_right
  intro _
  rw [Match.edit?, Option.map_eq_some_iff]
  constructor
  · rintro ⟨w, hw, rfl⟩
    exact ⟨rfl, hw⟩
  · rintro ⟨hspan, hw⟩
    exact ⟨e.text, hw, by rw [← hspan]⟩

/-- Their text is the replaced text. -/
theorem text_edits :
  (r.edits f t).text = (r.replace f t).text
  := by
  suffices ∀ p u, ∀ s, t = s ++ u → p.offset = s.length →
      Edit.writeFrom t s.length
          (((r.piecesFrom 0 p u).filterMap Piece.match?).filterMap (Match.edit? f))
        = (r.piecesFrom 0 p u).flatMap (Piece.written f) by
    rw [text_replace]
    apply this .start t [] rfl rfl
  intro p u
  apply r.piecesFrom_induction fun p u ps => ∀ s, t = s ++ u → p.offset = s.length →
    Edit.writeFrom t s.length ((ps.filterMap Piece.match?).filterMap (Match.edit? f))
      = ps.flatMap (Piece.written f)
  · rintro p s rfl -
    simp [Edit.writeFrom]
  · intro p c cs _ ih s ht hp
    have hcs := ih (s ++ [c]) (by rw [ht, List.append_assoc]; rfl) (by simp [Place.next, hp])
    rw [List.length_append] at hcs
    rw [List.filterMap_cons_none rfl, List.flatMap_cons, ← hcs,
      Edit.writeFrom_eq_append (Nat.le_add_right s.length [c].length)]
    · rw [ht, ← List.singleton_append, extract_append_append]
      rfl
    · intro e he
      apply le_start_of_mem_edit he
      simp [Place.next, hp]
  · intro p m n hread ih s ht hp
    have hrest := ih (s ++ m.source) (by rw [ht, List.append_assoc]) (by simp [hp])
    rw [List.length_append] at hrest
    have hmatch : (Piece.found m).match? = some m := rfl
    rw [List.filterMap_cons_some hmatch, List.flatMap_cons, ← hrest, Piece.written]
    cases hf : f m with
    | none =>
      have hedit : m.edit? f = none := by rw [Match.edit?, hf]; rfl
      rw [List.filterMap_cons_none hedit,
        Edit.writeFrom_eq_append (Nat.le_add_right s.length m.source.length)]
      · rw [ht, extract_append_append]
        rfl
      · intro e he
        apply le_start_of_mem_edit he
        simp [hp]
    | some w =>
      have hedit : m.edit? f = some ⟨m.span, w⟩ := by rw [Match.edit?, hf]; rfl
      rw [List.filterMap_cons_some hedit, Edit.writeFrom, Match.span, hread.start_eq, hp]
      simp

/-- Their number is its count. -/
theorem length_edits :
  (r.edits f t).list.length = (r.replace f t).count
  := by
  rw [edits, replace, List.length_filterMap_eq_countP]
  apply List.countP_congr
  intro m _
  rw [Match.edit?, Option.isSome_map]

/-- A replacement makes its edits and counts them. -/
theorem replace_eq_edits :
  r.replace f t = ⟨(r.edits f t).text, (r.edits f t).list.length⟩
  := by
  rw [text_edits, length_edits]

end Reader

end DollarMath
