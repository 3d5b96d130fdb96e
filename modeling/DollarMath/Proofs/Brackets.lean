import DollarMath.Formula
import DollarMath.Proofs.Apart
import DollarMath.Proofs.Reading

/-!
# Brackets

A bracket ends at the first closing bracket behind it.  So which brackets are found can be told
without the run: those that stand where no bracket is open.
-/

namespace DollarMath

open scoped List

open Delimiter (reads_bracket IsBracket)

/-! ### Brackets that are rewritten -/

/-- A bracket of the text `t` that is rewritten: it may be converted and touches no dollar
mathematics of the text. -/
def isRewritten (t : Text) (m : Match Enclosure) : Bool :=
  !m.span.touches (dollarSpans .all t) && isMathBracket m

/-- The brackets that are rewritten are those that are converted. -/
theorem convertBrackets_eq_replace (t : Text) :
  convertBrackets t = (Delimiter.bracket.reader.replace (fun m =>
    if isRewritten t m then some (displayOf m.value.body) else none) t).block
  := by
  rw [convertBrackets, Reader.replaceOutside]
  congr 2
  funext m
  rw [isRewritten]
  cases m.span.touches (dollarSpans .all t) <;> simp

/-! ### Texts without open brackets -/

/-- A text without open brackets: behind every opening bracket stands a closing one. -/
def IsClosed (x : Text) : Prop :=
  ∀ a b, x = a ++ '[' :: b → ']' ∈ b

theorem IsClosed.suffix {x y : Text} (h : IsClosed x) (hy : y <:+ x) :
  IsClosed y
  := by
  obtain ⟨u, rfl⟩ := hy
  rintro a b rfl
  apply h (u ++ a)
  rw [List.append_assoc]

/-- No bracket is open behind a closing one. -/
theorem IsClosed.append {x y : Text} (h : IsClosed y) (hx : x = [] ∨ x.getLast? = some ']') :
  IsClosed (x ++ y)
  := by
  intro a b hab
  rcases List.append_eq_append_iff.mp hab with ⟨c, rfl, hc⟩ | ⟨c, rfl, hc⟩
  · exact h c b hc
  · cases c with
    | nil => exact h [] b hc.symm
    | cons d c =>
      obtain ⟨rfl, rfl⟩ := List.cons.inj hc
      have hlast : (a ++ '[' :: c).getLast? = some ']' := hx.resolve_left (by simp)
      rw [List.getLast?_append_of_ne_nil _ (List.cons_ne_nil _ _)] at hlast
      apply List.mem_append_left
      exact (List.mem_cons.mp (List.mem_of_getLast? hlast)).resolve_left (by decide)

/-- A text without brackets behind another one opens and closes none. -/
theorem isClosed_append_iff {x y : Text} (hopening : '[' ∉ y) (hclosing : ']' ∉ y) :
  IsClosed (x ++ y) ↔ IsClosed x
  := by
  constructor
  · rintro h a b rfl
    have hmem := h a (b ++ y) (by simp)
    exact (List.mem_append.mp hmem).resolve_right hclosing
  · intro h a b hab
    rcases List.append_eq_append_iff.mp hab with ⟨c, rfl, hc⟩ | ⟨c, rfl, hc⟩
    · exact absurd (by rw [hc]; simp) hopening
    · cases c with
      | nil => exact absurd (by rw [← List.nil_append y, ← hc]; simp) hopening
      | cons d c =>
        obtain ⟨rfl, rfl⟩ := List.cons.inj hc
        exact List.mem_append_left _ (h a c rfl)

theorem head?_source_of_mem_findAll {t : Text} {m : Match Enclosure}
    (h : m ∈ Delimiter.bracket.reader.findAll t) :
  m.source.head? = some '['
  := by
  obtain ⟨u, n, -, -, hread, htake⟩ := Reader.exists_of_mem_pieces h
  obtain ⟨⟨body, hvalue, -, -⟩, hsource⟩ := reads_bracket.of_read hread htake
  rw [hsource, hvalue]
  rfl

/-- A bracket that starts in a text without open brackets ends in it. -/
theorem stop_le_of_start_lt
    {x z : Text} (hx : IsClosed x) {m : Match Enclosure}
    (hm : m ∈ Delimiter.bracket.reader.findAll (x ++ z)) (hstart : m.start < x.length) :
  m.span.stop ≤ x.length
  := by
  obtain ⟨a, n, ht, ha, hread, htake⟩ := Reader.exists_of_mem_pieces hm
  obtain ⟨hbracket, hsource⟩ := reads_bracket.of_read hread htake
  obtain ⟨body, hvalue, -, hbody⟩ := hbracket
  have hsource : m.source = '[' :: (body ++ [']']) := by simp [hsource, hvalue, Enclosure.source]
  rw [hsource, List.cons_append, List.append_assoc] at ht
  obtain ⟨b, rfl, hb⟩ : ∃ b, x = a ++ '[' :: b ∧ b ++ z = body ++ ([']'] ++ m.rest) := by
    rcases List.append_eq_append_iff.mp ht with ⟨c, rfl, -⟩ | ⟨c, rfl, hc⟩
    · rw [List.length_append] at ha
      omega
    · cases c with
      | nil =>
        rw [List.append_nil] at hstart
        omega
      | cons d b =>
        obtain ⟨rfl, hb⟩ := List.cons.inj hc
        exact ⟨b, rfl, hb.symm⟩
  have hmem := hx a b rfl
  have hlength : body.length < b.length := by
    by_contra hle
    apply hbody
    apply List.IsPrefix.subset _ hmem
    apply List.prefix_of_prefix_length_le _ (List.prefix_append body ([']'] ++ m.rest)) (by omega)
    rw [← hb]
    apply List.prefix_append
  rw [Match.span, hsource, ha]
  simp only [List.length_append, List.length_cons, List.length_nil]
  omega

/-- A bracket behind a text without open brackets is found. -/
theorem mem_findAll_bracket_of_isClosed
    {x : Text} {m : Match Enclosure} (hx : IsClosed x) (hstart : m.start = x.length)
    (hbracket : IsBracket m.value) (hsource : m.source = m.value.source) :
  m ∈ Delimiter.bracket.reader.findAll (x ++ (m.source ++ m.rest))
  := by
  have hoffset : (Place.start.after x).offset = m.start := by
    rw [hstart, Place.after_offset, Place.start, Nat.zero_add]
  have hne : m.value.source ≠ [] := by
    obtain ⟨body, hvalue, -⟩ := hbracket
    rw [hvalue]
    exact List.cons_ne_nil _ _
  have hread := reads_bracket.isRead (p := Place.start.after x) hbracket hne m.rest
  rw [← hsource, hoffset] at hread
  obtain ⟨ps, hps, -⟩ := Reader.exists_piecesFrom_eq_append (r := Delimiter.bracket.reader)
    (p := .start) (s := x) (t := m.source ++ m.rest) (by
      intro m' hm' hlt
      rw [Place.start, Nat.zero_add] at hlt ⊢
      exact stop_le_of_start_lt hx (Reader.mem_findAll_iff.mpr hm') hlt)
  have hpieces := hread.piecesFrom_eq
  dsimp only at hpieces
  rw [Reader.mem_findAll_iff, Reader.pieces, hps, hpieces]
  simp

/-- A bracket ends with a closing bracket. -/
theorem getElem?_stop_of_mem_findAll
    {t : Text} {m : Match Enclosure} (hm : m ∈ Delimiter.bracket.reader.findAll t) :
  ∃ k, m.span.stop = k + 1 ∧ t[k]? = some ']'
  := by
  obtain ⟨u, n, rfl, hstart, hread, htake⟩ := Reader.exists_of_mem_pieces hm
  obtain ⟨⟨body, hvalue, -, -⟩, hsource⟩ := reads_bracket.of_read hread htake
  have hsource : m.source = ('[' :: body) ++ [']'] := by simp [hsource, hvalue, Enclosure.source]
  refine ⟨u.length + ('[' :: body).length, ?_, ?_⟩
  · rw [Match.span, hsource, hstart, List.length_append]
    rfl
  · rw [List.getElem?_append_right (Nat.le_add_right _ _), Nat.add_sub_cancel_left, hsource,
      List.append_assoc, List.getElem?_append_right (Nat.le_refl _), Nat.sub_self]
    rfl

/-- Before a bracket that is found no bracket is open. -/
theorem exists_isClosed_of_mem_findAll
    {t : Text} {m : Match Enclosure} (hm : m ∈ Delimiter.bracket.reader.findAll t) :
  ∃ x, IsClosed x ∧ t = x ++ (m.source ++ m.rest) ∧ m.start = x.length ∧ IsBracket m.value
    ∧ m.source = m.value.source
  := by
  obtain ⟨x, n, rfl, hstart, hread, htake⟩ := Reader.exists_of_mem_pieces hm
  obtain ⟨hbracket, hsource⟩ := reads_bracket.of_read hread htake
  refine ⟨x, ?_, rfl, hstart, hbracket, hsource⟩
  rintro a b rfl
  have hopen : (a ++ '[' :: b ++ (m.source ++ m.rest))[a.length]? = some '[' := by simp
  rcases Delimiter.bracket.reader.passes_or_exists_of_getElem? hopen with
    ⟨-, hpass⟩ | ⟨m', hm', hstart', hstop'⟩
  · by_contra hclosing
    obtain ⟨body, hvalue, -, hbody⟩ := hbracket
    have hdrop : (a ++ '[' :: b ++ (m.source ++ m.rest)).drop a.length
        = '[' :: (b ++ '[' :: body) ++ [']'] ++ m.rest := by
      simp [hsource, hvalue, Enclosure.source]
    apply reads_bracket.passes_iff.mp hpass ⟨[], [], ['['], b ++ '[' :: body, [']']⟩
    · exact ⟨_, rfl, by simp, by simp [hclosing, hbody]⟩
    · exact List.cons_ne_nil _ _
    · rw [hdrop]
      exact List.prefix_append _ _
  · have hbefore : m'.start < m.start := by
      rw [hstart, List.length_append, List.length_cons]
      omega
    have hne : m' ≠ m := by
      rintro rfl
      exact Nat.lt_irrefl _ hbefore
    obtain ⟨k, hk, hclosing⟩ := getElem?_stop_of_mem_findAll hm'
    have hstop : m'.span.stop ≤ (a ++ '[' :: b).length := by
      rcases Reader.apart_of_mem_findAll hm' hm hne with hle | hle
      · exact hstart ▸ hle
      · simp only [Match.span] at hle
        omega
    have hbehind : k ≠ a.length := by
      rintro rfl
      rw [hopen] at hclosing
      cases hclosing
    rw [List.getElem?_append_left (by omega), List.getElem?_append_right (by omega)] at hclosing
    obtain ⟨j, hj⟩ : ∃ j, k - a.length = j + 1 := ⟨k - a.length - 1, by omega⟩
    rw [hj, List.getElem?_cons_succ] at hclosing
    exact List.mem_of_getElem? hclosing

/-- The brackets of a text are those that stand behind a text without open brackets. -/
theorem mem_findAll_bracket_iff {t : Text} {m : Match Enclosure} :
  m ∈ Delimiter.bracket.reader.findAll t
    ↔ ∃ x, IsClosed x ∧ t = x ++ (m.source ++ m.rest) ∧ m.start = x.length ∧ IsBracket m.value
      ∧ m.source = m.value.source
  := by
  constructor
  · exact exists_isClosed_of_mem_findAll
  · rintro ⟨x, hx, rfl, hstart, hbracket, hsource⟩
    exact mem_findAll_bracket_of_isClosed hx hstart hbracket hsource

end DollarMath
