import DollarMath.Proofs.Explicit
import Mathlib.Data.List.Chain

/-!
# Chunks

A text is cut into its dollar mathematics and what stands between.  Where only displays are
looked for, no display is overlooked: what stands before a display holds no two dollars in a
row, and what stands behind the last display holds two dollars only if no two more follow.
-/

namespace DollarMath

/-! ### Chunks of pieces -/

namespace Chunk

/-- Characters in front make the first chunk, or are put in front of its text. -/
theorem exists_ofPieces_map_char_append {s : Text} (hne : s ≠ [])
    (ps : List (Piece Dollars)) :
  ∃ w ks, ofPieces (s.map .char ++ ps) = ⟨false, s ++ w⟩ :: ks
  := by
  induction s with
  | nil => exact absurd rfl hne
  | cons c cs ih =>
    rw [List.map_cons, List.cons_append, ofPieces]
    by_cases hcs : cs = []
    · rw [hcs, List.map_nil, List.nil_append]
      split
      · next t ks _ => exact ⟨t, ks, rfl⟩
      · exact ⟨[], _, rfl⟩
    · obtain ⟨w, ks, hofPieces⟩ := ih hcs
      rw [hofPieces]
      exact ⟨w, ks, rfl⟩

/-- Dollar mathematics cuts the chunks. -/
theorem ofPieces_append_found (ps qs : List (Piece Dollars)) (m : Match Dollars) :
  ofPieces (ps ++ .found m :: qs) = ofPieces ps ++ ⟨true, m.source⟩ :: ofPieces qs
  := by
  induction ps with
  | nil => rfl
  | cons piece ps ih =>
    cases piece with
    | found m' =>
      rw [List.cons_append, ofPieces, ofPieces, ih]
      rfl
    | char c =>
      rw [List.cons_append, ofPieces, ofPieces, ih]
      cases ofPieces ps with
      | nil => rfl
      | cons k ks =>
        obtain ⟨isMath, t⟩ := k
        cases isMath <;> rfl

/-- Characters in front of dollar mathematics, or of nothing, are one chunk. -/
theorem ofPieces_map_char_append
    {s : Text} {ps : List (Piece Dollars)} (hne : s ≠ [])
    (h : ∀ k ∈ (ofPieces ps).head?, k.isMath = true) :
  ofPieces (s.map .char ++ ps) = ⟨false, s⟩ :: ofPieces ps
  := by
  induction s with
  | nil => exact absurd rfl hne
  | cons c cs ih =>
    rw [List.map_cons, List.cons_append, ofPieces]
    by_cases hcs : cs = []
    · rw [hcs, List.map_nil, List.nil_append]
      split
      · next t chunks heq =>
        have hhead := h ⟨false, t⟩ (by rw [heq]; rfl)
        cases hhead
      · rfl
    · rw [ih hcs]

/-- Characters are one chunk, if there are any. -/
theorem ofPieces_map_char {s : Text} (hne : s ≠ []) :
  ofPieces (s.map .char) = [⟨false, s⟩]
  := by
  have hchunks : ofPieces (s.map .char ++ []) = [⟨false, s⟩] :=
    ofPieces_map_char_append hne (by simp [ofPieces])
  rwa [List.append_nil] at hchunks

/-- A chunk is dollar mathematics that is found, or a text that is not empty. -/
theorem exists_of_mem_ofPieces {ps : List (Piece Dollars)} {k : Chunk} (h : k ∈ ofPieces ps) :
  (k.isMath = true ∧ ∃ m, .found m ∈ ps ∧ k.text = m.source) ∨ (k.isMath = false ∧ k.text ≠ [])
  := by
  induction ps generalizing k with
  | nil => cases h
  | cons piece ps ih =>
    have hlater : ∀ k ∈ ofPieces ps,
        (k.isMath = true ∧ ∃ m, .found m ∈ piece :: ps ∧ k.text = m.source)
          ∨ (k.isMath = false ∧ k.text ≠ []) := by
      intro k hk
      rcases ih hk with ⟨hmath, m, hm, htext⟩ | hprose
      · exact .inl ⟨hmath, m, List.mem_cons_of_mem _ hm, htext⟩
      · exact .inr hprose
    cases piece with
    | found m =>
      rcases List.mem_cons.mp h with rfl | h
      · exact .inl ⟨rfl, m, List.mem_cons_self, rfl⟩
      · exact hlater k h
    | char c =>
      rw [ofPieces] at h
      split at h
      · next t chunks heq =>
        rcases List.mem_cons.mp h with rfl | h
        · exact .inr ⟨rfl, List.cons_ne_nil c t⟩
        · apply hlater k
          rw [heq]
          apply List.mem_cons_of_mem _ h
      · rcases List.mem_cons.mp h with rfl | h
        · exact .inr ⟨rfl, List.cons_ne_nil c []⟩
        · exact hlater k h

/-- Of two neighbouring chunks one is dollar mathematics. -/
theorem isChain_ofPieces (ps : List (Piece Dollars)) :
  (ofPieces ps).IsChain fun a b => a.isMath = true ∨ b.isMath = true
  := by
  induction ps with
  | nil => exact List.IsChain.nil
  | cons piece ps ih =>
    cases piece with
    | found m =>
      rw [ofPieces, List.isChain_cons]
      exact ⟨fun k _ => .inl rfl, ih⟩
    | char c =>
      rw [ofPieces]
      split
      · next t chunks heq =>
        rw [heq, List.isChain_cons] at ih
        rw [List.isChain_cons]
        exact ih
      · next hprose =>
        rw [List.isChain_cons]
        refine ⟨?_, ih⟩
        rintro ⟨isMath, t⟩ hk
        right
        cases isMath with
        | true => rfl
        | false =>
          exfalso
          obtain ⟨ks, hks⟩ := List.head?_eq_some_iff.mp hk
          exact hprose t ks hks

variable {scope : Dollars.Scope} {t : Text} {k : Chunk}

/-- Dollar mathematics starts and ends with a dollar. -/
theorem ends_of_isMath (hk : k ∈ chunks scope t) (h : k.isMath = true) :
  k.text.head? = some '$' ∧ k.text.getLast? = some '$'
  := by
  rcases exists_of_mem_ofPieces hk with ⟨-, m, hm, htext⟩ | ⟨hprose, -⟩
  · obtain ⟨u, n, -, -, hread, htake⟩ := Reader.exists_of_mem_pieces (Reader.mem_findAll_iff.mpr hm)
    have hsource := htake.trans (Dollars.source_of_read hread).symm
    have hhead := m.value.head?_source []
    rw [List.append_nil] at hhead
    rw [htext, hsource]
    exact ⟨hhead, m.value.getLast?_source⟩
  · rw [h] at hprose
    cases hprose

/-- No chunk is empty. -/
theorem text_ne_nil (hk : k ∈ chunks scope t) :
  k.text ≠ []
  := by
  rcases exists_of_mem_ofPieces hk with ⟨hmath, -⟩ | ⟨-, hne⟩
  · intro hnil
    have hhead := (ends_of_isMath hk hmath).1
    rw [hnil] at hhead
    cases hhead
  · exact hne

end Chunk

/-! ### Displays in a text -/

/-- Two dollars, any text, and two more dollars. -/
structure IsDelimited (t : Text) : Prop where
  /-- Two dollars stand in front. -/
  front : ['$', '$'] <+: t
  /-- Two dollars stand at the end. -/
  back : ['$', '$'] <:+ t
  /-- None of the dollars counts twice. -/
  length_le : 4 ≤ t.length

theorem IsDelimited.ne_nil {t : Text} (h : IsDelimited t) :
  t ≠ []
  := by
  rintro rfl
  cases h.length_le

/-- A text between doubled dollars. -/
theorem isDelimited_iff {t : Text} :
  IsDelimited t ↔ ∃ body, t = ['$', '$'] ++ body ++ ['$', '$']
  := by
  constructor
  · rintro ⟨⟨u, rfl⟩, ⟨v, hv⟩, hle⟩
    have hback : ['$', '$'] <:+ u := by
      apply List.suffix_of_suffix_length_le ⟨v, hv⟩ (List.suffix_append _ _)
      simpa using hle
    obtain ⟨body, rfl⟩ := hback
    exact ⟨body, rfl⟩
  · rintro ⟨body, rfl⟩
    refine ⟨⟨body ++ ['$', '$'], rfl⟩, ⟨['$', '$'] ++ body, rfl⟩, ?_⟩
    simp

/-- A display stands in the text. -/
def HoldsDisplay (t : Text) : Prop :=
  ∃ d, IsDelimited d ∧ d <:+: t

/-- A text without doubled dollars holds no display. -/
theorem not_holdsDisplay_of_not_infix {t : Text} (h : ¬ ['$', '$'] <:+: t) :
  ¬ HoldsDisplay t
  := by
  rintro ⟨d, hd, hinfix⟩
  apply h
  apply hd.front.isInfix.trans hinfix

namespace Dollars

/-- Two dollars start a display if two dollars follow. -/
theorem not_passes_of_infix {scope : Scope} {p : Place} {t : Text}
    (h : ['$', '$'] <:+: t) :
  ¬ (read scope).Passes p ('$' :: '$' :: t)
  := by
  intro hpass
  cases hbody : Pattern.upTo (.literal ['$', '$']) t with
  | none => exact (Pattern.upTo_literal_eq_none_iff (List.cons_ne_nil _ _)).mp hbody h
  | some r =>
    apply hpass (.display r.1) (r.1.length + 3)
    rw [read, hbody]
    rfl

/-- Where no display starts, nothing is read. -/
theorem passes_displays_iff {p : Place} {t : Text} :
  (read .displays).Passes p t ↔ ∀ d, IsDelimited d → ¬ d <+: t
  := by
  constructor
  · rintro hpass d hd ⟨rest, rfl⟩
    obtain ⟨body, rfl⟩ := isDelimited_iff.mp hd
    have hclose : ['$', '$'] <:+: body ++ ['$', '$'] ++ rest := ⟨body, rest, rfl⟩
    exact not_passes_of_infix hclose hpass
  · intro h
    rw [reads_displays.passes_iff]
    rintro _ ⟨body, rfl, -⟩ -
    apply h
    apply isDelimited_iff.mpr ⟨body, rfl⟩

/-- The reader finds nothing in a text exactly when no display stands in it, wherever the text
stands. -/
theorem forall_passes_displays_iff {p : Place} {t : Text} :
  (∀ u c v, t = u ++ c :: v → (read .displays).Passes (p.after u) (c :: v)) ↔ ¬ HoldsDisplay t
  := by
  constructor
  · rintro hpass ⟨d, hd, u, v, rfl⟩
    obtain ⟨c, cs, rfl⟩ := List.exists_cons_of_ne_nil hd.ne_nil
    have hfront := passes_displays_iff.mp (hpass u c (cs ++ v) (List.append_assoc _ _ _))
    apply hfront _ hd
    apply List.prefix_append
  · rintro h u c v rfl
    rw [passes_displays_iff]
    intro d hd hfront
    apply h
    exact ⟨d, hd, hfront.isInfix.trans (List.suffix_append u _).isInfix⟩

/-- Before a display that is read the dollars stand alone: two of them would have opened a display
earlier. -/
theorem not_infix_of_passes {p : Place} {g t : Text}
    (hgap : ∀ u c v, g = u ++ c :: v → (read .displays).Passes (p.after u) (c :: (v ++ t)))
    (ht : ['$', '$'] <+: t) :
  ¬ ['$', '$'] <:+: g
  := by
  rintro ⟨u, v, rfl⟩
  have hpass := hgap u '$' ('$' :: v) (List.append_assoc _ _ _)
  have hclose : ['$', '$'] <:+: v ++ t := ht.isInfix.trans (List.suffix_append v t).isInfix
  exact not_passes_of_infix hclose hpass

end Dollars

/-! ### Chunks between displays -/

/-- What holds of a text without displays, as one chunk, and is kept by one more display with
characters before it, holds of the chunks of every text. -/
theorem Chunk.displays_induction
    (P : Text → List Chunk → Prop)
    (plain : ∀ t, ¬ HoldsDisplay t → P t (ofPieces (t.map .char)))
    (display : ∀ g d t ks, ¬ ['$', '$'] <:+: g → IsDelimited d → P t ks →
      P (g ++ (d ++ t)) (ofPieces (g.map .char) ++ ⟨true, d⟩ :: ks))
    (t : Text) :
  P t (chunks .displays t)
  := by
  suffices ∀ p, P t (ofPieces ((Dollars.read .displays).piecesFrom 0 p t)) from this .start
  induction hn : t.length using Nat.strongRecOn generalizing t with
  | ind n ih =>
    subst hn
    intro p
    rcases (Dollars.read .displays).forall_passes_or_exists_isRead p t with
      hpass | ⟨g, m, n, rfl, hm, hgap⟩
    · rw [Reader.piecesFrom_of_forall_passes hpass]
      apply plain t (Dollars.forall_passes_displays_iff.mp hpass)
    · obtain ⟨⟨body, hvalue, -⟩, hsource⟩ := Dollars.reads_displays.of_isRead hm
      have hdelimited : IsDelimited m.source := by
        rw [hsource, hvalue]
        apply isDelimited_iff.mpr ⟨body, rfl⟩
      rw [Reader.piecesFrom_append_of_forall_passes hgap, hm.piecesFrom_eq, ofPieces_append_found]
      apply display
      · apply Dollars.not_infix_of_passes hgap
        apply hdelimited.front.trans (List.prefix_append _ _)
      · exact hdelimited
      · apply ih _ _ m.rest rfl
        have hle := hdelimited.length_le
        simp only [List.length_append]
        omega

/-- A text without displays is one chunk. -/
theorem chunks_of_not_holdsDisplay {t : Text} (hne : t ≠ []) (h : ¬ HoldsDisplay t) :
  chunks .displays t = [⟨false, t⟩]
  := by
  rw [chunks, Reader.pieces,
    Reader.piecesFrom_of_forall_passes (Dollars.forall_passes_displays_iff.mpr h),
    Chunk.ofPieces_map_char hne]

/-- The text `t` cut into displays and what stands between them. -/
structure IsDisplaySplit (t : Text) (ks : List Chunk) : Prop where
  /-- The chunks concatenate to the text. -/
  concat : ks.flatMap Chunk.text = t
  /-- No chunk is empty. -/
  ne_nil : ∀ k ∈ ks, k.text ≠ []
  /-- Of two neighbours one is a display. -/
  alternates : ks.IsChain fun a b => a.isMath = true ∨ b.isMath = true
  /-- The displays stand between two dollars on each side. -/
  delimited : ∀ k ∈ ks, k.isMath = true → IsDelimited k.text
  /-- Before a display the dollars stand alone. -/
  gap : ∀ k ∈ ks.dropLast, k.isMath = false → ¬ ['$', '$'] <:+: k.text
  /-- No display has been overlooked. -/
  closed : ∀ k ∈ ks, k.isMath = false → ¬ HoldsDisplay k.text

namespace IsDisplaySplit

variable {g d t : Text} {ks : List Chunk}

/-- One more chunk in front, which stands before a display if it is none. -/
theorem cons {k : Chunk} (h : IsDisplaySplit t ks) (hne : k.text ≠ [])
    (hdelimited : k.isMath = true → IsDelimited k.text)
    (hgap : k.isMath = false → ¬ ['$', '$'] <:+: k.text)
    (hnext : ∀ k' ∈ ks.head?, k.isMath = true ∨ k'.isMath = true) :
  IsDisplaySplit (k.text ++ t) (k :: ks)
  := by
  constructor
  · rw [List.flatMap_cons, h.concat]
  · exact List.forall_mem_cons.mpr ⟨hne, h.ne_nil⟩
  · exact List.isChain_cons.mpr ⟨hnext, h.alternates⟩
  · exact List.forall_mem_cons.mpr ⟨hdelimited, h.delimited⟩
  · cases ks with
    | nil =>
      intro k' hk'
      cases hk'
    | cons k' ks => exact List.forall_mem_cons.mpr ⟨hgap, h.gap⟩
  · have hclosed := fun hprose => not_holdsDisplay_of_not_infix (hgap hprose)
    exact List.forall_mem_cons.mpr ⟨hclosed, h.closed⟩

/-- A text without displays is one chunk, or empty. -/
theorem plain (h : ¬ HoldsDisplay t) :
  IsDisplaySplit t (Chunk.ofPieces (t.map .char))
  := by
  by_cases hne : t = []
  · rw [hne]
    have hall : ∀ P : Chunk → Prop, ∀ k ∈ ([] : List Chunk), P k := List.forall_mem_nil
    exact ⟨rfl, hall _, .nil, hall _, hall _, hall _⟩
  · rw [Chunk.ofPieces_map_char hne]
    exact ⟨by simp, by simpa, .singleton _, by simp, by simp, by simpa⟩

/-- One more display in front, with characters before it. -/
theorem display (hg : ¬ ['$', '$'] <:+: g) (hd : IsDelimited d) (h : IsDisplaySplit t ks) :
  IsDisplaySplit (g ++ (d ++ t)) (Chunk.ofPieces (g.map .char) ++ ⟨true, d⟩ :: ks)
  := by
  have hsplit : IsDisplaySplit (d ++ t) (⟨true, d⟩ :: ks) := by
    apply h.cons (k := ⟨true, d⟩) hd.ne_nil (fun _ => hd) (by simp)
    exact fun _ _ => .inl rfl
  by_cases hne : g = []
  · rw [hne]
    exact hsplit
  · rw [Chunk.ofPieces_map_char hne]
    apply hsplit.cons (k := ⟨false, g⟩) hne (by simp) (fun _ => hg)
    intro k hk
    right
    rw [← Option.mem_some.mp hk]

end IsDisplaySplit

/-- The chunks between displays lose nothing and overlook no display, and what stands between the
displays is a chunk of its own when it is cut again. -/
theorem isDisplaySplit_chunks (t : Text) :
  IsDisplaySplit t (chunks .displays t)
    ∧ ∀ k ∈ chunks .displays t, k.isMath = false → chunks .displays k.text = [⟨false, k.text⟩]
  := by
  have hsplit : IsDisplaySplit t (chunks .displays t) :=
    Chunk.displays_induction IsDisplaySplit (fun t => IsDisplaySplit.plain)
      (fun g d t ks => IsDisplaySplit.display) t
  use hsplit
  intro k hk hprose
  apply chunks_of_not_holdsDisplay (hsplit.ne_nil k hk) (hsplit.closed k hk hprose)

/-- An odd dollar stands between a display and two dollars that open none. -/
theorem isDisplaySplit_chunks_odd :
  let t := ['$', '$', '$', 'a', '$', '$', '$', ' ', '$', '$']
  let k : Chunk := ⟨false, ['$', ' ', '$', '$']⟩
  (k ∈ chunks .displays t ∧ k.isMath = false)
    ∧ chunks .displays t = [⟨true, ['$', '$', '$', 'a', '$', '$']⟩, k]
    ∧ IsDisplaySplit t (chunks .displays t) ∧ chunks .displays k.text = [k]
  := by
  intro t k
  have hk : k ∈ chunks .displays t := by decide
  exact ⟨⟨hk, rfl⟩, by decide, (isDisplaySplit_chunks t).1, (isDisplaySplit_chunks t).2 k hk rfl⟩

end DollarMath
