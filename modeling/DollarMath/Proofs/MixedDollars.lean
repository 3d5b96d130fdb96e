import DollarMath.Proofs.Chunks
import DollarMath.Proofs.MixedReaders

/-!
# Dollar mathematics with mixed line ends

The dollar mathematics of a text with mixed line ends is that of the text without its carriage
returns.  So a construct touches dollar mathematics in both texts or in neither, and the chunks of
the two texts are the same but for the carriage returns.
-/

namespace DollarMath

open LineEnds

namespace Dollars

/-- Dollar mathematics without the carriage returns in its body. -/
def dropReturns : Dollars → Dollars
  | display body => display (LineEnds.dropReturns body)
  | inline body => inline (LineEnds.dropReturns body)

/-! ### Reading -/

/-- A body is that of an inline formula with its carriage returns and without. -/
theorem isInlineBody_dropReturns {p p' : Place} {body : Text} (hp : p'.before = p.before)
    (hbody : IsMixed body) :
  isInlineBody p' (LineEnds.dropReturns body) = isInlineBody p body
  := by
  have hline : (LineEnds.dropReturns body).contains '\n' = body.contains '\n' := by
    rw [Bool.eq_iff_iff, List.contains_iff_mem, List.contains_iff_mem,
      mem_dropReturns (by decide)]
  rw [isInlineBody, isInlineBody, Place.escaped, Place.escaped, hp, hline,
    getLast?_dropReturns (isMixed_iff.mp hbody).2,
    hbody.isPaired.any_head?_dropReturns (by decide) (by decide)]

variable {p p' : Place} {t : Text}

/-- Dollar mathematics starts with a dollar. -/
theorem read_eq_none (scope : Scope) {c : Char} (hc : c ≠ '$') (p : Place) (cs : Text) :
  read scope p (c :: cs) = none
  := by
  rw [read.eq_def]
  split
  · next heq => exact absurd (List.cons.inj heq).1 hc
  · next heq => exact absurd (List.cons.inj heq).1 hc
  · rfl

/-- Nothing is read where no dollar stands. -/
theorem read_eq_none_of_head? (scope : Scope) (p : Place) {t : Text} (h : t.head? ≠ some '$') :
  read scope p t = none
  := by
  cases t with
  | nil => rfl
  | cons c cs =>
    apply read_eq_none
    rintro rfl
    exact h rfl

/-- What is read behind a single dollar. -/
theorem read_dollar_cons (scope : Scope) (p : Place) {cs : Text}
    (h : ¬ ['$', '$'] <+: '$' :: cs) :
  read scope p ('$' :: cs)
    = match scope with
      | .displays => none
      | .all =>
        let body := cs.takeWhile (· ≠ '$')
        match cs.drop body.length with
        | [] => none
        | _ :: after =>
          if isInlineBody p body && !after.head?.any isDigit then
            some (.inline body, body.length + 2)
          else none
  := by
  rw [read.eq_def]
  split
  · next cs' heq =>
    rw [(List.cons.inj heq).2] at h
    exact absurd ⟨cs', rfl⟩ h
  · next cs' _ heq =>
    obtain rfl := (List.cons.inj heq).2
    rfl
  · next hne => exact absurd rfl (hne cs)

/-- A display is read with its carriage returns and without. -/
theorem read_display_dropReturns (scope : Scope) (p p' : Place) {cs : Text} (hcs : IsPaired cs) :
  read scope p' ('$' :: '$' :: LineEnds.dropReturns cs)
    = (read scope p ('$' :: '$' :: cs)).map fun a =>
      (a.1.dropReturns, (LineEnds.dropReturns (('$' :: '$' :: cs).take a.2)).length)
  := by
  have hclose : Pattern.SeesThrough (.literal ['$', '$']) :=
    Pattern.seesThrough_literal (by simp)
  rw [read, read, hclose.upTo_dropReturns hcs, Option.map_map, Option.map_map]
  apply Option.map_congr
  rintro ⟨body, n⟩ hr
  obtain ⟨rest, rfl, hrest⟩ := Pattern.exists_of_upTo_eq_some hr
  obtain ⟨rfl, rest, rfl⟩ := Pattern.literal_eq_some_iff.mp hrest
  simp [dropReturns, List.take_append, List.take_of_length_le, dropReturns_cons]

/-- So is an inline formula. -/
theorem read_inline_dropReturns (hp : p'.before = p.before) {cs : Text} (hcs : IsPaired cs)
    (h : ¬ ['$', '$'] <+: '$' :: cs) (h' : ¬ ['$', '$'] <+: '$' :: LineEnds.dropReturns cs) :
  read .all p' ('$' :: LineEnds.dropReturns cs)
    = (read .all p ('$' :: cs)).map fun a =>
      (a.1.dropReturns, (LineEnds.dropReturns (('$' :: cs).take a.2)).length)
  := by
  rw [read_dollar_cons .all p' h', read_dollar_cons .all p h]
  dsimp only
  rw [LineEnds.takeWhile_dropReturns (by decide)]
  have hcat := List.takeWhile_append_dropWhile (p := (· ≠ '$')) (l := cs)
  have hend := List.head?_dropWhile_not (· ≠ '$') cs
  generalize cs.takeWhile (· ≠ '$') = body at hcat
  generalize cs.dropWhile (· ≠ '$') = tail at hcat hend
  subst hcat
  rw [dropReturns_append, List.drop_left, List.drop_left]
  cases tail with
  | nil => rfl
  | cons c after =>
    obtain rfl : c = '$' := by simpa using hend
    have hafter := hcs.of_isInfix (s := after) ⟨body ++ ['$'], [], by simp⟩
    rw [dropReturns_cons (by decide)]
    dsimp only
    rw [isInlineBody_dropReturns hp (hcs.isMixed_of_append_cons (by decide)),
      hafter.any_head?_dropReturns (by decide) (by decide)]
    split
    · simp [dropReturns, List.take_append, List.take_of_length_le, dropReturns_cons]
    · rfl

/-- All dollar mathematics is read with its carriage returns and without. -/
theorem read_dropReturns (scope : Scope) (hp : p'.before = p.before) (ht : IsPaired t) :
  read scope p' (LineEnds.dropReturns t)
    = (read scope p t).map fun a => (a.1.dropReturns, (LineEnds.dropReturns (t.take a.2)).length)
  := by
  have hdollar := ht.head?_dropReturns_iff (c := '$') (by decide)
  have hdisplay := ht.prefix_dropReturns_iff (w := ['$', '$']) (by simp)
  by_cases hc : t.head? = some '$'
  · obtain ⟨cs, rfl⟩ := List.head?_eq_some_iff.mp hc
    have hcs := (isPaired_cons.mp ht).2
    rw [dropReturns_cons (by decide)] at hdisplay ⊢
    by_cases h : ['$', '$'] <+: '$' :: cs
    · obtain ⟨cs, heq⟩ := h
      obtain rfl : '$' :: cs = _ := (List.cons.inj heq).2
      rw [dropReturns_cons (by decide)]
      exact read_display_dropReturns scope p p' (isPaired_cons.mp hcs).2
    · have h' := mt hdisplay.mp h
      cases scope with
      | displays =>
        rw [read_dollar_cons .displays p' h', read_dollar_cons .displays p h]
        rfl
      | all => exact read_inline_dropReturns hp hcs h h'
  · rw [read_eq_none_of_head? scope p hc, read_eq_none_of_head? scope p' (mt hdollar.mp hc)]
    rfl

/-- The dollar mathematics of a text without its carriage returns is that of the text. -/
theorem commutes_read (scope : Scope) (ht : IsMixed t) :
  Reader.Commutes dropReturns (read scope) (read scope) t
  where
  eq_none c hc p cs := by
    have hne : c ≠ '$' := by rcases hc with rfl | rfl <;> decide
    exact ⟨read_eq_none scope hne p cs, read_eq_none scope hne p cs⟩
  read u c cs heq hc hn := by
    subst heq
    have hu : u.getLast? ≠ some '\r' :=
      (isMixed_iff.mp (ht.isPaired.isMixed_of_append_cons hn)).2
    exact read_dropReturns scope (Place.before_after_dropReturns hu) ht.of_append_right.isPaired

end Dollars

/-! ### Outside dollar mathematics -/

/-- Spans touch in both texts or in neither, if no carriage return stands where they start. -/
theorem Span.touches_dropReturns {t : Text} {s : Span} {ds : List Span}
    (hs : ∃ c, t[s.start]? = some c ∧ c ≠ '\r')
    (hds : ∀ d ∈ ds, ∃ c, t[d.start]? = some c ∧ c ≠ '\r') :
  (s.dropReturns t).touches (ds.map (Span.dropReturns t)) = s.touches ds
  := by
  have hbefore : (ds.map (Span.dropReturns t)).takeWhile
        (fun d => d.start < (s.dropReturns t).stop)
      = (ds.takeWhile fun d => d.start < s.stop).map (Span.dropReturns t) := by
    induction ds with
    | nil => rfl
    | cons d ds ih =>
      obtain ⟨⟨c, hd, hc⟩, hds⟩ := List.forall_mem_cons.mp hds
      have hlt : (d.dropReturns t).start < (s.dropReturns t).stop ↔ d.start < s.stop :=
        position_lt_iff hd hc
      rw [List.map_cons, List.takeWhile_cons, List.takeWhile_cons, ih hds]
      simp only [hlt]
      split
      · rfl
      · rfl
  obtain ⟨c, hs, hc⟩ := hs
  rw [touches, touches, hbefore, List.getLast?_map, Option.any_map]
  congr 1
  funext d
  exact decide_eq_decide.mpr (position_lt_iff hs hc)

/-- The span of a match as it stands in the text without carriage returns. -/
theorem Match.span_dropReturns {α : Type} {t u : Text} (s : α → α) {m : Match α}
    (ht : t = u ++ (m.source ++ m.rest)) (hstart : m.start = u.length) :
  (m.dropReturns t s).span = m.span.dropReturns t
  := by
  have hstop : position t (m.start + m.source.length)
      = position t m.start + (LineEnds.dropReturns m.source).length := by
    rw [hstart, ← List.length_append, ht, position_append, ← List.append_assoc, position_append,
      LineEnds.dropReturns_append, List.length_append]
  rw [Match.span, Match.span, Span.dropReturns, hstop]
  rfl

namespace Reader.Commutes

variable {α : Type} {s : α → α} {r r' : Reader α} {t : Text}

/-- A match starts with a character that is no carriage return. -/
theorem exists_getElem?_start (h : Commutes s r r' t) {m : Match α} (hm : m ∈ r.findAll t) :
  ∃ c, t[m.start]? = some c ∧ c ≠ '\r'
  := by
  obtain ⟨u, n, ht, hstart, hread⟩ := exists_isRead_of_mem_findAll hm
  obtain ⟨c, cs, hsource, hc, -⟩ := h.exists_source_eq_cons hread
  use c
  refine ⟨?_, hc⟩
  rw [hstart, ht, hsource]
  simp

/-- The span of a match in the text without carriage returns. -/
theorem span_dropReturns {m : Match α} (hm : m ∈ r.findAll t) :
  (m.dropReturns t s).span = m.span.dropReturns t
  := by
  obtain ⟨u, n, ht, hstart, -⟩ := exists_isRead_of_mem_findAll hm
  exact Match.span_dropReturns s ht hstart

end Reader.Commutes

/-- The spans of dollar mathematics in the text without carriage returns. -/
theorem dollarSpans_dropReturns (scope : Dollars.Scope) {t : Text} (ht : IsMixed t) :
  dollarSpans scope (dropReturns t) = (dollarSpans scope t).map (Span.dropReturns t)
  := by
  rw [dollarSpans, dollarSpans, (Dollars.commutes_read scope ht).findAll_dropReturns, List.map_map,
    List.map_map]
  apply List.map_congr_left
  intro m hm
  exact Reader.Commutes.span_dropReturns hm

/-- A replacement outside dollar mathematics that writes the same for a match with and without
carriage returns does so for a text. -/
theorem Reader.Commutes.replaceOutside_dropReturns {α : Type} {s : α → α} {r r' : Reader α}
    {t : Text} (h : Commutes s r r' t) (ht : IsMixed t) (scope : Dollars.Scope)
    {f f' : Match α → Option Text}
    (hf : ∀ m ∈ r.findAll t, f' (m.dropReturns t s) = (f m).map dropReturns) :
  r'.replaceOutside scope f' (dropReturns t)
    = ⟨dropReturns (r.replaceOutside scope f t).text, (r.replaceOutside scope f t).count⟩
  := by
  rw [replaceOutside, replaceOutside, dollarSpans_dropReturns scope ht]
  apply h.replace_dropReturns
  intro m hm
  have htouches : (m.dropReturns t s).span.touches ((dollarSpans scope t).map (Span.dropReturns t))
      = m.span.touches (dollarSpans scope t) := by
    rw [Commutes.span_dropReturns hm]
    apply Span.touches_dropReturns (h.exists_getElem?_start hm)
    intro d hd
    obtain ⟨m', hm', rfl⟩ := List.mem_map.mp hd
    exact (Dollars.commutes_read scope ht).exists_getElem?_start hm'
  rw [htouches]
  split
  · rfl
  · exact hf m hm

/-! ### Chunks -/

namespace Chunk

/-- A chunk without its carriage returns. -/
def dropReturns (k : Chunk) : Chunk :=
  ⟨k.isMath, LineEnds.dropReturns k.text⟩

theorem ofPieces_char_cons (c : Char) (ps : List (Piece Dollars)) :
  ∃ t ks, ofPieces (.char c :: ps) = ⟨false, c :: t⟩ :: ks
  := by
  rw [ofPieces]
  split
  · next t ks _ => exact ⟨t, ks, rfl⟩
  · exact ⟨[], _, rfl⟩

/-- The chunks of pieces without their carriage returns, none of which stands alone. -/
theorem ofPieces_dropReturns (t : Text) (s : Dollars → Dollars) {ps : List (Piece Dollars)}
    (hps : IsMixed (ps.flatMap Piece.source))
    (hfound : ∀ m, .found m ∈ ps → m.source.head? = some '$') :
  ofPieces (ps.filterMap (Piece.dropReturns t s)) = (ofPieces ps).map dropReturns
  := by
  induction ps with
  | nil => rfl
  | cons piece ps ih =>
    have ih := ih (by rw [List.flatMap_cons] at hps; exact hps.of_append_right)
      fun m hm => hfound m (List.mem_cons_of_mem _ hm)
    cases piece with
    | found m =>
      have hpiece : Piece.dropReturns t s (.found m) = some (.found (m.dropReturns t s)) := rfl
      rw [List.filterMap_cons_some hpiece, ofPieces, ofPieces, ih]
      rfl
    | char c =>
      by_cases hc : c = '\r'
      · subst hc
        have hnext : (ps.flatMap Piece.source).head? = some '\n' := (isMixed_cons.mp hps).1 rfl
        rw [List.filterMap_cons_none rfl, ih]
        cases ps with
        | nil => cases hnext
        | cons piece ps =>
          cases piece with
          | found m =>
            rw [List.flatMap_cons, List.head?_append, Piece.source,
              hfound m (by simp)] at hnext
            cases hnext
          | char d =>
            obtain ⟨u, ks, hu⟩ := ofPieces_char_cons d ps
            have hcons : ofPieces (.char '\r' :: .char d :: ps)
                = ⟨false, '\r' :: d :: u⟩ :: ks := by rw [ofPieces, hu]
            rw [hcons, hu]
            rfl
      · have hpiece : Piece.dropReturns t s (.char c) = some (.char c) := if_neg hc
        rw [List.filterMap_cons_some hpiece, ofPieces, ofPieces, ih]
        rcases ofPieces ps with _ | ⟨⟨_ | _, u⟩, ks⟩
        · simp [dropReturns, dropReturns_cons hc]
        · simp [dropReturns, dropReturns_cons hc]
        · simp [dropReturns, dropReturns_cons hc]

variable {scope : Dollars.Scope} {t : Text} (ht : IsMixed t)
include ht

/-- A chunk of a text with mixed line ends has mixed line ends. -/
theorem isMixed_text {k : Chunk} (hk : k ∈ chunks scope t) :
  IsMixed k.text
  := by
  obtain ⟨ks, ks', hks⟩ := List.append_of_mem hk
  have hchain := isChain_ofPieces ((Dollars.read scope).pieces t)
  have htext := flatMap_text_chunks scope t
  rw [hks, List.flatMap_append, List.flatMap_cons] at htext
  rw [← htext] at ht
  have hrest := ht.of_append_right
  cases hmath : k.isMath with
  | true =>
    apply hrest.of_append_left
    rw [(ends_of_isMath hk hmath).2]
    decide
  | false =>
    cases ks' with
    | nil =>
      rw [List.flatMap_nil, List.append_nil] at hrest
      exact hrest
    | cons k' ks' =>
      rw [chunks] at hks
      rw [hks, List.isChain_append, List.isChain_cons_cons, hmath] at hchain
      have hmath' : k'.isMath = true := by simpa using hchain.2.1.1
      have hk' : k' ∈ chunks scope t := by
        rw [chunks, hks]
        simp
      obtain ⟨u, hu⟩ := List.head?_eq_some_iff.mp (ends_of_isMath hk' hmath').1
      rw [List.flatMap_cons, hu] at hrest
      exact hrest.isPaired.isMixed_of_append_cons (by decide)

end Chunk

/-- The chunks of a text without its carriage returns are those of the text without them. -/
theorem chunks_dropReturns (scope : Dollars.Scope) {t : Text} (ht : IsMixed t) :
  chunks scope (dropReturns t) = (chunks scope t).map Chunk.dropReturns
  := by
  rw [chunks, chunks, (Dollars.commutes_read scope ht).pieces_dropReturns]
  apply Chunk.ofPieces_dropReturns
  · rw [Reader.flatMap_source_pieces]
    exact ht
  · intro m hm
    obtain ⟨u, n, -, -, hread, htake⟩ := Reader.exists_of_mem_pieces (Reader.mem_findAll_iff.mpr hm)
    have hhead := m.value.head?_source []
    rw [List.append_nil, Dollars.source_of_read hread, ← htake] at hhead
    exact hhead

end DollarMath
