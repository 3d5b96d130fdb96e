import DollarMath.Proofs.Brackets
import DollarMath.Proofs.FenceScan
import DollarMath.Proofs.Form
import DollarMath.Proofs.Law
import DollarMath.Proofs.Pairing
import Mathlib.Data.List.Induction

/-!
# Fences through the steps

What each step of the conversion does to the fences of a text.  A display stands on lines of
its own, so its body may bring a fence to the start of a line; nothing else does.  And no step
takes a fence away, since every fence that a display has brought follows the dollars that open
the display.
-/

namespace DollarMath

open FenceScan

namespace FenceScan

variable {g : Bool} {s : FenceScan}

/-- The state at the body of a display. -/
def opened (guarded : Bool) : FenceScan :=
  if guarded then rest else start

/-- Between two texts, of which the first one leads to the state `p` and the second one holds
no mark, the fences are those of the text between them. -/
theorem scan_wrapped_eq_fence_iff
    {p : FenceScan} {u v : Text} (body : Text)
    (hu : s ≠ fence → scan g s u = p) (hv : ∀ c ∈ v, Fence.isMark c = false) :
  scan g s (u ++ (body ++ v)) = fence ↔ s = fence ∨ scan g p body = fence
  := by
  rw [scan_append, scan_append, scan_eq_fence_iff hv]
  by_cases hs : s = fence
  · rw [hs, scan_fence, scan_fence]
    simp
  · rw [hu hs]
    simp [hs]

/-- A text without marks that leads to the state `p` wherever no fence has been found. -/
structure LeadsTo (t : Text) (p : FenceScan) : Prop where
  /-- The text holds no mark. -/
  not_isMark : ∀ c ∈ t, Fence.isMark c = false
  /-- The state after the text. -/
  scan_eq : ∀ (g : Bool) {s : FenceScan}, s ≠ fence → scan g s t = p

/-- After a plain character, the line is no fence. -/
theorem leadsTo_concat
    {u : Text} {c : Char} (hu : ∀ c ∈ u, Fence.isMark c = false) (hc : isPlain c = true) :
  LeadsTo (u ++ [c]) rest
  where
  not_isMark := by
    simp only [isPlain, Bool.and_eq_true, Bool.not_eq_true'] at hc
    rw [List.forall_mem_append, List.forall_mem_singleton]
    exact ⟨hu, hc.1.2⟩
  scan_eq g s h := by
    rw [scan_append, scan_cons, scan_nil]
    apply step_of_isPlain hc
    rw [Ne, scan_eq_fence_iff hu]
    apply h

/-- A text without fence marks goes on from where the text before it leads. -/
theorem LeadsTo.append
    {t u : Text} {p q : FenceScan} (h : LeadsTo t p)
    (hu : ∀ c ∈ u, Fence.isMark c = false) (hq : ∀ g, scan g p u = q) :
  LeadsTo (t ++ u) q
  where
  not_isMark := by
    rw [List.forall_mem_append]
    exact ⟨h.not_isMark, hu⟩
  scan_eq g s hs := by
    rw [scan_append, h.scan_eq g hs, hq]

/-- After such a text at the end of another one, a fence has been found or the state is `p`. -/
theorem LeadsTo.scan_cases {t : Text} {p : FenceScan} (h : LeadsTo t p) (u : Text) :
  scan g s (u ++ t) = fence ∨ scan g s (u ++ t) = p
  := by
  rw [scan_append]
  by_cases hs : scan g s u = fence
  · left
    rw [hs, scan_fence]
  · right
    apply h.scan_eq g hs

/-- A text that ends with a plain character or a dollar leads to a fence, or to the state after
that character. -/
theorem scan_concat (u : Text) {c : Char} (hc : isPlain c = true ∨ c = '$') :
  scan g s (u ++ [c]) = fence ∨ scan g s (u ++ [c]) = after g c
  := by
  rw [scan_append, scan_cons, scan_nil]
  by_cases h : scan g s u = fence
  · left
    rw [h]
    rfl
  · right
    apply step_eq_after hc h

/-- A state on no fence is below another one that is found or on no fence either, if it is no
found fence where the other one is none. -/
theorem le_of_ends
    {s' : FenceScan} (hs : s = fence ∨ s ≤ rest) (hs' : s' = fence ∨ s' = rest)
    (h : s = fence → s' = fence) :
  s ≤ s'
  := by
  rcases hs with hs | hs
  · rw [h hs]
    apply le_fence
  · rcases hs' with rfl | rfl
    · apply le_fence
    · apply hs

/-- Two states that are found fences or on no fence are equal if they are so at once. -/
theorem eq_of_ends
    {s' : FenceScan} (hs : s = fence ∨ s = rest) (hs' : s' = fence ∨ s' = rest)
    (h : s = fence ↔ s' = fence) :
  s = s'
  := by
  rcases hs' with rfl | rfl
  · apply h.mpr rfl
  · apply hs.resolve_left
    rw [h]
    simp

/-- The opening line of a display. -/
theorem scan_dollars (h : s ≠ fence) :
  scan g s ['$', '$', '\n'] = opened g
  := by
  have hafter : after g '$' ≠ fence := ne_fence_of_le_rest after_le_rest
  rw [scan_cons, scan_cons, scan_cons, scan_nil, step_dollar h, step_dollar hafter]
  cases g with
  | true => rfl
  | false => rfl

/-! ### Texts that are written -/

/-- The fences of a display are those of its body, read from the start of a line. -/
theorem scan_displayOf_eq_fence_iff (body : Text) :
  scan g s (displayOf body) = fence ↔ s = fence ∨ scan g (opened g) (trim body) = fence
  := by
  rw [displayOf, List.append_assoc]
  apply scan_wrapped_eq_fence_iff
  · apply scan_dollars
  · apply not_isMark_of_all rfl

/-- A display leads to a fence, or to a dollar. -/
theorem scan_append_displayOf (u body : Text) :
  scan g s (u ++ displayOf body) = fence ∨ scan g s (u ++ displayOf body) = after g '$'
  := by
  have h := scan_concat (g := g) (s := s)
    (u ++ (['$', '$', '\n'] ++ trim body ++ ['\n', '$'])) (c := '$') (.inr rfl)
  simpa [displayOf] using h

end FenceScan

/-! ### Enclosures -/

theorem IsSpaces.not_isMark {t : Text} (h : IsSpaces t) :
  ∀ c ∈ t, Fence.isMark c = false
  := h.avoids fun _ => not_isMark_of_isBlank

theorem IsLineEnd.not_isMark {t : Text} (h : IsLineEnd t) :
  ∀ c ∈ t, Fence.isMark c = false
  := h.avoids fun _ => not_isMark_of_isBlank

theorem IsMarker.not_isMark {t : Text} (h : IsMarker t) :
  ∀ c ∈ t, Fence.isMark c = false
  := by
  apply h.avoids fun _ => not_isMark_of_isBlank
  intro c hc
  rw [Bool.eq_false_iff]
  intro hmark
  simp only [Fence.isMark, Bool.or_eq_true, decide_eq_true_eq] at hmark
  rcases hmark with rfl | rfl
  · exact absurd hc (by decide)
  · exact absurd hc (by decide)

/-- Spaces stay within the line. -/
theorem FenceScan.LeadsTo.append_spaces {t u : Text} (h : LeadsTo t rest) (hu : IsSpaces u) :
  LeadsTo (t ++ u) rest
  := by
  apply h.append hu.not_isMark
  intro g
  apply scan_rest_of_isSpaceOrTab hu

/-- A line end starts the next one. -/
theorem FenceScan.LeadsTo.append_lineEnd {t u : Text} (h : LeadsTo t rest) (hu : IsLineEnd u) :
  LeadsTo (t ++ u) start
  := by
  apply h.append hu.not_isMark
  intro g
  rcases hu with rfl | rfl
  · cases g <;> rfl
  · cases g <;> rfl

/-- The state at the body of an enclosure. -/
def Delimiter.entry : Delimiter → FenceScan
  | quotedDisplay | quotedBracket | bracketBlock => start
  | display | bracket | inline => rest

/-- A quoted block has its body at the start of a line. -/
theorem QuotedForm.leadsTo
    {w : Text} {e : Enclosure} (h : QuotedForm (w ++ ['[']) (w ++ [']']) e)
    (hw : ∀ c ∈ w, Fence.isMark c = false) :
  LeadsTo (e.indent ++ e.marker ++ e.opening) start ∧ LeadsTo e.closing rest
  := by
  obtain ⟨⟨hindent, hmarker⟩, ⟨s₁, s₂, n, ho, hs₁, hs₂, hn⟩, ⟨n', s₃, s₄, hc, hn', hs₃, hs₄⟩⟩ := h
  have hquote : ∀ c ∈ ['>'], Fence.isMark c = false := not_isMark_of_all rfl
  constructor
  · have hbefore : e.indent ++ e.marker ++ e.opening
        = ((['>'] ++ (s₁ ++ w)) ++ ['[']) ++ s₂ ++ n := by
      simp [hindent, hmarker, ho]
    rw [hbefore]
    apply LeadsTo.append_lineEnd _ hn
    apply LeadsTo.append_spaces _ hs₂
    apply leadsTo_concat _ (by decide)
    simp only [List.forall_mem_append]
    exact ⟨hquote, hs₁.not_isMark, hw⟩
  · have hafter : e.closing = ((n' ++ (['>'] ++ (s₃ ++ w))) ++ [']']) ++ s₄ := by
      simp [hc]
    rw [hafter]
    apply LeadsTo.append_spaces _ hs₄
    apply leadsTo_concat _ (by decide)
    simp only [List.forall_mem_append]
    exact ⟨hn'.not_isMark, hquote, hs₃.not_isMark, hw⟩

/-- A bracket block has its body at the start of a line. -/
theorem BlockForm.leadsTo {e : Enclosure} (h : BlockForm e) :
  LeadsTo (e.indent ++ e.marker ++ e.opening) start ∧ LeadsTo e.closing rest
  := by
  obtain ⟨hindent, hmarker, ⟨s, n, ho, hs, hn⟩, ⟨n', s₁, s₂, hc, hn', hs₁, hs₂⟩⟩ := h
  constructor
  · have hbefore : e.indent ++ e.marker ++ e.opening
        = ((e.indent ++ e.marker) ++ ['[']) ++ s ++ n := by
      simp [ho]
    rw [hbefore]
    apply LeadsTo.append_lineEnd _ hn
    apply LeadsTo.append_spaces _ hs
    apply leadsTo_concat _ (by decide)
    simp only [List.forall_mem_append]
    exact ⟨hindent.not_isMark, hmarker.not_isMark⟩
  · have hafter : e.closing = ((n' ++ s₁) ++ [']']) ++ s₂ := by
      simp [hc]
    rw [hafter]
    apply LeadsTo.append_spaces _ hs₂
    apply leadsTo_concat _ (by decide)
    simp only [List.forall_mem_append]
    exact ⟨hn'.not_isMark, hs₁.not_isMark⟩

namespace Delimiter

/-- An enclosure holds no mark outside its body. -/
theorem leadsTo {d : Delimiter} {e : Enclosure} (h : d.HasForm e) :
  LeadsTo (e.indent ++ e.marker ++ e.opening) d.entry ∧ LeadsTo e.closing rest
  := by
  have hnil : ∀ c ∈ [], Fence.isMark c = false := not_isMark_of_all rfl
  have hbackslash : ∀ c ∈ ['\\'], Fence.isMark c = false := not_isMark_of_all rfl
  cases d with
  | quotedDisplay => exact QuotedForm.leadsTo (w := ['\\']) h hbackslash
  | quotedBracket => exact QuotedForm.leadsTo (w := []) h hnil
  | bracketBlock => exact BlockForm.leadsTo h
  | display =>
    obtain ⟨body, rfl⟩ : ∃ body, e = ⟨[], [], ['\\', '['], body, ['\\', ']']⟩ := ⟨_, h⟩
    constructor
    · apply leadsTo_concat hbackslash (by decide)
    · apply leadsTo_concat hbackslash (by decide)
  | bracket =>
    obtain ⟨body, rfl⟩ : ∃ body, e = ⟨[], [], ['['], body, [']']⟩ := ⟨_, h.1⟩
    constructor
    · apply leadsTo_concat hnil (by decide)
    · apply leadsTo_concat hnil (by decide)
  | inline =>
    obtain ⟨body, rfl⟩ : ∃ body, e = ⟨[], [], ['\\', '('], body, ['\\', ')']⟩ := ⟨_, h.1⟩
    constructor
    · apply leadsTo_concat hbackslash (by decide)
    · apply leadsTo_concat hbackslash (by decide)

variable {d : Delimiter} {e : Enclosure} (h : d.HasForm e) {g : Bool} {s : FenceScan}
include h

/-- The fences of an enclosure are those of its body. -/
theorem scan_source_eq_fence_iff :
  scan g s e.source = fence ↔ s = fence ∨ scan g d.entry e.body = fence
  := by
  rw [Enclosure.source, List.append_assoc]
  apply scan_wrapped_eq_fence_iff
  · apply (leadsTo h).1.scan_eq g
  · apply (leadsTo h).2.not_isMark

/-- After an enclosure a fence has been found, or the line is none. -/
theorem scan_source :
  scan g s e.source = fence ∨ scan g s e.source = rest
  := by
  apply (leadsTo h).2.scan_cases

end Delimiter

/-! ### Replacements -/

section Replacement

variable {α : Type} {r : Reader α} {f : Match α → Option Text} {t : Text} {g : Bool}

/-- If no replaced match makes a fence, the replacement makes none. -/
theorem scan_replace_le
    (h : ∀ m ∈ r.findAll t, ∀ v, f m = some v → ∀ s, scan g s v ≤ scan g s m.source)
    (s : FenceScan) :
  scan g s (r.replace f t).text ≤ scan g s t
  := by
  suffices ∀ s s', s ≤ s' → scan g s (r.replace f t).text ≤ scan g s' t from
    this s s (le_refl s)
  apply r.replace_induction f fun u w _ => ∀ s s', s ≤ s' → scan g s w ≤ scan g s' u
  · intro s s' hs
    apply hs
  · intro c u w _ ih s s' hs
    apply ih
    apply step_mono id hs
  · intro m _ _ u w _ ih s s' hs
    rw [scan_append, scan_append]
    apply ih
    apply scan_mono id hs
  · intro m hm v hv u w _ ih s s' hs
    rw [scan_append, scan_append]
    apply ih
    apply le_trans (h m hm v hv s)
    apply scan_mono id hs

/-- If the replaced matches keep their fences, the text keeps them. -/
theorem scan_replace_eq
    (h : ∀ m ∈ r.findAll t, ∀ v, f m = some v → ∀ s, scan g s v = scan g s m.source)
    (s : FenceScan) :
  scan g s (r.replace f t).text = scan g s t
  := by
  suffices ∀ s, scan g s (r.replace f t).text = scan g s t from this s
  apply r.replace_induction f fun u w _ => ∀ s, scan g s w = scan g s u
  · intro s
    rfl
  · intro c u w _ ih s
    apply ih
  · intro m _ _ u w _ ih s
    rw [scan_append, scan_append, ih]
  · intro m hm v hv u w _ ih s
    rw [scan_append, scan_append, ih, h m hm v hv]

/-- A fence that is written for a match is in the text. -/
theorem scan_replace_eq_fence
    {m : Match α} {v : Text}
    (hm : m ∈ r.findAll t) (hv : f m = some v) (hfence : ∀ s, scan g s v = fence)
    (s : FenceScan) :
  scan g s (r.replace f t).text = fence
  := by
  obtain ⟨a, b, hpieces⟩ := List.append_of_mem (Reader.mem_findAll_iff.mp hm)
  have hwritten : Piece.written f (.found m) = v := by rw [Piece.written, hv, Option.getD_some]
  rw [Reader.text_replace, hpieces, List.flatMap_append, List.flatMap_cons, hwritten,
    scan_append, scan_append, hfence, scan_fence]

end Replacement

/-! ### Quoted blocks -/

/-- A quoted line is no fence. -/
theorem FenceScan.scan_quoted_le_rest
    {g : Bool} {s : FenceScan} {w : Text} (hw : '\n' ∉ w) (h : s ≠ fence) :
  scan g s ('>' :: w) ≤ rest
  := by
  have hquote : isPlain '>' = true := by decide
  rw [scan_cons, step_of_isPlain hquote h]
  apply scan_le_rest hw
  apply le_refl

/-- A quoted line in place of an enclosure makes no fence. -/
theorem Delimiter.scan_quoted_le_source
    {d : Delimiter} {e : Enclosure} (h : d.HasForm e) {w : Text} (hw : '\n' ∉ w)
    (g : Bool) (s : FenceScan) :
  scan g s ('>' :: w) ≤ scan g s e.source
  := by
  by_cases hs : s = fence
  · rw [hs, scan_fence, scan_fence]
  · have hline := scan_quoted_le_rest (g := g) hw hs
    apply le_of_ends (.inr hline) (scan_source h)
    intro hfence
    exact absurd hfence (ne_fence_of_le_rest hline)

/-- The conversion makes no fence.  With the guard, fences in the line after a dollar do not
count. -/
def NoNewFence (g : Bool) (t : Text) (c : Converted) : Prop :=
  ∀ s, scan g s c.text ≤ scan g s t

/-- To make no new fence is a law. -/
theorem noNewFence_law (g : Bool) :
  Law (NoNewFence g)
  where
  unchanged t s := le_refl (scan g s t)
  andThen {t a f} ha hf s := by
    rw [Converted.text_andThen]
    apply le_trans (hf s) (ha s)
  append {s t a b} ha hb s' := by
    rw [Converted.text_append, scan_append, scan_append]
    apply le_trans (hb _)
    apply scan_mono id (ha s')

/-- The conversion of quoted displays makes none. -/
theorem convertQuotedDisplays_noNewFence (g : Bool) :
  convertQuotedDisplays.Obeys (NoNewFence g)
  := by
  intro t
  apply scan_replace_le
  intro m hm v hv s
  obtain rfl := Option.some.inj hv
  obtain ⟨hform, hsource⟩ := Delimiter.form_of_mem_findAll hm
  rw [hsource]
  apply Delimiter.scan_quoted_le_source hform
  simp [Quote.newline_not_mem_unquote]

/-- Nor does the collapsing of quoted brackets. -/
theorem collapseQuotedBrackets_noNewFence (g : Bool) :
  collapseQuotedBrackets.Obeys (NoNewFence g)
  := by
  intro t
  apply scan_replace_le
  intro m hm v hv s
  obtain rfl := eq_of_ite_none_eq_some hv
  obtain ⟨hform, hsource⟩ := Delimiter.form_of_mem_findAll hm
  rw [hsource]
  apply Delimiter.scan_quoted_le_source hform
  simp [Quote.newline_not_mem_unquote]

/-! ### Displays -/

namespace Delimiter

/-- A body starts in the rest of a line, or starts a line. -/
theorem entry_cases (d : Delimiter) :
  d.entry = rest ∨ d.entry = start
  := by
  cases d <;> simp [entry]

section Display

variable {d : Delimiter} {e : Enclosure} (h : d.HasForm e) {u : Text}
  (hu : ∀ c ∈ u, Fence.isMark c = false) (s : FenceScan)
include h hu

/-- A display in place of an enclosure makes no fence, but for the first line of its body. -/
theorem scan_true_displayOf_le_source :
  scan true s (u ++ displayOf e.body) ≤ scan true s e.source
  := by
  apply le_of_ends
  · apply (scan_append_displayOf u e.body).imp_right
    intro hends
    apply hends.trans_le after_le_rest
  · apply scan_source h
  · intro hfence
    rw [scan_append, scan_displayOf_eq_fence_iff, scan_eq_fence_iff hu] at hfence
    rw [scan_source_eq_fence_iff h]
    apply hfence.imp_right
    intro hbody
    apply eq_fence_of_le _ (scan_eq_fence_of_trim (le_refl rest) hbody)
    apply scan_mono id
    apply rest_le
    rcases entry_cases d with hd | hd
    · simp [hd]
    · simp [hd]

/-- A display in place of an enclosure keeps the fences, unless the body stood in the middle
of a line and opens with a fence. -/
theorem scan_false_displayOf_eq_source
    (hopens : d.entry = rest → Fence.opens e.body = false) :
  scan false s (u ++ displayOf e.body) = scan false s e.source
  := by
  apply eq_of_ends
  · apply scan_append_displayOf
  · apply scan_source h
  · rw [scan_append, scan_displayOf_eq_fence_iff, scan_eq_fence_iff hu,
      scan_source_eq_fence_iff h]
    apply or_congr_right
    apply (scan_start_trim_eq_fence_iff e.body).trans
    rcases entry_cases d with hd | hd
    · rw [hd, scan_start_eq_fence_iff, hopens hd]
      simp
    · rw [hd]

end Display

end Delimiter

/-- A display whose body opens with a fence holds a fence. -/
theorem scan_displayOf_of_opens {body : Text} (h : Fence.opens body = true) (s : FenceScan) :
  scan false s (displayOf body) = fence
  := by
  rw [scan_displayOf_eq_fence_iff]
  right
  apply (scan_start_trim_eq_fence_iff body).mpr
  apply scan_start_of_opens h

/-- After displays have been written for enclosures, the fences are the old ones and those
that bodies open with. -/
theorem scan_replace_displayOf_eq_fence_iff
    {d : Delimiter} {f : Match Enclosure → Option Text}
    (hf : ∀ m v, f m = some v → v = displayOf m.value.body) (t : Text) (s : FenceScan) :
  scan false s (d.reader.replace f t).text = fence
    ↔ scan false s t = fence
      ∨ ∃ m ∈ d.reader.findAll t, (f m).isSome = true ∧ Fence.opens m.value.body = true
  := by
  by_cases hopens : ∃ m ∈ d.reader.findAll t,
      (f m).isSome = true ∧ Fence.opens m.value.body = true
  · obtain ⟨m, hm, hsome, hbody⟩ := hopens
    obtain ⟨v, hv⟩ := Option.isSome_iff_exists.mp hsome
    have hfence : ∀ s, scan false s v = fence := by
      intro s
      rw [hf m v hv]
      apply scan_displayOf_of_opens hbody
    constructor
    · intro _
      right
      exact ⟨m, hm, hsome, hbody⟩
    · intro _
      apply scan_replace_eq_fence hm hv hfence
  · rw [or_iff_left hopens, scan_replace_eq]
    intro m hm v hv s
    obtain ⟨hform, hsource⟩ := Delimiter.form_of_mem_findAll hm
    rw [hf m v hv, hsource]
    apply Delimiter.scan_false_displayOf_eq_source hform (u := []) (by simp)
    intro _
    rw [Bool.eq_false_iff]
    intro hbody
    apply hopens
    exact ⟨m, hm, by simp [hv], hbody⟩

/-- The conversion of displays makes no fence but from a body. -/
theorem convertDisplays_noNewFence :
  convertDisplays.Obeys (NoNewFence true)
  := by
  intro t
  apply scan_replace_le
  intro m hm v hv s
  obtain rfl := Option.some.inj hv
  obtain ⟨hform, hsource⟩ := Delimiter.form_of_mem_findAll hm
  rw [hsource]
  apply Delimiter.scan_true_displayOf_le_source hform (u := []) (by simp)

/-- The fences after displays have been converted. -/
theorem scan_convertDisplays_eq_fence_iff (t : Text) (s : FenceScan) :
  scan false s (convertDisplays t).text = fence
    ↔ scan false s t = fence
      ∨ ∃ m ∈ Delimiter.display.reader.findAll t, Fence.opens m.value.body = true
  := by
  rw [convertDisplays, Replaced.block]
  apply (scan_replace_displayOf_eq_fence_iff (d := .display) _ t s).trans
  · simp
  · intro m v hv
    exact (Option.some.inj hv).symm

/-- Nor does that of brackets. -/
theorem convertBrackets_noNewFence :
  convertBrackets.Obeys (NoNewFence true)
  := by
  intro t
  apply scan_replace_le
  intro m hm v hv s
  obtain rfl := eq_of_ite_none_ite_eq_some hv
  obtain ⟨hform, hsource⟩ := Delimiter.form_of_mem_findAll hm
  rw [hsource]
  apply Delimiter.scan_true_displayOf_le_source hform (u := []) (by simp)

/-- The fences after brackets have been converted. -/
theorem scan_convertBrackets_eq_fence_iff (t : Text) (s : FenceScan) :
  scan false s (convertBrackets t).text = fence
    ↔ scan false s t = fence
      ∨ ∃ m ∈ Delimiter.bracket.reader.findAll t,
        isRewritten t m = true ∧ Fence.opens m.value.body = true
  := by
  rw [convertBrackets_eq_replace]
  apply (scan_replace_displayOf_eq_fence_iff (d := .bracket) _ t s).trans
  · simp
  · intro m v hv
    obtain ⟨-, hv⟩ := Option.ite_none_right_eq_some.mp hv
    exact (Option.some.inj hv).symm

/-- Nor does that of bracket blocks. -/
theorem convertBracketBlocks_noNewFence :
  convertBracketBlocks.Obeys (NoNewFence true)
  := by
  intro t
  apply scan_replace_le
  intro m hm v hv s
  obtain rfl := eq_of_ite_none_ite_eq_some hv
  obtain ⟨hform, hsource⟩ := Delimiter.form_of_mem_findAll hm
  rw [hsource]
  apply Delimiter.scan_true_displayOf_le_source hform
  apply (BlockForm.marker hform).not_isMark

/-- Bracket blocks have their body at the start of a line already, so their conversion keeps
the fences. -/
theorem scan_convertBracketBlocks_eq (t : Text) (s : FenceScan) :
  scan false s (convertBracketBlocks t).text = scan false s t
  := by
  apply scan_replace_eq
  intro m hm v hv s
  obtain rfl := eq_of_ite_none_ite_eq_some hv
  obtain ⟨hform, hsource⟩ := Delimiter.form_of_mem_findAll hm
  rw [hsource]
  apply Delimiter.scan_false_displayOf_eq_source hform
  · apply (BlockForm.marker hform).not_isMark
  · intro hentry
    cases hentry

/-! ### Inline formulas -/

/-- The conversion makes no fence, and if the fences of the text all follow dollars it keeps
them. -/
def KeepsFences (t : Text) (c : Converted) : Prop :=
  NoNewFence true t c
    ∧ ∀ s s', scan true s' t ≠ fence → scan false s c.text = scan false s t

/-- To keep fences is a law. -/
theorem keepsFences_law :
  Law KeepsFences
  where
  unchanged t := ⟨(noNewFence_law true).unchanged t, fun _ _ _ => rfl⟩
  andThen {t a f} ha hf := by
    constructor
    · apply (noNewFence_law true).andThen ha.1 hf.1
    · intro s s' hguard
      rw [Converted.text_andThen, hf.2 s s', ha.2 s s' hguard]
      apply mt (eq_fence_of_le (ha.1 s')) hguard
  append {s t a b} ha hb := by
    constructor
    · apply (noNewFence_law true).append ha.1 hb.1
    · intro r r' hguard
      rw [scan_append] at hguard
      have hs : scan true r' s ≠ fence := by
        intro hs
        rw [hs, scan_fence] at hguard
        apply hguard rfl
      rw [Converted.text_append, scan_append, scan_append, ha.2 r r' hs, hb.2 _ _ hguard]

/-- If no replaced match makes a fence, and each keeps its fences under the guard, then so
does the replacement. -/
theorem keepsFences_replace
    {α : Type} {r : Reader α} {f : Match α → Option Text} {t : Text}
    (hle : ∀ m ∈ r.findAll t, ∀ v, f m = some v → ∀ s, scan true s v ≤ scan true s m.source)
    (heq : ∀ m ∈ r.findAll t, ∀ v, f m = some v →
      ∀ s s', scan true s' m.source ≠ fence → scan false s v = scan false s m.source) :
  KeepsFences t (r.replace f t).inline
  := by
  constructor
  · apply scan_replace_le hle
  · apply r.replace_induction f fun u w _ =>
      ∀ s s', scan true s' u ≠ fence → scan false s w = scan false s u
    · intro s s' _
      rfl
    · intro c u w _ ih s s' hguard
      apply ih
      apply hguard
    · intro m _ _ u w _ ih s s' hguard
      rw [scan_append] at hguard
      rw [scan_append, scan_append, ih _ _ hguard]
    · intro m hm v hv u w _ ih s s' hguard
      rw [scan_append] at hguard
      have hsource : scan true s' m.source ≠ fence := by
        intro hfence
        rw [hfence, scan_fence] at hguard
        apply hguard rfl
      rw [scan_append, scan_append, heq m hm v hv s s' hsource, ih _ _ hguard]

/-- A formula within a line holds no fence. -/
theorem scan_inlineOf
    {g : Bool} {s : FenceScan} {body : Text} (hbody : '\n' ∉ body) (h : s ≠ fence) :
  scan g s (inlineOf body) ≤ rest
  := by
  change scan g s ('$' :: (trim body ++ ['$'])) ≤ rest
  rw [scan_cons, step_dollar h]
  apply scan_le_rest _ after_le_rest
  rw [List.mem_append, not_or]
  constructor
  · intro hmem
    apply hbody (mem_of_mem_trim hmem)
  · decide

/-- The conversion of formulas in backslash parentheses keeps them. -/
theorem convertInlines_keepsFences :
  convertInlines.Obeys KeepsFences
  := by
  intro t
  have hform : ∀ m ∈ Delimiter.inline.reader.findAll t,
      Delimiter.inline.HasForm m.value ∧ m.source = m.value.source :=
    fun m hm => Delimiter.form_of_mem_findAll hm
  have hwritten : ∀ g s, ∀ m ∈ Delimiter.inline.reader.findAll t,
      (scan g s (inlineOf m.value.body) = fence ∨ scan g s (inlineOf m.value.body) ≤ rest)
        ∧ (scan g s (inlineOf m.value.body) = fence ↔ scan g s m.value.source = fence) := by
    intro g s m hm
    have hbody : '\n' ∉ m.value.body := (hform m hm).1.2.2
    have hline : scan g rest m.value.body ≠ fence :=
      ne_fence_of_le_rest (scan_le_rest hbody (le_refl rest))
    rw [Delimiter.scan_source_eq_fence_iff (hform m hm).1]
    by_cases hs : s = fence
    · rw [hs, scan_fence]
      simp
    · have hle := scan_inlineOf (g := g) hbody hs
      simp [hle, ne_fence_of_le_rest hle, hs, Delimiter.entry, hline]
  apply keepsFences_replace
  · intro m hm v hv s
    obtain rfl := Option.some.inj hv
    obtain ⟨hends, hfence⟩ := hwritten true s m hm
    rw [(hform m hm).2]
    apply le_of_ends hends (Delimiter.scan_source (hform m hm).1) hfence.mp
  · intro m hm v hv s s' _
    obtain rfl := Option.some.inj hv
    obtain ⟨-, hfence⟩ := hwritten false s m hm
    rw [(hform m hm).2]
    apply eq_of_ends _ (Delimiter.scan_source (hform m hm).1) hfence
    apply scan_concat
    right
    rfl

/-- Under the guard, blank characters around a text in the middle of a line do not matter. -/
theorem scan_rest_trim_eq_fence_iff {t : Text} (hguard : scan true rest t ≠ fence) :
  scan false rest (trim t) = fence ↔ scan false rest t = fence
  := by
  constructor
  · intro h
    apply scan_eq_fence_of_trim (le_refl rest) h
  · obtain ⟨a, b, ha, hb, ht⟩ := exists_eq_append_trim t
    have hb := not_isMark_of_isBlankText hb
    generalize trim t = u at ht ⊢
    subst ht
    rw [Ne, scan_append, scan_append, scan_eq_fence_iff hb] at hguard
    rw [scan_append, scan_append, scan_eq_fence_iff hb]
    rcases scan_rest_of_isBlankText ha with ha | ha
    · rw [ha]
      exact id
    · rw [ha] at hguard ⊢
      rw [scan_start_eq_fence_iff]
      rintro (h | h)
      · exact absurd (scan_start_of_opens h) hguard
      · apply h

namespace Paren

/-- What is written for a parenthesis, around its body: the state at the body is that of the
middle of a line. -/
theorem exists_formulaOf (body primes : Text) (hprimes : ∀ c ∈ primes, Fence.isMark c = false) :
  ∃ u v, formulaOf body primes = u ++ (trim body ++ v)
    ∧ (∀ g s, s ≠ fence → scan g s u ≤ rest) ∧ (∀ s, s ≠ fence → scan false s u = rest)
    ∧ ∀ c ∈ v, Fence.isMark c = false
  := by
  have hdollar : ∀ g s, s ≠ fence → scan g s ['$'] = after g '$' := by
    intro g s hs
    apply step_dollar hs
  rw [formulaOf]
  split
  · have hopen : ∀ g s, s ≠ fence → scan g s ['$', '('] = rest := by
      intro g s hs
      change scan g (scan g s ['$']) ['('] = rest
      rw [hdollar g s hs]
      apply step_of_isPlain (by decide)
      apply ne_fence_of_le_rest after_le_rest
    use ['$', '('], [')'] ++ (primes ++ ['$'])
    refine ⟨by simp, ?_, hopen false, ?_⟩
    · intro g s hs
      rw [hopen g s hs]
    · simp only [List.forall_mem_append, List.forall_mem_singleton]
      exact ⟨rfl, hprimes, rfl⟩
  · use ['$'], primes ++ ['$']
    refine ⟨by simp, ?_, hdollar false, ?_⟩
    · intro g s hs
      rw [hdollar g s hs]
      apply after_le_rest
    · simp only [List.forall_mem_append, List.forall_mem_singleton]
      exact ⟨hprimes, rfl⟩

section Group

variable {source formula body primes : Text} (h : GroupForm source formula body primes)
  {g : Bool} {s : FenceScan}
include h

/-- Primes are no fence marks. -/
theorem GroupForm.not_isMark :
  ∀ c ∈ primes, Fence.isMark c = false
  := by
  intro c hc
  rw [h.primes c hc]
  decide

/-- A parenthesis holds no mark after its body. -/
theorem GroupForm.leadsTo :
  LeadsTo ([')'] ++ primes) rest
  := by
  have hprimes := h.primes
  clear h
  induction primes using List.reverseRecOn with
  | nil => exact leadsTo_concat (u := []) (not_isMark_of_all rfl) (by decide)
  | append_singleton primes c ih =>
    rw [List.forall_mem_append, List.forall_mem_singleton] at hprimes
    rw [← List.append_assoc, hprimes.2]
    apply leadsTo_concat (ih hprimes.1).not_isMark (by decide)

/-- The fences of a parenthesis are those of its body. -/
theorem GroupForm.scan_source_eq_fence_iff :
  scan g s source = fence ↔ s = fence ∨ scan g rest body = fence
  := by
  rw [h.source_eq]
  apply scan_wrapped_eq_fence_iff
  · intro hs
    apply step_of_isPlain (by decide) hs
  · apply h.leadsTo.not_isMark

/-- A plain formula leads to a fence, or to the rest of a line. -/
theorem GroupForm.scan_source :
  scan g s source = fence ∨ scan g s source = rest
  := by
  rw [h.source_eq, ← List.append_assoc]
  apply h.leadsTo.scan_cases

/-- A formula in place of a parenthesis makes no fence. -/
theorem GroupForm.scan_formula_eq_fence
    (hfence : scan g s formula = fence) :
  scan g s source = fence
  := by
  rw [h.scan_source_eq_fence_iff]
  obtain ⟨u, v, hformula, hu, -, hv⟩ := exists_formulaOf body primes h.not_isMark
  rw [h.formula_eq, hformula, scan_append, scan_append, scan_eq_fence_iff hv] at hfence
  by_cases hs : s = fence
  · left
    apply hs
  · right
    apply scan_eq_fence_of_trim (hu g s hs) hfence

/-- What is written for it ends with a dollar. -/
theorem GroupForm.exists_formula_eq :
  ∃ u, formula = u ++ ['$']
  := by
  rw [h.formula_eq, formulaOf]
  exact ⟨_, rfl⟩

/-- Under the guard, a formula in place of a parenthesis keeps the fences. -/
theorem GroupForm.scan_formula_eq
    {s' : FenceScan} (hguard : scan true s' source ≠ fence) :
  scan false s formula = scan false s source
  := by
  obtain ⟨w, hw⟩ := h.exists_formula_eq
  apply eq_of_ends
  · rw [hw]
    apply scan_concat
    right
    rfl
  · apply h.scan_source
  · constructor
    · apply h.scan_formula_eq_fence
    · intro hfence
      rw [Ne, h.scan_source_eq_fence_iff, not_or] at hguard
      rw [h.scan_source_eq_fence_iff, ← scan_rest_trim_eq_fence_iff hguard.2] at hfence
      obtain ⟨u, v, hformula, -, hu, hv⟩ := exists_formulaOf body primes h.not_isMark
      rw [h.formula_eq, hformula, scan_wrapped_eq_fence_iff _ (hu s) hv]
      apply hfence

end Group

end Paren

/-- The conversion of parentheses keeps fences. -/
theorem convertParens_keepsFences :
  convertParens.Obeys KeepsFences
  := by
  intro t
  apply keepsFences_replace
  · intro m hm v hv s
    obtain ⟨body, primes, hform⟩ := Paren.form_of_formula hm hv
    obtain ⟨w, hw⟩ := hform.exists_formula_eq
    apply le_of_ends
    · rw [hw]
      apply (scan_concat w (.inr rfl)).imp_right
      intro hends
      apply hends.trans_le after_le_rest
    · apply hform.scan_source
    · apply hform.scan_formula_eq_fence
  · intro m hm v hv s s' hguard
    obtain ⟨body, primes, hform⟩ := Paren.form_of_formula hm hv
    apply hform.scan_formula_eq hguard

/-- The steps for inline formulas keep the fences that follow dollars, and make none. -/
theorem convertAllInlines_keepsFences :
  (convertAllInlines.between .displays).Obeys KeepsFences
  := by
  apply keepsFences_law.between
  apply keepsFences_law.convertAllInlines
  · apply convertParens_keepsFences
  · apply convertInlines_keepsFences

/-! ### All steps -/

/-- The bodies of the displays that the conversion of a text writes, but for the blocks, which
have theirs on lines of their own: those between backslash brackets, and those of brackets that
hold mathematics. -/
def displayBodies (t : Text) : List Text :=
  let u := (collapseQuotedBrackets (convertQuotedDisplays t).text).text
  let v := (convertBracketBlocks (convertDisplays u).text).text
  (Delimiter.display.reader.findAll u).map (fun m => m.value.body)
    ++ ((Delimiter.bracket.reader.findAll v).filter (isRewritten v)).map fun m => m.value.body

/-- The conversion of a text without fences makes one exactly when the body of a display
opens with a fence. -/
theorem fences_convertMath_eq_zero_iff {t : Text} (ht : fences t = 0) :
  fences (convertMath t).text = 0 ↔ ∀ b ∈ displayBodies t, Fence.opens b = false
  := by
  rw [fences_eq_zero_iff] at ht ⊢
  let u := (collapseQuotedBrackets (convertQuotedDisplays t).text).text
  let w := (convertDisplays u).text
  let v := (convertBracketBlocks w).text
  let x := (convertBrackets v).text
  have hu : scan false start u ≠ fence := by
    apply mt (eq_fence_of_le _) ht
    apply le_trans (collapseQuotedBrackets_noNewFence false _ start)
    apply convertQuotedDisplays_noNewFence false t start
  have hguard : scan true start x ≠ fence := by
    apply mt (eq_fence_of_le _) hu
    calc
      scan true start x ≤ scan true start v := convertBrackets_noNewFence v start
      _ ≤ scan true start w := convertBracketBlocks_noNewFence w start
      _ ≤ scan true start u := convertDisplays_noNewFence u start
      _ ≤ scan false start u := scan_mono (by simp) (le_refl start) u
  have hfinal : scan false start (convertMath t).text = scan false start x := by
    rw [convertMath_eq_andThen, Converted.text_andThen, text_convertAllDisplays]
    apply (convertAllInlines_keepsFences x).2 start start hguard
  have hiff : scan false start x = fence
      ↔ (∃ m ∈ Delimiter.display.reader.findAll u, Fence.opens m.value.body = true)
        ∨ ∃ m ∈ Delimiter.bracket.reader.findAll v,
          isRewritten v m = true ∧ Fence.opens m.value.body = true := by
    rw [scan_convertBrackets_eq_fence_iff v start, scan_convertBracketBlocks_eq,
      scan_convertDisplays_eq_fence_iff u start, or_iff_right hu]
  rw [hfinal, Ne, hiff, displayBodies]
  simp only [List.forall_mem_append, List.forall_mem_map, List.mem_filter, not_or, not_exists,
    not_and, Bool.not_eq_true, and_imp]
  rfl

end DollarMath
