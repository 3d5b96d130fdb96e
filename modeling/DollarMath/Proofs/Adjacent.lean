import DollarMath.Proofs.Decomposition
import DollarMath.Proofs.Law

/-!
# Texts that meet between segments

Where one text ends with all its code closed, and another one follows that does not go on with
the same prose, the segments are found one text at a time, since a text has one decomposition
only.  So the documents are converted one by one.
-/

namespace DollarMath

/-- Texts cut at line ends side by side, if the last one on the left ends with a line end. -/
theorem CutAtLines.append
    {ss ts : List Text} (hs : CutAtLines ss) (ht : CutAtLines ts)
    (hends : ∀ s ∈ ss.getLast?, EndsLine s) :
  CutAtLines (ss ++ ts)
  := by
  induction ss with
  | nil => exact ht
  | cons s ss ih =>
    by_cases hss : ss = []
    · rw [hss]
      exact ⟨fun _ => hends s (by rw [hss]; rfl), ht⟩
    · constructor
      · intro _
        apply hs.1 hss
      · apply ih hs.2
        rw [List.getLast?_cons_of_ne_nil hss] at hends
        apply hends

/-- No fence is open at the end of the text: if its last segment is code, then its last line
closes it. -/
def EndsClosed (t : Text) : Prop :=
  ∀ s ∈ (segments t).getLast?, s.kind = .code → ∃ f : Fence, f.Encloses (lines s.content)

/-- The last segment ends as the document does. -/
theorem endsLine_of_getLast? {t : Text} (h : EndsLine t) :
  ∀ s ∈ (segments t).getLast?, EndsLine s.content
  := by
  intro s hs
  obtain ⟨ss, hss⟩ := List.getLast?_eq_some_iff.mp hs
  have hcontent := flatMap_content_segments t
  rw [hss, List.flatMap_append, List.flatMap_singleton] at hcontent
  rw [← hcontent] at h
  apply h.of_append
  apply (isDecomposition_segments t).ne_nil s (List.mem_of_getLast? hs)

/-- The first line of a text is the first line of its first segment. -/
theorem head?_lines_of_head? {t : Text} {s : Segment} (h : s ∈ (segments t).head?) :
  (lines s.content).head? = (lines t).head?
  := by
  obtain ⟨ss, hss⟩ := List.head?_eq_some_iff.mp h
  have hne : lines s.content ≠ [] := by
    intro hnil
    apply (isDecomposition_segments t).ne_nil s (List.mem_of_mem_head? h)
    rw [← flatten_lines s.content, hnil]
    rfl
  rw [(isDecomposition_segments t).lines_eq, hss, List.flatMap_cons,
    List.head?_append_of_ne_nil _ hne]

/-- If no fence is open at the end, then all code is closed. -/
theorem EndsClosed.encloses {t : Text} (h : EndsClosed t) :
  ∀ s ∈ segments t, s.kind = .code → ∃ f : Fence, f.Encloses (lines s.content)
  := by
  intro s hs
  rcases (segments t).eq_nil_or_concat with hnil | ⟨ss, u, hconcat⟩
  · rw [hnil] at hs
    cases hs
  · rw [List.concat_eq_append] at hconcat
    rw [hconcat] at hs
    rcases List.mem_append.mp hs with hs | hs
    · apply (isDecomposition_segments t).closed s
      rw [hconcat, List.dropLast_concat]
      apply hs
    · obtain rfl := List.mem_singleton.mp hs
      apply h
      rw [hconcat]
      simp

/-- Where a text ends with closed code, or before a fence, its segments end. -/
theorem segments_append
    {s t : Text} (hends : EndsLine s) (hclosed : EndsClosed s)
    (hmeet : ∀ u ∈ (segments s).getLast?, ∀ v ∈ (segments t).head?,
      u.kind = .code ∨ v.kind = .code) :
  segments (s ++ t) = segments s ++ segments t
  := by
  have hs := isDecomposition_segments s
  have ht := isDecomposition_segments t
  symm
  apply IsDecomposition.eq_segments
  constructor
  · rw [List.flatMap_append, hs.flatMap_content, ht.flatMap_content]
  · rw [List.forall_mem_append]
    exact ⟨hs.ne_nil, ht.ne_nil⟩
  · rw [List.map_append]
    apply hs.cut.append ht.cut
    intro u hu
    rw [List.getLast?_map] at hu
    obtain ⟨v, hv, rfl⟩ := Option.map_eq_some_iff.mp hu
    apply endsLine_of_getLast? hends v hv
  · rw [List.forall_mem_append]
    exact ⟨hs.prose, ht.prose⟩
  · rw [List.isChain_append]
    exact ⟨hs.alternate, ht.alternate, hmeet⟩
  · rw [List.forall_mem_append]
    exact ⟨hs.code, ht.code⟩
  · by_cases hnil : segments t = []
    · rw [hnil, List.append_nil]
      apply hs.closed
    · rw [List.dropLast_append_of_ne_nil hnil, List.forall_mem_append]
      exact ⟨hclosed.encloses, ht.closed⟩

namespace Converted

theorem append_assoc (a b c : Converted) :
  a ++ b ++ c = a ++ (b ++ c)
  := by
  change Converted.mk _ ⟨_, _⟩ = Converted.mk _ ⟨_, _⟩
  rw [Converted.mk.injEq, Tally.mk.injEq]
  refine ⟨?_, ?_, ?_⟩
  · apply List.append_assoc
  · apply Int.add_assoc
  · apply Int.add_assoc

theorem nil_append (a : Converted) :
  unchanged [] ++ a = a
  := by
  change Converted.mk a.text ⟨0 + a.tally.inline, 0 + a.tally.block⟩ = a
  rw [Int.zero_add, Int.zero_add]

/-- Converted parts on the left and on the right. -/
theorem concat_append (as bs : List Converted) :
  concat (as ++ bs) = concat as ++ concat bs
  := by
  induction as with
  | nil => exact (nil_append _).symm
  | cons a as ih =>
    change a ++ concat (as ++ bs) = a ++ concat as ++ concat bs
    rw [ih, append_assoc]

end Converted

/-- Documents that meet between segments have the segments of both, and are converted one by
one: where the first one ends with all its code closed, and the last segment of the first one
or the first line of the second one is fenced. -/
theorem convertDocument_append
    {s t : Text} (hends : EndsLine s) (hclosed : EndsClosed s)
    (hmeet : (∃ u ∈ (segments s).getLast?, u.kind = .code) ∨ s = [] ∨ t = []
      ∨ ∃ l ∈ (lines t).head?, ∃ f : Fence, f.IsFence l) :
  segments (s ++ t) = segments s ++ segments t
    ∧ (convertDocument (s ++ t)).text = (convertDocument s).text ++ (convertDocument t).text
    ∧ (convertDocument (s ++ t)).tally = (convertDocument s).tally + (convertDocument t).tally
  := by
  have hsegments : segments (s ++ t) = segments s ++ segments t := by
    apply segments_append hends hclosed
    intro u hu v hv
    rcases hmeet with ⟨u', hu', hcode⟩ | rfl | rfl | ⟨l, hl, f, hf⟩
    · left
      rw [Option.mem_unique hu hu']
      apply hcode
    · cases hu
    · cases hv
    · right
      rw [← head?_lines_of_head? hv] at hl
      cases hkind : v.kind with
      | code => rfl
      | prose =>
        have hfree := (isDecomposition_segments t).prose v (List.mem_of_mem_head? hv) hkind
        exact absurd hf (hfree l (List.mem_of_mem_head? hl) f)
  have happend : convertDocument (s ++ t) = convertDocument s ++ convertDocument t := by
    rw [convertDocument, hsegments, List.map_append, Converted.concat_append]
    rfl
  refine ⟨hsegments, ?_, ?_⟩
  · rw [happend, Converted.text_append]
  · rw [happend, Converted.tally_append]

/-- Closed code and the prose after it. -/
theorem convertDocument_append_code :
  let s := ['~', '~', '~', '\n', '~', '~', '~', '\n']
  let t := ['(', '1', ')']
  (EndsLine s ∧ EndsClosed s ∧ ∃ u ∈ (segments s).getLast?, u.kind = .code)
    ∧ segments (s ++ t) = segments s ++ segments t
    ∧ (convertDocument (s ++ t)).text = (convertDocument s).text ++ (convertDocument t).text
    ∧ (convertDocument (s ++ t)).tally = (convertDocument s).tally + (convertDocument t).tally
  := by
  intro s t
  have hends : EndsLine s := by
    intro c hc
    exact (Option.some.inj hc).symm
  have hsegments : segments s = [⟨.code, s⟩] := by decide
  have hfence : (⟨'~', 3⟩ : Fence).IsFence ['~', '~', '~', '\n'] :=
    Fence.isFence_iff.mpr (by decide)
  have hclosed : EndsClosed s := by
    intro u hu _
    rw [hsegments] at hu
    obtain rfl := Option.some.inj hu
    use ⟨'~', 3⟩
    constructor
    · exact ⟨_, [['~', '~', '~', '\n']], rfl, hfence, by simp⟩
    · exact ⟨_, rfl, _, hfence, rfl, le_rfl⟩
  have hcode : ∃ u ∈ (segments s).getLast?, u.kind = .code := by
    rw [hsegments]
    exact ⟨_, rfl, rfl⟩
  exact ⟨⟨hends, hclosed, hcode⟩, convertDocument_append hends hclosed (.inl hcode)⟩

end DollarMath
