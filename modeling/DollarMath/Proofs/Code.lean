import DollarMath.Proofs.Endings
import DollarMath.Proofs.Fencing

/-!
# The code of a converted document

A converted document is cut into segments again when it is converted a second time.  Its code
is that of the document as long as the conversion makes no fence.
-/

namespace DollarMath

open FenceScan

/-- A carriage return before every line feed leaves the fences as they are. -/
theorem scan_toCrlf (t : Text) (s : FenceScan) :
  scan false s (LineEnds.toCrlf t) = scan false s t
  := by
  induction t generalizing s with
  | nil => rfl
  | cons c cs ih =>
    rw [LineEnds.toCrlf_cons, scan_append, ih, scan_cons]
    congr 1
    split
    · next hc =>
      have hmark : Fence.isMark '\r' = false := by decide
      by_cases hs : s = fence
      · rw [hs, scan_fence]
        rfl
      · rw [hc, step_false_newline hs, scan_cons, scan_cons, scan_nil]
        apply step_false_newline
        rw [Ne, step_eq_fence_iff hmark]
        apply hs
    · rfl

theorem fences_toCrlf_eq_zero_iff (t : Text) :
  fences (LineEnds.toCrlf t) = 0 ↔ fences t = 0
  := by
  rw [fences_eq_zero_iff, fences_eq_zero_iff, scan_toCrlf]

/-- The conversion keeps the line end at the end of a text, and makes no text empty. -/
def KeepsEnd (t : Text) (c : Converted) : Prop :=
  (c.text = [] ↔ t = []) ∧ (EndsLine t → EndsLine c.text)

/-- Prose keeps the line end at its end. -/
theorem Segment.convert_keepsEnd (s : Segment) :
  KeepsEnd s.content s.convert
  := ⟨s.sameEnding_convert.eq_nil_iff, s.sameEnding_convert.endsLine⟩

/-- Converted prose holds a fence exactly when a display is written whose body opens with
one. -/
theorem fences_convertProse_eq_zero_iff {t : Text} (ht : fences t = 0) :
  fences (convertProse t).text = 0
    ↔ ∀ b ∈ displayBodies (LineEnds.unified t), Fence.opens b = false
  := by
  rcases convertProse_cases t with ⟨hunified, h⟩ | ⟨hunified, h⟩
  · rw [h, hunified]
    apply fences_convertMath_eq_zero_iff ht
  · rw [← hunified, fences_toCrlf_eq_zero_iff] at ht
    rw [h]
    apply (fences_toCrlf_eq_zero_iff _).trans
    apply fences_convertMath_eq_zero_iff ht

/-- A converted document has the code of the document exactly when no display is written
whose body opens with a fence. -/
theorem codes_convertDocument_iff (d : Text) :
  codes (convertDocument d).text = codes d
    ↔ AllProse (fun t => ∀ b ∈ displayBodies t, Fence.opens b = false) d
  := by
  rw [text_convertDocument, codes_flatMap_iff]
  · apply forall₃_congr
    intro s hs hkind
    rw [Segment.convert, hkind]
    apply fences_convertProse_eq_zero_iff
    apply fences_prose s hs hkind
  · intro s hkind
    rw [Segment.convert, hkind]
    rfl
  · intro s _
    apply s.convert_keepsEnd.2

/-- A display whose body is a fence becomes code. -/
theorem codes_convertDocument_ne :
  let d := ['\\', '[', '\x60', '\x60', '\x60', '\\', ']']
  codes (convertDocument d).text ≠ codes d
  := by
  decide

end DollarMath
