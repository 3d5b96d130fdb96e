import DollarMath.Document
import Mathlib.Data.List.Basic

/-!
# Laws of conversions

A law relates a text to what it is converted to.  It holds of an unchanged text, is kept by
one more conversion, and joins texts that stand side by side.  So it holds of the conversion
of a whole document as soon as each of its steps obeys it.
-/

namespace DollarMath

namespace Converted

theorem text_andThen (a : Converted) (f : Conversion) :
  (a.andThen f).text = (f a.text).text
  := rfl

theorem tally_andThen (a : Converted) (f : Conversion) :
  (a.andThen f).tally = a.tally + (f a.text).tally
  := rfl

theorem text_append (a b : Converted) :
  (a ++ b).text = a.text ++ b.text
  := rfl

theorem tally_append (a b : Converted) :
  (a ++ b).tally = a.tally + b.tally
  := rfl

/-- The text of converted parts is that of each, one after another. -/
theorem text_concat (parts : List Converted) :
  (concat parts).text = parts.flatMap text
  := by
  induction parts with
  | nil => rfl
  | cons a parts ih =>
    rw [List.flatMap_cons, ← ih]
    rfl

end Converted

namespace Conversion

/-- A conversion after nothing has been done. -/
theorem unchanged_andThen (t : Text) (f : Conversion) :
  (Converted.unchanged t).andThen f = f t
  := by
  change Converted.mk (f t).text ⟨0 + (f t).tally.inline, 0 + (f t).tally.block⟩ = f t
  rw [Int.zero_add, Int.zero_add]

/-- Two conversions after another one may be taken together. -/
theorem andThen_andThen (a : Converted) (f g : Conversion) :
  (a.andThen f).andThen g = a.andThen fun t => (f t).andThen g
  := by
  rw [Converted.andThen, Converted.mk.injEq, Tally.mk.injEq]
  refine ⟨rfl, ?_, ?_⟩
  · apply Int.add_assoc
  · apply Int.add_assoc

/-- The text between dollar mathematics converted, and the dollar mathematics kept. -/
theorem text_between (f : Conversion) (scope : Dollars.Scope) (t : Text) :
  (f.between scope t).text
    = (chunks scope t).flatMap fun k => if k.isMath then k.text else (f k.text).text
  := by
  rw [between, Converted.text_concat, List.flatMap_map]
  apply List.flatMap_congr
  intro k _
  split
  · rfl
  · rfl

/-- One conversion by itself. -/
theorem inOrder_singleton (f : Conversion) (t : Text) :
  inOrder [f] t = f t
  := unchanged_andThen t f

/-- The first of some conversions, and then the others. -/
theorem inOrder_cons (f : Conversion) (fs : List Conversion) (t : Text) :
  inOrder (f :: fs) t = (f t).andThen (inOrder fs)
  := by
  suffices ∀ (fs : List Conversion) (a : Converted),
      fs.foldl Converted.andThen a = a.andThen (inOrder fs) by
    rw [inOrder, List.foldl_cons, unchanged_andThen]
    apply this
  intro fs
  induction fs with
  | nil =>
    intro a
    change a = ⟨a.text, ⟨a.tally.inline + 0, a.tally.block + 0⟩⟩
    rw [Int.add_zero, Int.add_zero]
  | cons f fs ih =>
    intro a
    rw [List.foldl_cons, ih, andThen_andThen]
    congr 1
    funext t
    rw [inOrder, List.foldl_cons, unchanged_andThen, ih]

end Conversion

/-- A relation between texts and converted texts that conversions may be checked against one
by one. -/
structure Law (P : Text → Converted → Prop) : Prop where
  /-- An unchanged text obeys the law. -/
  unchanged : ∀ t, P t (.unchanged t)
  /-- One more conversion keeps the law. -/
  andThen : ∀ {t : Text} {a : Converted} {f : Conversion},
    P t a → P a.text (f a.text) → P t (a.andThen f)
  /-- Side by side, converted texts obey the law. -/
  append : ∀ {s t : Text} {a b : Converted}, P s a → P t b → P (s ++ t) (a ++ b)

/-- A conversion that obeys a law on every text. -/
def Conversion.Obeys (f : Conversion) (P : Text → Converted → Prop) : Prop :=
  ∀ t, P t (f t)

/-- The displays are converted by five steps, one after another. -/
theorem text_convertAllDisplays (t : Text) :
  (convertAllDisplays t).text
    = (convertBrackets (convertBracketBlocks (convertDisplays (collapseQuotedBrackets
        (convertQuotedDisplays t).text).text).text).text).text
  := rfl

/-- The displays are converted first, and then the inline formulas between them. -/
theorem convertMath_eq_andThen (t : Text) :
  convertMath t = (convertAllDisplays t).andThen (convertAllInlines.between .displays)
  := by
  rw [convertMath, Conversion.inOrder_cons]
  rw [Converted.andThen, Conversion.inOrder_singleton]
  rfl

/-- The steps of the conversion of a prose segment. -/
def steps : List Conversion :=
  [convertQuotedDisplays, collapseQuotedBrackets, convertDisplays, convertBracketBlocks,
    convertBrackets, convertParens, convertInlines]

namespace Law

variable {P : Text → Converted → Prop} (law : Law P)
include law

/-- Texts side by side, each converted by itself. -/
theorem concat
    {κ : Type} (ks : List κ) (source : κ → Text) (convert : κ → Converted)
    (h : ∀ k ∈ ks, P (source k) (convert k)) :
  P (ks.flatMap source) (.concat (ks.map convert))
  := by
  induction ks with
  | nil => exact law.unchanged []
  | cons k ks ih =>
    apply law.append
    · apply h k List.mem_cons_self
    · apply ih fun k' hk' => h k' (List.mem_cons_of_mem _ hk')

/-- Conversions one after another obey a law that each obeys. -/
theorem inOrder {fs : List Conversion} (h : ∀ f ∈ fs, f.Obeys P) :
  (Conversion.inOrder fs).Obeys P
  := by
  induction fs with
  | nil => exact law.unchanged
  | cons f fs ih =>
    intro t
    rw [Conversion.inOrder_cons]
    apply law.andThen
    · apply h f List.mem_cons_self t
    · apply ih (fun g hg => h g (List.mem_cons_of_mem _ hg)) (f t).text

/-- So does a conversion between the dollar mathematics of a text. -/
theorem between {f : Conversion} (hf : f.Obeys P) (scope : Dollars.Scope) :
  (f.between scope).Obeys P
  := by
  intro t
  have h := law.concat (chunks scope t) Chunk.text
    (fun k => if k.isMath then .unchanged k.text else f k.text) (by
      intro k _
      split
      · apply law.unchanged k.text
      · apply hf k.text)
  rw [flatMap_text_chunks] at h
  apply h

/-- So does the conversion of all displays. -/
theorem convertAllDisplays (h : ∀ f ∈ steps, f.Obeys P) :
  DollarMath.convertAllDisplays.Obeys P
  := by
  apply law.inOrder
  intro f hf
  apply h
  apply List.mem_append_left [convertParens, convertInlines] hf

/-- So does the conversion of all inline formulas. -/
theorem convertAllInlines
    (hparens : convertParens.Obeys P) (hinlines : convertInlines.Obeys P) :
  DollarMath.convertAllInlines.Obeys P
  := by
  apply law.inOrder
  intro f hf
  simp only [List.mem_cons, List.not_mem_nil, or_false] at hf
  rcases hf with rfl | rfl
  · apply law.between hparens .all
  · apply hinlines

/-- A law of the seven steps is a law of their composition. -/
theorem convertMath (h : ∀ f ∈ steps, f.Obeys P) :
  DollarMath.convertMath.Obeys P
  := by
  apply law.inOrder
  intro f hf
  simp only [List.mem_cons, List.not_mem_nil, or_false] at hf
  rcases hf with rfl | rfl
  · apply law.convertAllDisplays h
  · apply law.between
    apply law.convertAllInlines
    · apply h _ (by simp [steps])
    · apply h _ (by simp [steps])

/-- A law of the seven steps that survives the change of line ends is a law of prose. -/
theorem convertProse
    (h : ∀ f ∈ steps, f.Obeys P)
    (hends : ∀ t c, LineEnds.allCrlf false t = true → P (LineEnds.toLf t) c →
      P t ⟨LineEnds.toCrlf c.text, c.tally⟩) :
  DollarMath.convertProse.Obeys P
  := by
  intro t
  rw [DollarMath.convertProse]
  split
  · next hcrlf =>
    rw [Bool.and_eq_true] at hcrlf
    apply hends t _ hcrlf.2
    apply law.convertMath h _
  · apply law.convertMath h t

/-- A law of the seven steps that survives the change of line ends is a law of documents. -/
theorem convertDocument
    (h : ∀ f ∈ steps, f.Obeys P)
    (hends : ∀ t c, LineEnds.allCrlf false t = true → P (LineEnds.toLf t) c →
      P t ⟨LineEnds.toCrlf c.text, c.tally⟩) :
  DollarMath.convertDocument.Obeys P
  := by
  intro t
  have hsegments := law.concat (segments t) Segment.content Segment.convert (by
    intro s _
    rw [Segment.convert]
    split
    · apply law.unchanged s.content
    · apply law.convertProse h hends s.content)
  rw [flatMap_content_segments] at hsegments
  apply hsegments

end Law

end DollarMath
