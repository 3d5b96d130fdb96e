import DollarMath.Formula
import DollarMath.Proofs.Law
import DollarMath.Proofs.Reading

/-!
# Inline formulas, line by line

A formula in backslash parentheses stays on its line, and a line feed is no backslash, so that
nothing behind a line feed depends on what stands before it.  What is written for a formula is
told by its body.  So the conversion of these formulas can be done line by line.
-/

namespace DollarMath

/-! ### Replaced values -/

/-- Entries as a text, with each value written by `g` and counted. -/
def Replaced.ofEntries {α : Type} (g : α → Text) (es : List (Option α × Text)) : Replaced where
  text := es.flatMap fun e => (e.1.map g).getD e.2
  count := (es.filterMap Prod.fst).length

/-- A replacement that looks at the values only is told by the entries of the text. -/
theorem Reader.replace_eq_ofEntries {α : Type} (r : Reader α) (g : α → Text) (t : Text) :
  r.replace (fun m => some (g m.value)) t = .ofEntries g (r.entries .start t)
  := by
  rw [Replaced.ofEntries, Replaced.mk.injEq]
  constructor
  · rw [text_replace, entries, List.flatMap_map]
    apply List.flatMap_congr
    rintro (c | m) -
    · rfl
    · rfl
  · have hvalues := r.values_start t
    rw [values] at hvalues
    rw [hvalues, List.length_map]
    apply List.countP_eq_length.mpr
    exact fun m _ => rfl

/-! ### Cuts at line feeds -/

/-- A line feed is an entry of its own, and what stands behind it is read as a text of its
own. -/
theorem Delimiter.entries_inline_append_newline (p : Place) (s t : Text) :
  inline.reader.entries p (s ++ '\n' :: t)
    = inline.reader.entries p s ++ (none, ['\n']) :: inline.reader.entries .start t
  := by
  have hpass : inline.reader.Passes (p.after s) ('\n' :: t) := passes_inline_of_ne (by decide)
  rw [entries_inline_append List.not_mem_nil, Reader.entries_of_passes hpass]
  have hescaped : ((p.after s).next '\n').escaped = Place.start.escaped := rfl
  rw [reads_inline.seesEscape.entries_congr hescaped]

/-- The entries tell what the formulas of a text are converted to. -/
theorem convertInlines_eq_ofEntries (t : Text) :
  convertInlines t
    = (Replaced.ofEntries (fun e => inlineOf e.body)
        (Delimiter.inline.reader.entries .start t)).inline
  := by
  rw [← Reader.replace_eq_ofEntries]
  rfl

/-- The formulas in backslash parentheses are converted line by line: a line feed stays where it
is, and the texts before and behind it are converted each by itself. -/
theorem convertInlines_append_newline (s t : Text) :
  convertInlines (s ++ '\n' :: t)
    = ⟨(convertInlines s).text ++ '\n' :: (convertInlines t).text,
        (convertInlines s).tally + (convertInlines t).tally⟩
  := by
  simp only [convertInlines_eq_ofEntries, Delimiter.entries_inline_append_newline]
  rw [Replaced.inline, Converted.mk.injEq]
  constructor
  · apply List.flatMap_append
  · change Tally.ofInline _ = Tally.mk (_ + _) (0 + 0)
    rw [Tally.ofInline, Replaced.ofEntries, List.filterMap_append, List.length_append,
      Int.natCast_add]
    rfl

end DollarMath
