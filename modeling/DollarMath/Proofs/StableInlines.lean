import DollarMath.Proofs.Recognised
import DollarMath.Proofs.Standing

/-!
# Inline formulas that are written once

Formulas in parentheses are written between single dollars.  If the dollars are read, and no
parenthesis comes to stand free beside a formula in backslash parentheses, then what is a formula
in the new text has been overlooked in the text before.
-/

namespace DollarMath

open Entries

namespace Delimiter

/-! ### Formulas in backslash parentheses -/

/-- What is written for a formula that holds no opening delimiter opens none. -/
theorem isInert_inlineOf {body : Text} (h : ¬ ['\\', '('] <:+: body) :
  IsInert (inlineOf body)
  := by
  apply isInert_of_separates
  · rw [inlineOf]
    have hbody : Separates '\\' '(' (trim body) := (separates_iff.mpr h).trim
    apply Separates.append
    · apply (Separates.singleton _ _ _).append hbody
      left
      simp
    · apply Separates.singleton
    · right
      simp
  · rw [inlineOf, List.getLast?_concat]
    simp

/-- If something is written in front, it starts with a dollar. -/
theorem exists_of_head?_writtenFrom {p : Place} {t w : Text} {c : Char} (hc : c ≠ '$')
    (h : inline.reader.writtenFrom writeInline p t = c :: w) :
  ∃ u, t = c :: u
  := by
  cases t with
  | nil => cases h
  | cons d u =>
    rcases inline.reader.passes_or_exists_isRead p d u with hpass | ⟨m, n, hm, hcat⟩
    · rw [Reader.writtenFrom_of_passes _ hpass] at h
      obtain ⟨rfl, -⟩ := List.cons.inj h
      exact ⟨u, rfl⟩
    · rw [hcat, Reader.writtenFrom, hm.piecesFrom_eq, List.flatMap_cons] at h
      exact absurd (List.cons.inj h).1.symm hc

/-- Where an opening delimiter is not read, its line is kept. -/
theorem exists_writtenFrom_of_passes_opening {p : Place} {t : Text} (hp : p.escaped = false)
    (h : inline.reader.Passes p ('\\' :: '(' :: t)) :
  ∃ z, inline.reader.writtenFrom writeInline p ('\\' :: '(' :: t)
      = '\\' :: '(' :: (t.takeWhile (· ≠ '\n') ++ z) ∧ z.takeWhile (· ≠ '\n') = []
  := by
  have hcat : '\\' :: '(' :: t = ('\\' :: '(' :: t.takeWhile (· ≠ '\n')) ++ laterLines t := by
    rw [List.cons_append, List.cons_append]
    exact congrArg (fun s => '\\' :: '(' :: s) List.takeWhile_append_dropWhile.symm
  refine ⟨inline.reader.writtenFrom writeInline
    (p.after ('\\' :: '(' :: t.takeWhile (· ≠ '\n'))) (laterLines t), ?_, ?_⟩
  · rw [hcat, Reader.writtenFrom, Reader.piecesFrom_append_of_forall_passes fun u c v hu =>
      forall_passes_of_passes_opening hp h hu, List.flatMap_append, List.flatMap_map]
    simp [Piece.written, Reader.writtenFrom]
  · rcases laterLines_cases t with hnil | ⟨u, hu⟩
    · rw [hnil]
      rfl
    · rw [hu, Reader.writtenFrom_of_passes _ (passes_inline_of_ne (by decide))]
      rfl

/-- Nothing is read behind a character that is kept where nothing was. -/
theorem passes_cons_writtenFrom {p q : Place} {c : Char} {t : Text} (hq : q.escaped = p.escaped)
    (h : inline.reader.Passes p (c :: t)) :
  inline.reader.Passes q (c :: inline.reader.writtenFrom writeInline (p.next c) t)
  := by
  rw [reads_inline.passes_iff]
  rintro e he hne ⟨z, hz⟩
  have hescaped : p.escaped = false := by rw [← hq, he.1]
  have hopening := hz
  rw [he.source_eq] at hopening
  obtain ⟨rfl, hopening⟩ := List.cons.inj hopening
  obtain ⟨u, rfl⟩ := exists_of_head?_writtenFrom (by decide) hopening.symm
  obtain ⟨y, hwritten, hline⟩ := exists_writtenFrom_of_passes_opening hescaped h
  rw [Reader.writtenFrom_of_passes _ h] at hwritten
  have hcat : '\\' :: '(' :: u
      = ('\\' :: '(' :: u.takeWhile (· ≠ '\n')) ++ laterLines u := by
    rw [List.cons_append, List.cons_append]
    exact congrArg (fun s => '\\' :: '(' :: s) List.takeWhile_append_dropWhile.symm
  rw [hcat] at h
  have hkept := passes_inline_append (u := y) (.inr (by rw [hline]; exact List.not_mem_nil))
    (reads_inline.isLocal.passes_of_append _ h)
  rw [reads_inline.passes_iff, ← hq] at hkept
  apply hkept e he hne
  use z
  rw [hz, hwritten]
  rfl

/-- Once the formulas in backslash parentheses are converted, there are no more of them, if none
held an opening delimiter. -/
theorem findAll_convertInlines {t : Text}
    (h : ∀ m ∈ inline.reader.findAll t, ¬ ['\\', '('] <:+: m.value.body) :
  inline.reader.findAll (convertInlines t).text = []
  := by
  suffices ∀ p u, (∀ m, .found m ∈ inline.reader.piecesFrom 0 p u →
        ¬ ['\\', '('] <:+: m.value.body) →
      ∀ q, q.escaped = p.escaped → inlines q (inline.reader.writtenFrom writeInline p u) = [] by
    have hnone := this .start t (fun m hm => h m (Reader.mem_findAll_iff.mpr hm)) .start rfl
    rw [Reader.writtenFrom, ← Reader.pieces, ← Reader.text_replace, inlines, Reader.values_start]
      at hnone
    exact List.map_eq_nil_iff.mp hnone
  intro p u
  apply inline.reader.piecesFrom_induction fun p u ps =>
    (∀ m, .found m ∈ ps → ¬ ['\\', '('] <:+: m.value.body) →
    ∀ q, q.escaped = p.escaped → inlines q (inline.reader.writtenFrom writeInline p u) = []
  · exact fun p _ q _ => rfl
  · intro p c cs hpass ih hflat q hq
    rw [Reader.writtenFrom_of_passes _ hpass, inlines,
      Reader.values_of_passes (passes_cons_writtenFrom hq hpass)]
    exact ih (fun m hm => hflat m (List.mem_cons_of_mem _ hm)) _ rfl
  · intro p m n hm ih hflat q hq
    obtain ⟨hallowed, hsource⟩ := reads_inline.of_isRead hm
    rw [Reader.writtenFrom, hm.piecesFrom_eq, List.flatMap_cons, ← Reader.writtenFrom]
    change inlines q (inlineOf m.value.body ++ _) = []
    rw [(isInert_inlineOf (hflat m List.mem_cons_self)).inlines_append]
    apply ih fun m hm => hflat m (List.mem_cons_of_mem _ hm)
    rw [Place.escaped_after_eq_false hm.source_ne_nil, inlineOf, Place.escaped_after_concat]
    · rfl
    · rw [hsource, hallowed.getLast?_source]
      decide

end Delimiter

end DollarMath
