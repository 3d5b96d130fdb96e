import DollarMath.Document

/-!
# Line ends

The two ways to end a line, and the change from one to the other.
-/

namespace DollarMath

namespace LineEnds

@[simp]
theorem toCrlf_nil :
  toCrlf [] = []
  := rfl

@[simp]
theorem toCrlf_cons (c : Char) (t : Text) :
  toCrlf (c :: t) = (if c = '\n' then ['\r', '\n'] else [c]) ++ toCrlf t
  := rfl

theorem toCrlf_append (s t : Text) :
  toCrlf (s ++ t) = toCrlf s ++ toCrlf t
  := List.flatMap_append

/-- No text becomes empty. -/
theorem toCrlf_eq_nil_iff (t : Text) :
  toCrlf t = [] ↔ t = []
  := by
  cases t with
  | nil => rfl
  | cons c cs =>
    rw [toCrlf_cons]
    split <;> simp

/-- A text all of whose line feeds follow a carriage return does not start with a line feed
of its own, and so it keeps its line ends. -/
theorem toCrlf_toLf {t : Text} (h : allCrlf false t = true) :
  toCrlf (toLf t) = t
  := by
  induction t using toLf.induct with
  | case1 => rfl
  | case2 cs ih =>
    simp only [allCrlf, Bool.and_eq_true] at h
    rw [toLf, toCrlf_cons, if_pos rfl, ih (by simpa using h.2.2)]
    rfl
  | case3 c cs hcrlf ih =>
    rw [toLf]
    · have hc : c ≠ '\n' := by
        rintro rfl
        simp [allCrlf] at h
      rw [toCrlf_cons, if_neg hc]
      have hcs : allCrlf false cs = true := by
        rw [allCrlf, Bool.and_eq_true] at h
        cases cs with
        | nil => rfl
        | cons d ds =>
          have hd : c = '\r' → d ≠ '\n' := by
            rintro rfl rfl
            apply hcrlf ds rfl rfl
          simp only [allCrlf, Bool.and_eq_true, Bool.or_eq_true, decide_eq_true_eq] at h ⊢
          by_cases hr : c = '\r'
          · exact ⟨.inl (hd hr), h.2.2⟩
          · simpa [hr] using h.2
      rw [ih hcs]
      rfl
    · apply hcrlf

/-- All line feeds of returned lines follow a carriage return. -/
theorem allCrlf_toCrlf (returned : Bool) (t : Text) :
  allCrlf returned (toCrlf t) = true
  := by
  induction t generalizing returned with
  | nil => rfl
  | cons c cs ih =>
    rw [toCrlf_cons]
    split
    · simp [allCrlf, ih]
    · next hc => simp [allCrlf, hc, ih]

/-- The change to carriage returns and back is the identity, whatever returns the text has. -/
theorem toLf_toCrlf (t : Text) :
  toLf (toCrlf t) = t
  := by
  induction t with
  | nil => rfl
  | cons c cs ih =>
    rw [toCrlf_cons]
    split
    · next hc =>
      rw [hc, List.cons_append, List.cons_append, List.nil_append, toLf, ih]
    · rw [List.cons_append, List.nil_append, toLf, ih]
      intro ds _ hds
      cases cs with
      | nil => cases hds
      | cons d cs =>
        rw [toCrlf_cons] at hds
        split at hds
        · cases hds
        · next hd => exact hd (List.cons.inj hds).1

/-- Without a carriage return no line feed follows one. -/
theorem allCrlf_eq_false {t : Text} (hcr : '\r' ∉ t) (hlf : '\n' ∈ t) :
  allCrlf false t = false
  := by
  induction t with
  | nil => cases hlf
  | cons c cs ih =>
    rw [List.mem_cons, not_or] at hcr
    rw [allCrlf, Bool.and_eq_false_iff]
    rcases List.mem_cons.mp hlf with rfl | hlf
    · left
      rfl
    · right
      have hc : decide (c = '\r') = false := by simpa using fun h => hcr.1 h.symm
      rw [hc]
      apply ih hcr.2 hlf

/-- All other characters stay. -/
theorem count_toLf {c : Char} (hc : c ≠ '\r') (t : Text) :
  (toLf t).count c = t.count c
  := by
  induction t using toLf.induct with
  | case1 => rfl
  | case2 cs ih => simp [toLf, List.count_cons, ih, hc.symm]
  | case3 d cs hcrlf ih =>
    rw [toLf]
    · simp [List.count_cons, ih]
    · apply hcrlf

/-- All other characters stay here, too. -/
theorem count_toCrlf {c : Char} (hc : c ≠ '\r') (t : Text) :
  (toCrlf t).count c = t.count c
  := by
  induction t with
  | nil => rfl
  | cons d cs ih =>
    rw [toCrlf_cons, List.count_append, ih, List.count_cons, Nat.add_comm]
    congr 1
    split
    · next hd => simp [List.count_cons, hd, hc.symm]
    · simp [List.count_singleton]

/-- The text that the conversion of a prose segment works on: with plain line feeds if all
its line feeds follow a carriage return. -/
def unified (t : Text) : Text :=
  if t.contains '\n' && allCrlf false t then toLf t else t

/-- All characters but carriage returns stay where line ends are unified. -/
theorem count_unified {c : Char} (hc : c ≠ '\r') (t : Text) :
  (unified t).count c = t.count c
  := by
  rw [unified]
  split
  · apply count_toLf hc t
  · rfl

end LineEnds

open LineEnds

/-- Prose is converted as its unified text, and gets its line ends back. -/
theorem convertProse_cases (t : Text) :
  (unified t = t ∧ convertProse t = convertMath t)
    ∨ (toCrlf (unified t) = t
      ∧ convertProse t = ⟨toCrlf (convertMath (unified t)).text, (convertMath (unified t)).tally⟩)
  := by
  rw [convertProse, unified]
  split
  · next hcrlf =>
    right
    constructor
    · apply toCrlf_toLf (Bool.and_eq_true_iff.mp hcrlf).2
    · rfl
  · left
    constructor
    · rfl
    · rfl

/-- The tally of prose is that of its unified text. -/
theorem tally_convertProse (t : Text) :
  (convertProse t).tally = (convertMath (unified t)).tally
  := by
  rcases convertProse_cases t with ⟨ht, h⟩ | ⟨-, h⟩
  · rw [h, ht]
  · rw [h]

/-- Prose is kept if its unified text is. -/
theorem text_convertProse_eq_self {t : Text} (hkept : (convertMath (unified t)).text = unified t) :
  (convertProse t).text = t
  := by
  rcases convertProse_cases t with ⟨ht, h⟩ | ⟨ht, h⟩
  · rw [h, ← ht, hkept, ht]
  · rw [h]
    dsimp only
    rw [hkept, ht]

/-- But for carriage returns, converted prose is its converted unified text. -/
theorem count_text_convertProse {c : Char} (hc : c ≠ '\r') (t : Text) :
  (convertProse t).text.count c = (convertMath (unified t)).text.count c
  := by
  rcases convertProse_cases t with ⟨ht, h⟩ | ⟨-, h⟩
  · rw [h, ht]
  · rw [h]
    dsimp only
    rw [count_toCrlf hc]

/-- Every prose segment of a document, with its line ends unified, satisfies `P`. -/
def AllProse (P : Text → Prop) (d : Text) : Prop :=
  ∀ s ∈ segments d, s.kind = .prose → P (unified s.content)

instance (P : Text → Prop) [DecidablePred P] (d : Text) : Decidable (AllProse P d) :=
  inferInstanceAs (Decidable (∀ s ∈ segments d, s.kind = .prose → P (unified s.content)))

/-- A document is converted segment by segment. -/
theorem text_convertDocument (d : Text) :
  (convertDocument d).text = (segments d).flatMap fun s => s.convert.text
  := by
  rw [convertDocument]
  induction segments d with
  | nil => rfl
  | cons s ss ih =>
    rw [List.flatMap_cons, ← ih]
    rfl

end DollarMath
