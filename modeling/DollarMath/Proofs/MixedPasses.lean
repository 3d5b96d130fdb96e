import DollarMath.Proofs.MixedDollars
import DollarMath.Proofs.MixedParens

/-!
# Conversions with mixed line ends

A conversion of a text with mixed line ends writes what it writes for the text without its
carriage returns, but for carriage returns, and tallies the same.
-/

namespace DollarMath

open LineEnds

/-- A converted text without its carriage returns. -/
def Converted.dropReturns (c : Converted) : Converted :=
  ⟨LineEnds.dropReturns c.text, c.tally⟩

/-- Converted texts side by side lose their carriage returns one by one. -/
theorem Converted.concat_dropReturns (cs : List Converted) :
  concat (cs.map dropReturns) = (concat cs).dropReturns
  := by
  induction cs with
  | nil => rfl
  | cons c cs ih =>
    change c.dropReturns ++ concat (cs.map dropReturns) = (c ++ concat cs).dropReturns
    rw [ih]
    change Converted.mk _ _ = Converted.mk (LineEnds.dropReturns (c.text ++ _)) _
    rw [dropReturns_append]
    rfl

/-- The text without its carriage returns is converted in the same way, and the line ends of the
converted text are mixed. -/
structure Conversion.Commutes (f : Conversion) (t : Text) : Prop where
  /-- The same is written and tallied. -/
  eq : f (dropReturns t) = (f t).dropReturns
  /-- No carriage return is torn from its line feed. -/
  isMixed : IsMixed (f t).text

namespace Conversion.Commutes

variable {f : Conversion} {fs : List Conversion} {t : Text}

/-- A text that is left as it is. -/
theorem unchanged (ht : IsMixed t) :
  Conversion.Commutes .unchanged t
  := ⟨rfl, ht⟩

/-- One conversion, and then the others. -/
theorem inOrder_cons (hf : f.Commutes t) (hfs : (Conversion.inOrder fs).Commutes (f t).text) :
  (Conversion.inOrder (f :: fs)).Commutes t
  := by
  constructor
  · rw [Conversion.inOrder_cons, Conversion.inOrder_cons, hf.eq, Converted.andThen,
      Converted.dropReturns, hfs.eq]
    rfl
  · rw [Conversion.inOrder_cons]
    exact hfs.isMixed

/-- One conversion by itself. -/
theorem inOrder_singleton (hf : f.Commutes t) :
  (Conversion.inOrder [f]).Commutes t
  := hf.inOrder_cons (unchanged hf.isMixed)

/-- A conversion between the dollar mathematics of a text. -/
theorem between {scope : Dollars.Scope} (ht : IsMixed t)
    (hf : ∀ k ∈ chunks scope t, k.isMath = false → f.Commutes k.text) :
  (f.between scope).Commutes t
  := by
  have hchunk : ∀ k ∈ chunks scope t,
      Commutes (fun u => if k.isMath then .unchanged u else f u) k.text := by
    intro k hk
    cases hmath : k.isMath with
    | true => exact unchanged (Chunk.isMixed_text ht hk)
    | false => exact hf k hk hmath
  constructor
  · rw [Conversion.between, chunks_dropReturns scope ht, Conversion.between,
      ← Converted.concat_dropReturns, List.map_map, List.map_map]
    congr 1
    apply List.map_congr_left
    intro k hk
    exact (hchunk k hk).eq
  · rw [Conversion.between, Converted.text_concat, List.flatMap_map]
    apply IsMixed.flatMap
    intro k hk
    exact (hchunk k hk).isMixed

end Conversion.Commutes

/-! ### What is written -/

/-- A display without its carriage returns is the display of the body without them. -/
theorem displayOf_dropReturns (body : Text) :
  displayOf (dropReturns body) = dropReturns (displayOf body)
  := by
  rw [displayOf, displayOf, trim_dropReturns, dropReturns_append, dropReturns_append]
  rfl

/-- An inline formula without its carriage returns is that of the body without them. -/
theorem inlineOf_dropReturns (body : Text) :
  inlineOf (dropReturns body) = dropReturns (inlineOf body)
  := by
  rw [inlineOf, inlineOf, trim_dropReturns, dropReturns_append, dropReturns_append]
  rfl

/-- A display has mixed line ends if all carriage returns of its body belong to line ends. -/
theorem isMixed_displayOf {body : Text} (h : IsPaired body) :
  IsMixed (displayOf body)
  := ((IsMixed.of_not_mem (by decide)).append (isMixed_trim h)).append (.of_not_mem (by decide))

/-- An inline formula has mixed line ends if all carriage returns of its body belong to line ends.
-/
theorem isMixed_inlineOf {body : Text} (h : IsPaired body) :
  IsMixed (inlineOf body)
  := ((IsMixed.of_not_mem (by decide)).append (isMixed_trim h)).append (.of_not_mem (by decide))

/-! ### Conversions of enclosures -/

section Enclosures

open Delimiter

variable {t : Text} (ht : IsMixed t)
include ht

/-- Quoted displays are converted alike if none ends before a carriage return. -/
theorem commutes_convertQuotedDisplays (hbare : quotedDisplay.EndsBare t) :
  convertQuotedDisplays.Commutes t
  := by
  have hread := commutes_reader quotedDisplay ht fun _ => hbare
  have hkept : ∀ m ∈ quotedDisplay.reader.findAll t,
      '\r' ∉ ['>', ' ', '$', '$', ' '] ++ Quote.unquote m.value.body ++ [' ', '$', '$'] := by
    intro m hm
    have hnone := (isMixed_body ht hm).return_not_mem_unquote
    simp [hnone]
  constructor
  · rw [convertQuotedDisplays, hread.replace_dropReturns]
    · rfl
    · intro m hm
      have hbody : Quote.unquote (m.dropReturns t Enclosure.dropReturns).value.body
          = Quote.unquote m.value.body := (isMixed_body ht hm).unquote_dropReturns
      rw [hbody, Option.map_some, dropReturns_eq_self (hkept m hm)]
  · apply hread.isMixed_replace ht
    intro m hm w hw
    rw [← Option.some.inj hw]
    exact .of_not_mem (hkept m hm)

/-- Quoted brackets are collapsed alike if none ends before a carriage return. -/
theorem commutes_collapseQuotedBrackets (hbare : quotedBracket.EndsBare t) :
  collapseQuotedBrackets.Commutes t
  := by
  have hread := commutes_reader quotedBracket ht fun _ => hbare
  have hkept : ∀ m ∈ quotedBracket.reader.findAll t,
      '\r' ∉ ['>', ' ', '[', ' '] ++ Quote.unquote m.value.body ++ [' ', ']'] := by
    intro m hm
    have hnone := (isMixed_body ht hm).return_not_mem_unquote
    simp [hnone]
  constructor
  · rw [collapseQuotedBrackets, hread.replace_dropReturns]
    · rfl
    · intro m hm
      have hbody : Quote.unquote (m.dropReturns t Enclosure.dropReturns).value.body
          = Quote.unquote m.value.body := (isMixed_body ht hm).unquote_dropReturns
      dsimp only
      rw [hbody]
      split
      · rfl
      · rw [Option.map_some, dropReturns_eq_self (hkept m hm)]
  · apply hread.isMixed_replace ht
    intro m hm w hw
    dsimp only at hw
    split at hw
    · cases hw
    · rw [← Option.some.inj hw]
      exact .of_not_mem (hkept m hm)

/-- Displays between backslash brackets are converted alike. -/
theorem commutes_convertDisplays :
  convertDisplays.Commutes t
  := by
  have hread := commutes_reader display ht False.elim
  constructor
  · rw [convertDisplays, hread.replace_dropReturns]
    · rfl
    · intro m _
      exact congrArg some (displayOf_dropReturns m.value.body)
  · apply hread.isMixed_replace ht
    intro m hm w hw
    rw [← Option.some.inj hw]
    exact isMixed_displayOf (isMixed_body ht hm).isPaired

/-- Formulas in backslash parentheses are converted alike. -/
theorem commutes_convertInlines :
  convertInlines.Commutes t
  := by
  have hread := commutes_reader inline ht False.elim
  constructor
  · rw [convertInlines, hread.replace_dropReturns]
    · rfl
    · intro m _
      exact congrArg some (inlineOf_dropReturns m.value.body)
  · apply hread.isMixed_replace ht
    intro m hm w hw
    rw [← Option.some.inj hw]
    exact isMixed_inlineOf (isMixed_body ht hm).isPaired

section Judged

variable (hsplit : ¬ HasSplitNumber t)
include hsplit

/-- Bracket blocks are converted alike if none ends before a carriage return. -/
theorem commutes_convertBracketBlocks (hbare : bracketBlock.EndsBare t) :
  convertBracketBlocks.Commutes t
  := by
  have hread := commutes_reader bracketBlock ht fun _ => hbare
  constructor
  · rw [convertBracketBlocks, hread.replaceOutside_dropReturns ht]
    · rfl
    · intro m hm
      have hbody := (isMixed_body ht hm).isPaired.looksMath_dropReturns fun h =>
        hsplit (h.of_isInfix (body_isInfix_of_mem_findAll hm))
      change (if looksMath (dropReturns m.value.body) = true then
          some (dropReturns m.value.marker ++ displayOf (dropReturns m.value.body)) else none) = _
      rw [hbody, displayOf_dropReturns, ← dropReturns_append]
      split
      · rfl
      · rfl
  · apply hread.isMixed_replace ht
    intro m hm w hw
    rw [eq_of_ite_none_ite_eq_some hw]
    exact (isMixed_marker ht hm).append (isMixed_displayOf (isMixed_body ht hm).isPaired)

/-- A bracket is mathematics with its carriage returns and without. -/
theorem isMathBracket_dropReturns {m : Match Enclosure} (hm : m ∈ bracket.reader.findAll t) :
  isMathBracket (m.dropReturns t Enclosure.dropReturns) = isMathBracket m
  := by
  have hmixed := isMixed_body ht hm
  have hrest : IsPaired m.rest := by
    obtain ⟨u, k, hcut, -⟩ := Reader.exists_of_mem_pieces hm
    exact ht.isPaired.of_isInfix ⟨u ++ m.source, [], by rw [hcut]; simp⟩
  have hhead : (dropReturns m.value.body).head? ≠ some '[' ↔ m.value.body.head? ≠ some '[' :=
    not_congr (hmixed.isPaired.head?_dropReturns_iff (by decide))
  have hbody := hmixed.isBracketMath_dropReturns fun h =>
    hsplit (h.of_isInfix (body_isInfix_of_mem_findAll hm))
  have hbehind := hrest.any_head?_dropReturns (q := fun c => c = '(' || c = ':') (by decide)
    (by decide)
  change (!(dropReturns m.rest).head?.any _ && decide ((dropReturns m.value.body).head? ≠ some '[')
    && isBracketMath (dropReturns m.value.body)) = _
  rw [hbehind, hbody, isMathBracket]
  simp only [hhead]

/-- Brackets are converted alike. -/
theorem commutes_convertBrackets :
  convertBrackets.Commutes t
  := by
  have hread := commutes_reader bracket ht False.elim
  constructor
  · rw [convertBrackets, hread.replaceOutside_dropReturns ht]
    · rfl
    · intro m hm
      rw [isMathBracket_dropReturns ht hsplit hm]
      split
      · exact congrArg some (displayOf_dropReturns m.value.body)
      · rfl
  · apply hread.isMixed_replace ht
    intro m hm w hw
    rw [eq_of_ite_none_ite_eq_some hw]
    exact isMixed_displayOf (isMixed_body ht hm).isPaired

/-- Parentheses are converted alike. -/
theorem commutes_convertParens :
  convertParens.Commutes t
  := by
  have hread := Paren.commutes_read ht hsplit
  constructor
  · rw [convertParens, hread.replace_dropReturns]
    · rfl
    · intro m _
      change m.value.dropReturns.formula? = m.value.formula?.map dropReturns
      cases m.value with
      | backslash e => rfl
      | plain formula => rfl
  · apply hread.isMixed_replace ht
    intro m hm w hw
    obtain ⟨body, primes, hform⟩ := Paren.form_of_formula hm hw
    have hsource := (Reader.source_isInfix_of_mem_findAll hm)
    rw [hform.source_eq] at hsource
    rw [hform.formula_eq]
    apply Paren.isMixed_formulaOf
    · apply ht.isPaired.of_isInfix
      apply List.IsInfix.trans _ hsource
      exact ⟨['('], [')'] ++ primes, by simp⟩
    · exact hform.not_mem_primes (by decide)

end Judged

end Enclosures

end DollarMath
