import DollarMath.Proofs.Brackets
import DollarMath.Proofs.Fencing

/-!
# Footnotes, page links and links

A footnote mark or a page link is no bracket that is converted.  But a bracket ends at the next
closing bracket, so one that is still open before a mark ends in the mark, and then only its
own front tells whether it is converted.

A link or a link definition is told by the character behind it.  A bracket that shares a character
with it ends at its closing bracket as well, so the same character stands behind both, and neither
is converted.

The brackets are told match by match, by `isRewritten`.  By `convertBrackets_eq_replace`, the
conversion of brackets rewrites just these.
-/

namespace DollarMath

/-! ### Open brackets -/

/-- The bracket that is open at the end of a text: from the first opening bracket that no
closing one follows.  It is empty if no bracket is open. -/
def openBracket : Text → Text
  | [] => []
  | c :: cs => if c = '[' ∧ ']' ∉ cs then c :: cs else openBracket cs

/-- No bracket closes behind the one that is open. -/
theorem closing_not_mem_openBracket (u : Text) :
  ']' ∉ openBracket u
  := by
  induction u with
  | nil => simp [openBracket]
  | cons c cs ih =>
    rw [openBracket]
    split
    · next h => simp [h.1, h.2]
    · exact ih

/-- An open bracket starts with an opening bracket. -/
theorem head?_openBracket {u : Text} (h : openBracket u ≠ []) :
  (openBracket u).head? = some '['
  := by
  induction u with
  | nil => exact absurd rfl h
  | cons c cs ih =>
    rw [openBracket] at h ⊢
    split at h
    · next hopen => rw [if_pos hopen, hopen.1]; rfl
    · next hopen =>
      rw [if_neg hopen]
      exact ih h

/-- Before the open bracket every opening bracket is followed by a closing one. -/
theorem exists_eq_append_openBracket (u : Text) :
  ∃ x, u = x ++ openBracket u ∧ IsClosed x
  := by
  induction u with
  | nil =>
    refine ⟨[], rfl, ?_⟩
    intro a b h
    simp at h
  | cons c cs ih =>
    rw [openBracket]
    split
    · refine ⟨[], rfl, ?_⟩
      intro a b h
      simp at h
    · next hopen =>
      obtain ⟨x, hx, hclosed⟩ := ih
      refine ⟨c :: x, by rw [List.cons_append, ← hx], ?_⟩
      intro a b h
      cases a with
      | nil =>
        obtain ⟨rfl, rfl⟩ := List.cons.inj h
        have hmem : ']' ∈ cs := by simpa using hopen
        rw [hx, List.mem_append] at hmem
        exact hmem.resolve_right (closing_not_mem_openBracket cs)
      | cons d a =>
        obtain ⟨rfl, hx'⟩ := List.cons.inj h
        exact hclosed a b hx'

/-! ### Marks -/

/-- A mark in brackets that is no mathematics. -/
inductive Mark where
  /-- A footnote mark. -/
  | footnote (label : Text)
  /-- A link to another page. -/
  | pageLink (page : Text)
deriving DecidableEq, Repr

namespace Mark

/-- The text in the brackets of a mark. -/
def label : Mark → Text
  | footnote label => label
  | pageLink page => page

/-- The second character of a mark. -/
def sign : Mark → Char
  | footnote _ => '^'
  | pageLink _ => '['

theorem sign_ne (k : Mark) :
  ']' ≠ k.sign
  := by
  cases k with
  | footnote label => simp [sign]
  | pageLink page => simp [sign]

/-- What follows the first closing bracket of a mark. -/
def tail : Mark → Text
  | footnote _ => []
  | pageLink _ => [']']

/-- The characters of a mark. -/
def source (k : Mark) : Text :=
  ['[', k.sign] ++ k.label ++ [']'] ++ k.tail

theorem length_source (k : Mark) :
  k.source.length = k.label.length + 3 + k.tail.length
  := by
  rw [source]
  simp only [List.length_append, List.length_cons, List.length_nil]
  omega

end Mark

/-- What is enclosed between the bracket that is open before a mark, or that of the mark if none
is open, and the first closing bracket of the mark. -/
def bracketThrough (u : Text) (k : Mark) (v : Text) : Match Enclosure :=
  let front := openBracket u ++ (['[', k.sign] ++ k.label)
  ⟨u.length - (openBracket u).length, front ++ [']'], ⟨[], [], ['['], front.tail, [']']⟩,
    k.tail ++ v⟩

variable {u v : Text} {k : Mark}

/-- A mark by itself is not rewritten. -/
theorem isRewritten_bracketThrough_of_eq_nil (h : openBracket u = []) (t : Text) :
  isRewritten t (bracketThrough u k v) = false
  := by
  have hmath : isMathBracket (bracketThrough u k v) = false := by
    cases k with
    | footnote label => simp [isMathBracket, bracketThrough, h, isBracketMath, Mark.sign]
    | pageLink page => simp [isMathBracket, bracketThrough, h, Mark.sign]
  rw [isRewritten, hmath, Bool.and_false]

/-- The bracket that is open before a mark reaches through it. -/
theorem span_bracketThrough (u : Text) (k : Mark) (v : Text) :
  (bracketThrough u k v).start ≤ u.length
    ∧ (bracketThrough u k v).span.stop = u.length + k.label.length + 3
  := by
  obtain ⟨x, hx, -⟩ := exists_eq_append_openBracket u
  have hlength := congrArg List.length hx
  rw [List.length_append] at hlength
  simp only [Match.span, bracketThrough, List.length_append, List.length_cons, List.length_nil]
  omega

/-- The bracket that ends in a mark does not stand apart from it. -/
theorem not_apart_bracketThrough :
  ¬ (bracketThrough u k v).span.Apart ⟨u.length, u.length + k.source.length⟩
  := by
  obtain ⟨hstart, hstop⟩ := span_bracketThrough u k v
  rw [Mark.length_source]
  rintro (hle | hle)
  · rw [hstop] at hle
    dsimp only at hle
    omega
  · dsimp only [Match.span] at hle
    omega

section

variable (h : ']' ∉ k.label)
include h

/-- A bracket that ends in a mark is a bracket that is read. -/
theorem isBracket_bracketThrough :
  Delimiter.IsBracket (bracketThrough u k v).value
    ∧ (bracketThrough u k v).source = (bracketThrough u k v).value.source
  := by
  have hsign := k.sign_ne
  by_cases hopen : openBracket u = []
  · refine ⟨⟨_, rfl, ?_, ?_⟩, ?_⟩
    · simp [hopen]
    · simp [hopen, h, hsign]
    · simp [bracketThrough, Enclosure.source, hopen]
  · obtain ⟨y, hy⟩ := List.head?_eq_some_iff.mp (head?_openBracket hopen)
    have hclosing : ']' ∉ y := by
      have hmem := closing_not_mem_openBracket u
      rw [hy] at hmem
      exact List.not_mem_of_not_mem_cons hmem
    refine ⟨⟨_, rfl, ?_, ?_⟩, ?_⟩
    · simp [hy]
    · simp [hy, h, hsign, hclosing]
    · simp [bracketThrough, Enclosure.source, hy]

/-- A bracket that ends in a mark is found. -/
theorem bracketThrough_mem_findAll :
  bracketThrough u k v ∈ Delimiter.bracket.reader.findAll (u ++ (k.source ++ v))
  := by
  obtain ⟨x, hx, hclosed⟩ := exists_eq_append_openBracket u
  obtain ⟨hbracket, hsource⟩ := isBracket_bracketThrough (u := u) (v := v) h
  have htext : u ++ (k.source ++ v)
      = x ++ ((bracketThrough u k v).source ++ (bracketThrough u k v).rest) := by
    conv_lhs => rw [hx]
    simp [bracketThrough, Mark.source]
  have hstart : (bracketThrough u k v).start = x.length := by
    have hlength := congrArg List.length hx
    rw [List.length_append] at hlength
    dsimp only [bracketThrough]
    omega
  rw [htext]
  exact mem_findAll_bracket_of_isClosed hclosed hstart hbracket hsource

/-- All brackets but the one that ends in a mark stand apart from the mark. -/
theorem apart_mark_of_ne
    {m : Match Enclosure} (hm : m ∈ Delimiter.bracket.reader.findAll (u ++ (k.source ++ v)))
    (hne : m ≠ bracketThrough u k v) :
  m.span.Apart ⟨u.length, u.length + k.source.length⟩
  := by
  have hbounds := span_bracketThrough u k v
  rcases Reader.apart_of_mem_findAll hm (bracketThrough_mem_findAll h) hne with hbefore | hbehind
  · left
    exact Nat.le_trans hbefore hbounds.1
  · right
    rw [hbounds.2] at hbehind
    cases k with
    | footnote label =>
      simp only [Match.span, Mark.length_source, Mark.label, Mark.tail,
        List.length_nil] at hbehind ⊢
      omega
    | pageLink page =>
      have hstart : m.start ≠ u.length + page.length + 3 := by
        intro heq
        have hhead := head?_source_of_mem_findAll hm
        rw [← Reader.getElem?_start_of_mem_findAll hm, heq, Nat.add_assoc,
          List.getElem?_append_right (Nat.le_add_right _ _), Nat.add_sub_cancel_left] at hhead
        simp [Mark.source, Mark.sign, Mark.label, Mark.tail] at hhead
      simp only [Match.span, Mark.length_source, Mark.label, Mark.tail, List.length_cons,
        List.length_nil] at hbehind ⊢
      omega

/-- The brackets that are rewritten stand apart from a footnote mark or a page link exactly when
no bracket is open before it, or the open one, up to the first closing bracket of the mark, is
not rewritten. -/
theorem apart_mark_iff :
  (∀ m ∈ Delimiter.bracket.reader.findAll (u ++ (k.source ++ v)),
      isRewritten (u ++ (k.source ++ v)) m = true →
        m.span.Apart ⟨u.length, u.length + k.source.length⟩)
    ↔ openBracket u = [] ∨ isRewritten (u ++ (k.source ++ v)) (bracketThrough u k v) = false
  := by
  constructor
  · intro hapart
    right
    rw [Bool.eq_false_iff]
    intro hrewritten
    apply not_apart_bracketThrough (u := u) (k := k) (v := v)
    apply hapart _ (bracketThrough_mem_findAll h) hrewritten
  · intro hspared m hm hrewritten
    apply apart_mark_of_ne h hm
    rintro rfl
    have hkept : isRewritten (u ++ (k.source ++ v)) (bracketThrough u k v) = false := by
      rcases hspared with hopen | hkept
      · apply isRewritten_bracketThrough_of_eq_nil hopen
      · exact hkept
    rw [hkept] at hrewritten
    cases hrewritten

end

/-- A page link in a bracket that is no mathematics, and is left as it is. -/
theorem apart_mark_iff_open :
  let u := ['[', '1', ']', ' ', '[', 's', 'e', 'e', ' ']
  let k := Mark.pageLink ['p']
  (']' ∉ k.label ∧ openBracket u ≠ []
      ∧ isRewritten (u ++ (k.source ++ [])) (bracketThrough u k []) = false)
    ∧ ∀ m ∈ Delimiter.bracket.reader.findAll (u ++ (k.source ++ [])),
      isRewritten (u ++ (k.source ++ [])) m = true →
        m.span.Apart ⟨u.length, u.length + k.source.length⟩
  := by
  intro u k
  have hlabel : ']' ∉ k.label := by decide
  have hspared : isRewritten (u ++ (k.source ++ [])) (bracketThrough u k []) = false := by decide
  exact ⟨⟨hlabel, by decide, hspared⟩, (apart_mark_iff hlabel).mpr (.inr hspared)⟩

/-- An interval that is half open before a footnote mark is rewritten together with the
mark. -/
theorem not_apart_mark :
  let u := ['[', '0', ',', ' ']
  let k := Mark.footnote ['1']
  (k.label ≠ [] ∧ '[' ∉ k.label ∧ ']' ∉ k.label ∧ '\n' ∉ k.label)
    ∧ (∃ m ∈ Delimiter.bracket.reader.findAll (u ++ k.source),
      isRewritten (u ++ k.source) m = true
        ∧ ¬ m.span.Apart ⟨u.length, u.length + k.source.length⟩)
    ∧ convertBrackets (u ++ k.source)
      = ⟨['$', '$', '\n', '0', ',', ' ', '[', '^', '1', '\n', '$', '$'], .ofBlock 1⟩
  := by
  decide

/-! ### Links -/

/-- In a text whose last opening bracket is followed by no closing one, a closing bracket stands
before that opening one. -/
theorem length_lt_of_append_eq {a b x w : Text} (h : ']' ∉ b)
    (heq : a ++ '[' :: b = x ++ ']' :: w) :
  x.length < a.length
  := by
  have hk : (a ++ '[' :: b)[x.length]? = some ']' := by simp [heq]
  by_contra hle
  rw [List.getElem?_append_right (Nat.le_of_not_lt hle)] at hk
  rcases List.mem_cons.mp (List.mem_of_getElem? hk) with heq | hmem
  · cases heq
  · exact h hmem

/-- A bracket stands apart from a text in brackets, or ends with it. -/
theorem rest_eq_or_apart
    {u label v : Text} (hlabel : ']' ∉ label) {m : Match Enclosure}
    (hm : m ∈ Delimiter.bracket.reader.findAll ((u ++ '[' :: label) ++ ']' :: v)) :
  m.rest = v ∨ m.span.Apart ⟨u.length, u.length + (label.length + 2)⟩
  := by
  obtain ⟨x, -, ht, hstart, ⟨body, hvalue, -, hbody⟩, hsource⟩ :=
    exists_isClosed_of_mem_findAll hm
  have hsource : m.source = '[' :: body ++ [']'] := by simp [hsource, hvalue, Enclosure.source]
  have ht : (u ++ '[' :: label) ++ ']' :: v = (x ++ '[' :: body) ++ ']' :: m.rest := by
    rw [ht, hsource]
    simp
  have hspan : m.span = ⟨x.length, x.length + (body.length + 2)⟩ := by
    simp [Match.span, hstart, hsource]
  rw [hspan]
  rcases List.append_eq_append_iff.mp ht with ⟨w, hw, hv⟩ | ⟨w, hw, hrest⟩
  · cases w with
    | nil => exact .inl (List.cons.inj hv).2.symm
    | cons c w =>
      right; right
      obtain ⟨rfl, -⟩ := List.cons.inj hv
      have hlt := length_lt_of_append_eq hbody hw
      simp only [List.length_append, List.length_cons] at hlt ⊢
      omega
  · cases w with
    | nil => exact .inl (List.cons.inj hrest).2
    | cons c w =>
      right; left
      obtain ⟨rfl, -⟩ := List.cons.inj hrest
      have hlt := length_lt_of_append_eq hlabel hw
      simp only [List.length_append, List.length_cons] at hlt ⊢
      omega

/-- The brackets that are rewritten stand apart from every link, whose text is followed by a
parenthesis, and from every link definition, whose label is followed by a colon. -/
theorem apart_link
    {u label v : Text} {sign : Char} (hlabel : ']' ∉ label) (hsign : sign = '(' ∨ sign = ':') :
  ∀ m ∈ Delimiter.bracket.reader.findAll ((u ++ '[' :: label) ++ ']' :: sign :: v),
    isRewritten ((u ++ '[' :: label) ++ ']' :: sign :: v) m = true →
      m.span.Apart ⟨u.length, u.length + (label.length + 2)⟩
  := by
  intro m hm hrewritten
  apply (rest_eq_or_apart hlabel hm).resolve_left
  intro hrest
  have hmath : isMathBracket m = false := by
    rw [isMathBracket, hrest]
    rcases hsign with rfl | rfl <;> rfl
  rw [isRewritten, hmath, Bool.and_false] at hrewritten
  cases hrewritten

/-- A link whose text is mathematics, behind another link and an interval that is half open. -/
theorem apart_link_open :
  let u := ['[', 'a', ']', '(', 'b', ')', ' ', '[', '0', ',', '$', ' ']
  let label := ['x', '=', '2']
  (']' ∉ label ∧ ('(' = '(' ∨ '(' = ':'))
    ∧ ∀ m ∈ Delimiter.bracket.reader.findAll ((u ++ '[' :: label) ++ ']' :: '(' :: ['c', ')']),
      isRewritten ((u ++ '[' :: label) ++ ']' :: '(' :: ['c', ')']) m = true →
        m.span.Apart ⟨u.length, u.length + (label.length + 2)⟩
  := by
  intro u label
  have hlabel : ']' ∉ label := by decide
  exact ⟨⟨hlabel, .inl rfl⟩, apart_link hlabel (.inl rfl)⟩

end DollarMath
