import DollarMath.Proofs.Form
import DollarMath.Proofs.Reading

/-!
# Blocks

Quoted blocks and bracket blocks enclose whole lines.  A block is read where a line starts.  It
opens with an opening line and runs through the first closing line that stands behind the line
after it, whatever the lines between are.
-/

namespace DollarMath

/-- The end of a text, or a line feed. -/
def IsLineStop (t : Text) : Prop :=
  ∀ c ∈ t.head?, c = '\n'

/-- The characters of a class at the front of a text end where another character follows. -/
theorem takeWhile_append_eq {q : Char → Bool} {u v : Text} (hu : ∀ c ∈ u, q c = true)
    (hv : ∀ c ∈ v.head?, q c = false) :
  (u ++ v).takeWhile q = u
  := by
  rw [List.takeWhile_append_of_pos hu]
  cases v with
  | nil => exact List.append_nil u
  | cons c cs => rw [List.takeWhile_cons_of_neg (by simp [hv c rfl]), List.append_nil]

namespace Pattern

/-! ### What patterns take and leave -/

/-- A pattern takes `u` before `v` exactly when `S u v`. -/
def Fits (p : Pattern) (S : Text → Text → Prop) : Prop :=
  ∀ t n, p t = some n ↔ ∃ u v, t = u ++ v ∧ n = u.length ∧ S u v

variable {p : Pattern} {ps : List Pattern} {S S' : Text → Text → Prop}

/-- Two descriptions of the same texts may stand for each other. -/
theorem Fits.congr (h : p.Fits S) (hS : ∀ u v, S u v ↔ S' u v) :
  p.Fits S'
  := by
  intro t n
  simp only [h t n, hS]

/-- A word fits where it stands. -/
theorem fits_literal (w : Text) :
  (literal w).Fits fun u _ => u = w
  := by
  intro t n
  rw [literal_eq_some_iff]
  constructor
  · rintro ⟨rfl, v, rfl⟩
    exact ⟨w, v, rfl, rfl, rfl⟩
  · rintro ⟨u, v, rfl, rfl, rfl⟩
    exact ⟨rfl, v, rfl⟩

/-- A run fits that goes on as long as it can. -/
theorem fits_run (q : Char → Bool) :
  (run q).Fits fun u v => (∀ c ∈ u, q c = true) ∧ ∀ c ∈ v.head?, q c = false
  := by
  intro t n
  constructor
  · intro h
    refine ⟨t.takeWhile q, t.dropWhile q, List.takeWhile_append_dropWhile.symm,
      (Option.some.inj h).symm, fun c hc => List.mem_takeWhile_imp hc, ?_⟩
    intro c hc
    have hhead := List.head?_dropWhile_not q t
    rwa [hc] at hhead
  · rintro ⟨u, v, rfl, rfl, hu, hv⟩
    rw [run, takeWhile_append_eq hu hv]

/-- A line end fits where a line ends, if that is not the end of the text. -/
theorem fits_lineEnd :
  lineEnd.Fits fun u _ => IsLineEnd u
  := by
  intro t n
  constructor
  · intro h
    refine ⟨t.take n, t.drop n, (List.take_append_drop n t).symm, ?_, takes_lineEnd t n h⟩
    rw [lineEnd.eq_def] at h
    split at h
    · obtain rfl := Option.some.inj h
      simp
    · obtain rfl := Option.some.inj h
      simp
    · cases h
  · rintro ⟨u, v, rfl, rfl, rfl | rfl⟩
    · rfl
    · rfl

/-- A line stop fits before a line feed and at the end of the text. -/
theorem fits_lineStop :
  lineStop.Fits fun u v => u = [] ∧ IsLineStop v
  := by
  intro t n
  rw [lineStop.eq_def]
  cases t with
  | nil =>
    constructor
    · intro h
      exact ⟨[], [], rfl, (Option.some.inj h).symm, rfl, by simp [IsLineStop]⟩
    · rintro ⟨u, v, -, rfl, rfl, -⟩
      rfl
  | cons c cs =>
    dsimp only
    rw [Option.ite_none_right_eq_some]
    constructor
    · rintro ⟨rfl, h⟩
      exact ⟨[], _, rfl, (Option.some.inj h).symm, rfl, by simp [IsLineStop]⟩
    · rintro ⟨u, v, ht, rfl, rfl, hv⟩
      rw [List.nil_append] at ht
      exact ⟨hv c (by rw [← ht]; rfl), rfl⟩

theorem fits_inOrder_nil :
  (inOrder []).Fits fun u _ => u = []
  := by
  intro t n
  constructor
  · intro h
    exact ⟨[], t, rfl, (Option.some.inj h).symm, rfl⟩
  · rintro ⟨u, v, -, rfl, rfl⟩
    rfl

/-- Patterns one after another fit if each fits in front of what the next ones take. -/
theorem Fits.inOrder_cons (hp : p.Fits S) (hps : (inOrder ps).Fits S') :
  (inOrder (p :: ps)).Fits fun u v => ∃ u₁ u₂, u = u₁ ++ u₂ ∧ S u₁ (u₂ ++ v) ∧ S' u₂ v
  := by
  intro t n
  simp only [inOrder, Option.bind_eq_bind, Option.bind_eq_some_iff]
  constructor
  · rintro ⟨a, ha, b, hb, heq⟩
    obtain rfl := Option.some.inj heq
    obtain ⟨u₁, w, rfl, rfl, h₁⟩ := (hp t a).mp ha
    rw [List.drop_left] at hb
    obtain ⟨u₂, v, rfl, rfl, h₂⟩ := (hps _ b).mp hb
    exact ⟨u₁ ++ u₂, v, by rw [List.append_assoc], by rw [List.length_append], u₁, u₂, rfl, h₁, h₂⟩
  · rintro ⟨u, v, rfl, rfl, u₁, u₂, rfl, h₁, h₂⟩
    rw [List.append_assoc]
    refine ⟨u₁.length, (hp _ _).mpr ⟨u₁, u₂ ++ v, rfl, rfl, h₁⟩, u₂.length, ?_, ?_⟩
    · rw [List.drop_left]
      exact (hps _ _).mpr ⟨u₂, v, rfl, rfl, h₂⟩
    · rw [List.length_append]
      rfl

end Pattern

namespace Delimiter

/-! ### The forms of blocks -/

/-- The opening of a quoted block, through the end of its line. -/
def IsQuotedOpening (mark t : Text) : Prop :=
  ∃ s₁ s₂ n, t = ['>'] ++ (s₁ ++ (mark ++ (s₂ ++ n))) ∧ IsSpaces s₁ ∧ IsSpaces s₂ ∧ IsLineEnd n

/-- The closing of a quoted block, from the line end before it. -/
def IsQuotedClosing (mark t : Text) : Prop :=
  ∃ n s₁ s₂, t = n ++ (['>'] ++ (s₁ ++ (mark ++ s₂))) ∧ IsLineEnd n ∧ IsSpaces s₁ ∧ IsSpaces s₂

/-- The opening of a bracket block, behind its marker. -/
def IsBlockOpening (t : Text) : Prop :=
  ∃ s n, t = ['['] ++ (s ++ n) ∧ IsSpaces s ∧ IsLineEnd n

/-- The closing of a bracket block, from the line end before it. -/
def IsBlockClosing (t : Text) : Prop :=
  ∃ n s₁ s₂, t = n ++ (s₁ ++ ([']'] ++ s₂)) ∧ IsLineEnd n ∧ IsSpaces s₁ ∧ IsSpaces s₂

/-- A delimiter of one or two characters that are no spaces. -/
def IsMark (w : Text) : Prop :=
  w ≠ [] ∧ ∀ c ∈ w, c ∈ ['\\', '[', ']']

/-- A delimiter starts with no space. -/
theorem IsMark.not_space {w : Text} (h : IsMark w) (v : Text) :
  ∀ c ∈ (w ++ v).head?, isSpaceOrTab c = false
  := by
  obtain ⟨c, w, rfl⟩ := List.exists_cons_of_ne_nil h.1
  intro d hd
  obtain rfl := Option.some.inj hd
  have hc := h.2 c List.mem_cons_self
  simp only [List.mem_cons, List.not_mem_nil, or_false] at hc
  rcases hc with rfl | rfl | rfl <;> rfl

/-- A delimiter stands on one line. -/
theorem IsMark.newline_not_mem {w : Text} (h : IsMark w) :
  '\n' ∉ w
  := by
  intro hmem
  have hc := h.2 _ hmem
  simp at hc

/-- A line end starts with no space. -/
theorem not_space_of_isLineEnd {n : Text} (h : IsLineEnd n) (v : Text) :
  ∀ c ∈ (n ++ v).head?, isSpaceOrTab c = false
  := by
  rcases h with rfl | rfl
  · simp [isSpaceOrTab]
  · simp [isSpaceOrTab]

/-- No space stands where a line stops. -/
theorem not_space_of_isLineStop {v : Text} (h : IsLineStop v) :
  ∀ c ∈ v.head?, isSpaceOrTab c = false
  := by
  intro c hc
  rw [h c hc]
  rfl

/-- The opening of a quoted block fits where one stands, with all its spaces. -/
theorem fits_quotedOpening {mark : Text} (hmark : IsMark mark) :
  (quotedOpening mark).Fits fun u _ => IsQuotedOpening mark u
  := by
  apply ((Pattern.fits_literal ['>']).inOrder_cons ((Pattern.fits_run _).inOrder_cons
    ((Pattern.fits_literal mark).inOrder_cons ((Pattern.fits_run _).inOrder_cons
    (Pattern.fits_lineEnd.inOrder_cons Pattern.fits_inOrder_nil))))).congr
  intro u v
  constructor
  · rintro ⟨_, _, rfl, rfl, s₁, _, rfl, ⟨hs₁, -⟩, _, _, rfl, rfl, s₂, _, rfl, ⟨hs₂, -⟩, n, _, rfl,
      hn, rfl⟩
    exact ⟨s₁, s₂, n, by rw [List.append_nil], hs₁, hs₂, hn⟩
  · rintro ⟨s₁, s₂, n, rfl, hs₁, hs₂, hn⟩
    refine ⟨_, _, rfl, rfl, _, _, rfl, ⟨hs₁, ?_⟩, _, _, rfl, rfl, _, _, rfl, ⟨hs₂, ?_⟩, n, [], ?_,
      hn, rfl⟩
    · rw [List.append_assoc]
      exact hmark.not_space _
    · exact not_space_of_isLineEnd hn v
    · rw [List.append_nil]

/-- The closing of a quoted block fits where one stands and the line stops behind it. -/
theorem fits_quotedClosing {mark : Text} (hmark : IsMark mark) :
  (quotedClosing mark).Fits fun u v => IsQuotedClosing mark u ∧ IsLineStop v
  := by
  apply (Pattern.fits_lineEnd.inOrder_cons ((Pattern.fits_literal ['>']).inOrder_cons
    ((Pattern.fits_run _).inOrder_cons ((Pattern.fits_literal mark).inOrder_cons
    ((Pattern.fits_run _).inOrder_cons
    (Pattern.fits_lineStop.inOrder_cons Pattern.fits_inOrder_nil)))))).congr
  intro u v
  constructor
  · rintro ⟨n, _, rfl, hn, _, _, rfl, rfl, s₁, _, rfl, ⟨hs₁, -⟩, _, _, rfl, rfl, s₂, _, rfl,
      ⟨hs₂, -⟩, _, _, rfl, ⟨rfl, hv⟩, rfl⟩
    exact ⟨⟨n, s₁, s₂, by simp only [List.append_nil], hn, hs₁, hs₂⟩, hv⟩
  · rintro ⟨⟨n, s₁, s₂, rfl, hn, hs₁, hs₂⟩, hv⟩
    refine ⟨_, _, rfl, hn, _, _, rfl, rfl, _, _, rfl, ⟨hs₁, ?_⟩, _, _, rfl, rfl, s₂, [], ?_,
      ⟨hs₂, ?_⟩, [], [], rfl, ⟨rfl, hv⟩, rfl⟩
    · rw [List.append_assoc]
      exact hmark.not_space _
    · rw [List.append_nil]
    · exact not_space_of_isLineStop hv

/-- The opening of a bracket block fits where one stands. -/
theorem fits_blockOpening :
  blockOpening.Fits fun u _ => IsBlockOpening u
  := by
  apply ((Pattern.fits_literal ['[']).inOrder_cons ((Pattern.fits_run _).inOrder_cons
    (Pattern.fits_lineEnd.inOrder_cons Pattern.fits_inOrder_nil))).congr
  intro u v
  constructor
  · rintro ⟨_, _, rfl, rfl, s, _, rfl, ⟨hs, -⟩, n, _, rfl, hn, rfl⟩
    exact ⟨s, n, by rw [List.append_nil], hs, hn⟩
  · rintro ⟨s, n, rfl, hs, hn⟩
    refine ⟨_, _, rfl, rfl, _, _, rfl, ⟨hs, ?_⟩, n, [], ?_, hn, rfl⟩
    · exact not_space_of_isLineEnd hn v
    · rw [List.append_nil]

/-- The closing of a bracket block fits where one stands and the line stops behind it. -/
theorem fits_blockClosing :
  blockClosing.Fits fun u v => IsBlockClosing u ∧ IsLineStop v
  := by
  apply (Pattern.fits_lineEnd.inOrder_cons ((Pattern.fits_run _).inOrder_cons
    ((Pattern.fits_literal [']']).inOrder_cons ((Pattern.fits_run _).inOrder_cons
    (Pattern.fits_lineStop.inOrder_cons Pattern.fits_inOrder_nil))))).congr
  intro u v
  constructor
  · rintro ⟨n, _, rfl, hn, s₁, _, rfl, ⟨hs₁, -⟩, _, _, rfl, rfl, s₂, _, rfl, ⟨hs₂, -⟩, _, _, rfl,
      ⟨rfl, hv⟩, rfl⟩
    exact ⟨⟨n, s₁, s₂, by simp only [List.append_nil], hn, hs₁, hs₂⟩, hv⟩
  · rintro ⟨⟨n, s₁, s₂, rfl, hn, hs₁, hs₂⟩, hv⟩
    refine ⟨_, _, rfl, hn, _, _, rfl, ⟨hs₁, ?_⟩, _, _, rfl, rfl, s₂, [], ?_, ⟨hs₂, ?_⟩, [], [], rfl,
      ⟨rfl, hv⟩, rfl⟩
    · simp [isSpaceOrTab]
    · rw [List.append_nil]
    · exact not_space_of_isLineStop hv

/-- The delimiters that enclose whole lines. -/
def IsBlock : Delimiter → Prop
  | quotedDisplay | quotedBracket | bracketBlock => True
  | display | bracket | inline => False

/-- The closing of a kind of blocks. -/
def HasClosing : Delimiter → Text → Prop
  | quotedDisplay, u => IsQuotedClosing ['\\', ']'] u
  | quotedBracket, u => IsQuotedClosing [']'] u
  | bracketBlock, u => IsBlockClosing u
  | display, u => u = ['\\', ']']
  | bracket, u => u = [']']
  | inline, u => u = ['\\', ')']

/-- No text of `C` stands before a line stop and starts before the position `i`. -/
def IsFirst (C : Text → Prop) (t : Text) (i : Nat) : Prop :=
  ∀ a u v, t = a ++ (u ++ v) → C u → IsLineStop v → i ≤ a.length

/-! ### Closings -/

theorem newline_not_mem_of_isSpaces {s : Text} (h : IsSpaces s) :
  '\n' ∉ s
  := fun hmem => absurd (h _ hmem) (by decide)

/-- A line end has one line feed. -/
theorem count_newline_of_isLineEnd {n : Text} (h : IsLineEnd n) :
  n.count '\n' = 1
  := by
  rcases h with rfl | rfl
  · rfl
  · rfl

/-- A closing holds one line feed, and does not end with it. -/
theorem newline_of_hasClosing {d : Delimiter} (hd : d.IsBlock) {c : Text} (h : d.HasClosing c) :
  ∃ n l, c = n ++ l ∧ IsLineEnd n ∧ l ≠ [] ∧ '\n' ∉ l
  := by
  cases d with
  | quotedDisplay | quotedBracket | bracketBlock =>
    obtain ⟨n, s₁, s₂, rfl, hn, hs₁, hs₂⟩ := h
    refine ⟨n, _, rfl, hn, by simp, ?_⟩
    simp [newline_not_mem_of_isSpaces hs₁, newline_not_mem_of_isSpaces hs₂]
  | display | bracket | inline => cases hd

/-- The closing of a block has one line feed. -/
theorem count_newline_of_hasClosing {d : Delimiter} (hd : d.IsBlock) {c : Text}
    (h : d.HasClosing c) :
  c.count '\n' = 1
  := by
  obtain ⟨n, l, rfl, hn, -, hl⟩ := newline_of_hasClosing hd h
  rw [List.count_append, count_newline_of_isLineEnd hn, List.count_eq_zero.mpr hl]

/-- Whether a line stops is seen from the first text that is not empty. -/
theorem isLineStop_append {u v : Text} (hu : IsLineStop u) (hv : u = [] → IsLineStop v) :
  IsLineStop (u ++ v)
  := by
  cases u with
  | nil => exact hv rfl
  | cons c u => exact hu

/-- Whether a closing is the first one does not depend on what stands behind its line. -/
theorem IsFirst.congr_rest {d : Delimiter} (hd : d.IsBlock) {body c v v' : Text}
    (hc : d.HasClosing c) (hv : IsLineStop v) (hv' : IsLineStop v')
    (h : IsFirst d.HasClosing (body ++ (c ++ v)) body.length) :
  IsFirst d.HasClosing (body ++ (c ++ v')) body.length
  := by
  intro a u w heq hu hw
  by_contra hlt
  obtain ⟨b, rfl⟩ : ∃ b, body = a ++ b := by
    rcases List.append_eq_append_iff.mp heq with ⟨b, rfl, -⟩ | ⟨b, hb, -⟩
    · simp at hlt
    · exact ⟨b, hb⟩
  rw [List.append_assoc, List.append_cancel_left_eq, ← List.append_assoc,
    List.append_eq_append_iff] at heq
  obtain ⟨x, hx, rfl⟩ : ∃ x, b ++ c = u ++ x ∧ w = x ++ v' := by
    rcases heq with ⟨x, rfl, rfl⟩ | hx
    · cases x with
      | nil => exact ⟨[], by simp, rfl⟩
      | cons e x =>
        obtain rfl : e = '\n' := hv' e rfl
        have hcount := count_newline_of_hasClosing hd hu
        rw [List.count_append, List.count_append, count_newline_of_hasClosing hd hc,
          List.count_cons_self] at hcount
        omega
    · exact hx
  apply hlt
  apply h a u (x ++ v) _ hu
  · apply isLineStop_append (fun e he => hw e (List.mem_head?_append_of_mem_head? he)) fun _ => hv
  · rw [List.append_assoc, ← List.append_assoc b, hx, List.append_assoc]

/-- No closing fits before a position if the first one stands behind it. -/
theorem forall_eq_none_iff_isFirst
    {closing : Pattern} {C : Text → Prop} (h : closing.Fits fun u v => C u ∧ IsLineStop v)
    {t : Text} {n : Nat} :
  (∀ i < n, closing (t.drop i) = none) ↔ IsFirst C t n
  := by
  constructor
  · rintro hnone a u v rfl hu hv
    by_contra hlt
    have hfits := (h (u ++ v) u.length).mpr ⟨u, v, rfl, rfl, hu, hv⟩
    have hnone := hnone a.length (Nat.lt_of_not_le hlt)
    rw [List.drop_left, hfits] at hnone
    cases hnone
  · intro hfirst i hi
    by_contra hsome
    obtain ⟨m, hm⟩ := Option.ne_none_iff_exists'.mp hsome
    obtain ⟨u, v, ht, -, hu, hv⟩ := (h _ m).mp hm
    have hle := hfirst (t.take i) u v (by rw [← ht, List.take_append_drop]) hu hv
    have htake := t.length_take_le i
    omega

/-- The shortest text before a closing with a line stop behind it is the one before the first such
closing. -/
theorem upTo_closing_eq_some_iff
    {closing : Pattern} {C : Text → Prop} (h : closing.Fits fun u v => C u ∧ IsLineStop v)
    {t body : Text} {n : Nat} :
  closing.upTo t = some (body, n)
    ↔ ∃ u v, t = body ++ (u ++ v) ∧ n = u.length ∧ C u ∧ IsLineStop v ∧ IsFirst C t body.length
  := by
  rw [Pattern.upTo_eq_some_iff, forall_eq_none_iff_isFirst h]
  constructor
  · rintro ⟨⟨w, rfl⟩, hfits, hfirst⟩
    rw [List.drop_left] at hfits
    obtain ⟨u, v, rfl, rfl, hu, hv⟩ := (h w n).mp hfits
    exact ⟨u, v, rfl, rfl, hu, hv, hfirst⟩
  · rintro ⟨u, v, rfl, rfl, hu, hv, hfirst⟩
    refine ⟨List.prefix_append _ _, ?_, hfirst⟩
    rw [List.drop_left]
    exact (h _ _).mpr ⟨u, v, rfl, rfl, hu, hv⟩

/-! ### Readers of blocks -/

/-- A quoted block is read where it starts a line, has the form of one, ends where its line stops,
and closes at the first closing behind its opening. -/
theorem readQuoted_eq_some_iff
    {openMark closeMark : Text} (hopen : IsMark openMark) (hclose : IsMark closeMark)
    {p : Place} {t : Text} {e : Enclosure} {k : Nat} :
  readQuoted openMark closeMark p t = some (e, k)
    ↔ p.atLineStart = true ∧ QuotedForm openMark closeMark e ∧ k = e.source.length
      ∧ ∃ v, t = e.source ++ v ∧ IsLineStop v
        ∧ IsFirst (IsQuotedClosing closeMark) (e.body ++ (e.closing ++ v)) e.body.length
  := by
  rw [readQuoted, Option.ite_none_right_eq_some]
  apply and_congr_right
  intro _
  simp only [Option.bind_eq_bind, Option.bind_eq_some_iff]
  constructor
  · rintro ⟨n, hn, ⟨body, m⟩, hbody, heq⟩
    obtain ⟨o, z, rfl, rfl, ho⟩ := (fits_quotedOpening hopen t n).mp hn
    rw [List.drop_left] at hbody
    obtain ⟨c, v, rfl, rfl, hc, hv, hfirst⟩ :=
      (upTo_closing_eq_some_iff (fits_quotedClosing hclose)).mp hbody
    have hbehind : (o ++ (body ++ (c ++ v))).drop (o.length + body.length) = c ++ v := by
      rw [← List.drop_drop, List.drop_left, List.drop_left]
    simp only [hbehind, List.take_left] at heq
    obtain ⟨rfl, rfl⟩ := Prod.mk.inj (Option.some.inj heq)
    refine ⟨⟨⟨rfl, rfl⟩, ho, hc⟩, ?_, v, ?_, hv, hfirst⟩
    · simp [Enclosure.source, Nat.add_assoc]
    · simp [Enclosure.source]
  · rintro ⟨⟨⟨hindent, hmarker⟩, ho, hc⟩, rfl, v, rfl, hv, hfirst⟩
    obtain ⟨indent, marker, o, body, c⟩ := e
    dsimp only at hindent hmarker ho hc hfirst ⊢
    subst hindent hmarker
    have htext : Enclosure.source ⟨[], [], o, body, c⟩ ++ v = o ++ (body ++ (c ++ v)) := by
      simp [Enclosure.source]
    have hbehind : (o ++ (body ++ (c ++ v))).drop (o.length + body.length) = c ++ v := by
      rw [← List.drop_drop, List.drop_left, List.drop_left]
    rw [htext]
    refine ⟨o.length, (fits_quotedOpening hopen _ _).mpr ⟨o, _, rfl, rfl, ho⟩, (body, c.length), ?_,
      ?_⟩
    · rw [List.drop_left]
      exact (upTo_closing_eq_some_iff (fits_quotedClosing hclose)).mpr
        ⟨c, v, rfl, rfl, hc, hv, hfirst⟩
    · simp only [hbehind, List.take_left]
      simp [Enclosure.source, Nat.add_assoc]

/-- No character of a marker is blank. -/
theorem isBlank_of_isMarkerChar {c : Char} (h : isMarkerChar c = true) :
  isBlank c = false
  := by
  simp only [isMarkerChar, Bool.or_eq_true, decide_eq_true_eq, Bool.and_eq_true, List.mem_cons,
    List.not_mem_nil, or_false] at h
  rcases h with (rfl | rfl | rfl | rfl | rfl | rfl) | ⟨hle, hge⟩
  all_goals try rfl
  have hle : 48 ≤ c.toNat := hle
  have hge : c.toNat ≤ 57 := hge
  simp only [isBlank, blankRanges, CodeRanges.has, Bool.and_eq_false_imp, Bool.or_eq_false_iff,
    decide_eq_true_eq, decide_eq_false_iff_not]
  omega

/-- The marker before a bracket is found as a whole. -/
theorem markerOf_append {marker z : Text} (hmarker : IsMarker marker) (hz : z.head? = some '[') :
  markerOf (marker ++ z) = marker
  := by
  obtain ⟨z, rfl⟩ := List.head?_eq_some_iff.mp hz
  rcases hmarker with rfl | ⟨m, b, rfl, hne, hm, hb⟩
  · rfl
  · have hhead : ∀ c ∈ (b ++ '[' :: z).head?, isMarkerChar c = false := by
      cases b with
      | nil => simp [isMarkerChar]
      | cons c b =>
        intro d hd
        obtain rfl := Option.some.inj hd
        by_contra hmark
        have hblank := isBlank_of_isMarkerChar (Bool.of_not_eq_false hmark)
        rw [hb _ List.mem_cons_self] at hblank
        cases hblank
    have hblanks : (b ++ '[' :: z).takeWhile isBlank = b :=
      takeWhile_append_eq hb (by simp [isBlank, blankRanges, CodeRanges.has])
    rw [markerOf, List.append_assoc, takeWhile_append_eq hm hhead]
    split
    · next hnil => exact absurd rfl hne
    · rw [List.drop_left, hblanks]

/-- A marker before a bracket starts with no space, and neither does the bracket. -/
theorem not_space_of_isMarker {marker z : Text} (hmarker : IsMarker marker)
    (hz : z.head? = some '[') :
  ∀ c ∈ (marker ++ z).head?, isSpaceOrTab c = false
  := by
  rcases hmarker with rfl | ⟨m, b, rfl, hne, hm, -⟩
  · rw [List.nil_append, hz]
    simp [isSpaceOrTab]
  · obtain ⟨c, m, rfl⟩ := List.exists_cons_of_ne_nil hne
    intro d hd
    obtain rfl := Option.some.inj hd
    by_contra hspace
    have hblank := isBlank_of_isMarkerChar (hm _ List.mem_cons_self)
    rw [isBlank_of_isSpaceOrTab (Bool.of_not_eq_false hspace)] at hblank
    cases hblank

/-- A bracket block is read where it starts a line, has the form of one, ends where its line stops,
and closes at the first closing behind its opening. -/
theorem readBracketBlock_eq_some_iff {p : Place} {t : Text} {e : Enclosure} {k : Nat} :
  readBracketBlock p t = some (e, k)
    ↔ p.atLineStart = true ∧ BlockForm e ∧ k = e.source.length
      ∧ ∃ v, t = e.source ++ v ∧ IsLineStop v
        ∧ IsFirst IsBlockClosing (e.body ++ (e.closing ++ v)) e.body.length
  := by
  rw [readBracketBlock, Option.ite_none_right_eq_some]
  apply and_congr_right
  intro _
  simp only [Option.bind_eq_bind, Option.bind_eq_some_iff]
  constructor
  · rintro ⟨n, hn, ⟨body, m⟩, hbody, heq⟩
    have hindent : IsSpaces (t.takeWhile isSpaceOrTab) := fun c hc => List.mem_takeWhile_imp hc
    obtain ⟨y, hy⟩ := t.takeWhile_prefix isSpaceOrTab
    generalize t.takeWhile isSpaceOrTab = indent at hn hbody heq hindent hy
    subst hy
    have hmarker := isMarker_markerOf y
    obtain ⟨z, hz⟩ := markerOf_isPrefix y
    simp only [List.drop_left, ← List.drop_drop] at hn hbody heq
    generalize markerOf y = marker at hn hbody heq hmarker hz
    subst hz
    rw [List.drop_left] at hn
    obtain ⟨o, z, rfl, rfl, ho⟩ := (fits_blockOpening z n).mp hn
    simp only [List.drop_left] at hbody
    obtain ⟨c, v, rfl, rfl, hc, hv, hfirst⟩ := (upTo_closing_eq_some_iff fits_blockClosing).mp hbody
    simp only [List.drop_left, List.take_left] at heq
    obtain ⟨rfl, rfl⟩ := Prod.mk.inj (Option.some.inj heq)
    refine ⟨⟨hindent, hmarker, ho, hc⟩, ?_, v, ?_, hv, hfirst⟩
    · simp [Enclosure.source, Nat.add_assoc]
    · simp [Enclosure.source]
  · rintro ⟨⟨hindent, hmarker, ho, hc⟩, rfl, v, rfl, hv, hfirst⟩
    obtain ⟨indent, marker, o, body, c⟩ := e
    dsimp only at hindent hmarker ho hc hfirst ⊢
    have htext : Enclosure.source ⟨indent, marker, o, body, c⟩ ++ v
        = indent ++ (marker ++ (o ++ (body ++ (c ++ v)))) := by
      simp [Enclosure.source]
    have hhead : (o ++ (body ++ (c ++ v))).head? = some '[' := by
      obtain ⟨s, n, rfl, -⟩ := ho
      rfl
    have htake : (indent ++ (marker ++ (o ++ (body ++ (c ++ v))))).takeWhile isSpaceOrTab
        = indent := takeWhile_append_eq hindent (not_space_of_isMarker hmarker hhead)
    have hdrop : (indent ++ (marker ++ (o ++ (body ++ (c ++ v))))).drop
        (indent.length + marker.length) = o ++ (body ++ (c ++ v)) := by
      rw [← List.drop_drop, List.drop_left, List.drop_left]
    simp only [htext, htake, List.drop_left, markerOf_append hmarker hhead, ← List.drop_drop]
    refine ⟨o.length, (fits_blockOpening _ _).mpr ⟨o, _, rfl, rfl, ho⟩, (body, c.length), ?_, ?_⟩
    · rw [List.drop_left]
      exact (upTo_closing_eq_some_iff fits_blockClosing).mpr ⟨c, v, rfl, rfl, hc, hv, hfirst⟩
    · simp only [List.take_left, List.drop_left]
      simp [Enclosure.source, Nat.add_assoc]

/-- A block is read where a line starts, from its opening through the first closing behind its
opening that stands before a line stop. -/
theorem reader_eq_some_iff_of_isBlock {d : Delimiter} (hd : d.IsBlock)
    {p : Place} {t : Text} {e : Enclosure} {k : Nat} :
  d.reader p t = some (e, k)
    ↔ p.atLineStart = true ∧ d.HasForm e ∧ k = e.source.length
      ∧ ∃ v, t = e.source ++ v ∧ IsLineStop v
        ∧ IsFirst d.HasClosing (e.body ++ (e.closing ++ v)) e.body.length
  := by
  cases d with
  | quotedDisplay => exact readQuoted_eq_some_iff (by simp [IsMark]) (by simp [IsMark])
  | quotedBracket => exact readQuoted_eq_some_iff (by simp [IsMark]) (by simp [IsMark])
  | bracketBlock => exact readBracketBlock_eq_some_iff
  | display | bracket | inline => cases hd

/-- The closing of a block is one of its kind. -/
theorem hasClosing_of_hasForm {d : Delimiter} (hd : d.IsBlock) {e : Enclosure} (h : d.HasForm e) :
  d.HasClosing e.closing
  := by
  cases d with
  | quotedDisplay => exact QuotedForm.closing h
  | quotedBracket => exact QuotedForm.closing h
  | bracketBlock => exact BlockForm.closing h
  | display | bracket | inline => cases hd

/-- A block may have another body and another closing. -/
theorem hasForm_of_hasClosing {d : Delimiter} (hd : d.IsBlock) {e : Enclosure} (h : d.HasForm e)
    (body : Text) {closing : Text} (hclosing : d.HasClosing closing) :
  d.HasForm { e with body := body, closing := closing }
  := by
  cases d with
  | quotedDisplay =>
    have h : QuotedForm _ _ e := h
    exact ⟨h.before, h.opening, hclosing⟩
  | quotedBracket =>
    have h : QuotedForm _ _ e := h
    exact ⟨h.before, h.opening, hclosing⟩
  | bracketBlock =>
    have h : BlockForm e := h
    exact ⟨h.indent, h.marker, h.opening, hclosing⟩
  | display | bracket | inline => cases hd

/-- A block is not empty. -/
theorem source_ne_nil_of_isBlock {d : Delimiter} (hd : d.IsBlock) {e : Enclosure}
    (h : d.HasForm e) :
  e.source ≠ []
  := by
  have hcount := count_newline_of_hasClosing hd (hasClosing_of_hasForm hd h)
  intro hnil
  rw [Enclosure.source] at hnil
  rw [(List.append_eq_nil_iff.mp hnil).2] at hcount
  cases hcount

/-- If there is a closing, there is a first one. -/
theorem exists_isFirst {C : Text → Prop} {t a u v : Text} (ht : t = a ++ (u ++ v)) (hu : C u)
    (hv : IsLineStop v) :
  ∃ a' u' v', t = a' ++ (u' ++ v') ∧ C u' ∧ IsLineStop v' ∧ IsFirst C t a'.length
  := by
  induction hn : a.length using Nat.strongRecOn generalizing a u v with
  | ind n ih =>
    subst hn
    by_cases hfirst : IsFirst C t a.length
    · exact ⟨a, u, v, ht, hu, hv, hfirst⟩
    · simp only [IsFirst, not_forall, Nat.not_le] at hfirst
      obtain ⟨a', u', v', ht', hu', hv', hlt⟩ := hfirst
      exact ih a'.length hlt ht' hu' hv' rfl

/-- Nothing is read exactly where no line starts, or no block stands. -/
theorem passes_iff_of_isBlock {d : Delimiter} (hd : d.IsBlock) {p : Place} {t : Text} :
  d.reader.Passes p t
    ↔ (p.atLineStart = true → ∀ e v, t = e.source ++ v → d.HasForm e → ¬ IsLineStop v)
  := by
  constructor
  · rintro h hline e v rfl he hv
    obtain ⟨a, u, w, hcut, hu, hw, hfirst⟩ :=
      exists_isFirst (t := e.body ++ (e.closing ++ v)) rfl (hasClosing_of_hasForm hd he) hv
    have he' := hasForm_of_hasClosing hd he a hu
    have hpos := List.length_pos_iff.mpr (source_ne_nil_of_isBlock hd he')
    apply h { e with body := a, closing := u }
      ((Enclosure.source { e with body := a, closing := u }).length - 1)
    apply (reader_eq_some_iff_of_isBlock hd).mpr
    refine ⟨hline, he', Nat.sub_add_cancel hpos, w, ?_, hw, ?_⟩
    · simp only [Enclosure.source, List.append_assoc, hcut]
    · rw [← hcut]
      exact hfirst
  · intro h e k hread
    obtain ⟨hline, he, -, v, ht, hv, -⟩ := (reader_eq_some_iff_of_isBlock hd).mp hread
    exact h hline e v ht he hv

/-- The matches of a kind of blocks are the blocks that start a line, stop before a line stop and
hold no closing before their own. -/
theorem isRead_iff_of_isBlock {d : Delimiter} (hd : d.IsBlock) {p : Place} {m : Match Enclosure}
    {n : Nat} :
  Reader.IsRead d.reader p m n
    ↔ m.start = p.offset ∧ p.atLineStart = true ∧ d.HasForm m.value ∧ m.source = m.value.source
      ∧ n + 1 = m.source.length ∧ IsLineStop m.rest
      ∧ IsFirst d.HasClosing (m.value.body ++ (m.value.closing ++ m.rest)) m.value.body.length
  := by
  constructor
  · rintro ⟨hstart, -, hread, hsource⟩
    obtain ⟨hline, hform, hlength, v, ht, hv, hfirst⟩ := (reader_eq_some_iff_of_isBlock hd).mp hread
    rw [ht, hlength, List.take_left] at hsource
    rw [hsource] at ht
    obtain rfl := List.append_cancel_left ht
    rw [hsource]
    exact ⟨hstart, hline, hform, rfl, hlength, hv, hfirst⟩
  · rintro ⟨hstart, hline, hform, hsource, hlength, hrest, hfirst⟩
    constructor
    · exact hstart
    · rw [hsource]
      exact source_ne_nil_of_isBlock hd hform
    · apply (reader_eq_some_iff_of_isBlock hd).mpr
      refine ⟨hline, hform, by rw [hlength, hsource], m.rest, by rw [hsource], hrest, hfirst⟩
    · rw [hlength, List.take_left]

/-! ### Quoted blocks -/

/-- The kinds of quoted blocks, with their opening and their closing delimiter. -/
inductive IsQuoted : Delimiter → Text → Text → Prop where
  /-- Backslash brackets. -/
  | display : IsQuoted quotedDisplay ['\\', '['] ['\\', ']']
  /-- Plain brackets. -/
  | bracket : IsQuoted quotedBracket ['['] [']']

namespace IsQuoted

variable {d : Delimiter} {openMark closeMark : Text} (hd : d.IsQuoted openMark closeMark)
include hd

theorem isBlock :
  d.IsBlock
  := by
  cases hd
  · trivial
  · trivial

theorem isMark :
  IsMark openMark ∧ IsMark closeMark
  := by
  cases hd
  · simp [IsMark]
  · simp [IsMark]

theorem hasForm_iff (e : Enclosure) :
  d.HasForm e ↔ QuotedForm openMark closeMark e
  := by
  cases hd
  · rfl
  · rfl

theorem hasClosing_iff (c : Text) :
  d.HasClosing c ↔ IsQuotedClosing closeMark c
  := by
  cases hd
  · rfl
  · rfl

/-- An opening is one line, and its line feed ends it. -/
theorem opening_eq_concat {o : Text} (h : IsQuotedOpening openMark o) :
  ∃ x, o = '>' :: (x ++ ['\n']) ∧ '\n' ∉ x
  := by
  obtain ⟨s₁, s₂, n, rfl, hs₁, hs₂, hn⟩ := h
  have hmark := hd.isMark.1.newline_not_mem
  have hline : ∀ r, '\n' ∉ r →
      ∃ x, '>' :: (s₁ ++ (openMark ++ (s₂ ++ (r ++ ['\n'])))) = '>' :: (x ++ ['\n'])
        ∧ '\n' ∉ x := by
    intro r hr
    refine ⟨s₁ ++ (openMark ++ (s₂ ++ r)), by simp, ?_⟩
    simp [hmark, hr, newline_not_mem_of_isSpaces hs₁, newline_not_mem_of_isSpaces hs₂]
  rcases hn with rfl | rfl
  · exact hline [] (by simp)
  · exact hline ['\r'] (by simp)

end IsQuoted

end Delimiter

end DollarMath
