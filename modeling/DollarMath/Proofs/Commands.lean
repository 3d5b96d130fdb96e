import DollarMath.Command
import DollarMath.Proofs.Blocks

/-!
# Texts without their commands

A command is read with all the letters behind its backslash, so that no letter stands behind the
command.  A backslash that starts no command is not followed by a letter either.  When commands
between such a backslash and the rest of the text are dropped, it comes to stand before a
character that is no letter, or at the end of the text, and no new command arises.
-/

namespace DollarMath

/-! ### Names -/

/-- The name of a command: Latin letters, at least one. -/
structure IsName (name : Text) : Prop where
  /-- There is a letter. -/
  ne_nil : name ≠ []
  /-- There are letters only. -/
  all : ∀ c ∈ name, isLatinLetter c = true

/-- A text where a name before it ends: no letter stands at the front. -/
def EndsName (t : Text) : Prop :=
  ∀ c ∈ t.head?, isLatinLetter c = false

/-- A name ends before a character that is no letter. -/
theorem endsName_cons {c : Char} {cs : Text} :
  EndsName (c :: cs) ↔ isLatinLetter c = false
  := by
  simp [EndsName]

/-- A name ends where no letters go on. -/
theorem endsName_iff {t : Text} :
  EndsName t ↔ t.takeWhile isLatinLetter = []
  := by
  cases t with
  | nil => simp [EndsName]
  | cons c cs => simp [endsName_cons, List.takeWhile_cons]

/-- It ends behind all its letters. -/
theorem endsName_dropWhile (t : Text) :
  EndsName (t.dropWhile isLatinLetter)
  := by
  intro c hc
  have hhead := List.head?_dropWhile_not isLatinLetter t
  rw [Option.mem_def.mp hc] at hhead
  simpa using hhead

/-- It does not end before them. -/
theorem IsName.not_endsName {name : Text} (h : IsName name) (t : Text) :
  ¬ EndsName (name ++ t)
  := by
  obtain ⟨c, cs, rfl⟩ := List.exists_cons_of_ne_nil h.ne_nil
  rw [List.cons_append, endsName_cons, h.all c List.mem_cons_self]
  simp

/-- Where a name ends is told by the letters. -/
theorem IsName.append_inj {name name' t t' : Text} (h : IsName name) (h' : IsName name')
    (ht : EndsName t) (ht' : EndsName t') (heq : name ++ t = name' ++ t') :
  name = name' ∧ t = t'
  := by
  have hname : name = name' := by
    rw [← takeWhile_append_eq h.all ht, heq, takeWhile_append_eq h'.all ht']
  rw [hname] at heq
  exact ⟨hname, List.append_cancel_left heq⟩

/-! ### Reading commands -/

/-- A command is read with all its letters. -/
theorem command_eq_some_iff {p : Place} {t name : Text} {k : Nat} :
  command p t = some (name, k)
    ↔ IsName name ∧ k = name.length + 1 ∧ ∃ rest, t = '\\' :: (name ++ rest) ∧ EndsName rest
  := by
  constructor
  · intro h
    rw [command.eq_def] at h
    split at h
    · next cs =>
      obtain ⟨hne, heq⟩ := Option.ite_none_left_eq_some.mp h
      obtain ⟨rfl, rfl⟩ := Prod.mk.inj (Option.some.inj heq)
      have hname : IsName (cs.takeWhile isLatinLetter) :=
        ⟨by simpa only [List.isEmpty_iff] using hne, fun c hc => List.mem_takeWhile_imp hc⟩
      use hname, rfl, cs.dropWhile isLatinLetter
      rw [List.takeWhile_append_dropWhile]
      exact ⟨rfl, endsName_dropWhile cs⟩
    · cases h
  · rintro ⟨hname, rfl, rest, rfl, hrest⟩
    simp [command, takeWhile_append_eq hname.all hrest, hname.ne_nil]

/-- No command is read at a character, unless it is a backslash with a letter behind it. -/
theorem passes_command_iff {p : Place} {c : Char} {cs : Text} :
  command.Passes p (c :: cs) ↔ (c = '\\' → EndsName cs)
  := by
  constructor
  · rintro h rfl
    by_contra hcs
    rw [endsName_iff, ← List.isEmpty_iff] at hcs
    apply h (cs.takeWhile isLatinLetter) (cs.takeWhile isLatinLetter).length
    exact if_neg hcs
  · intro h a k hread
    obtain ⟨hname, -, rest, heq, -⟩ := command_eq_some_iff.mp hread
    obtain ⟨hc, rfl⟩ := List.cons.inj heq
    exact hname.not_endsName rest (h hc)

/-- A command that is read is a backslash and a whole name. -/
theorem form_of_isRead_command {p : Place} {m : Match Text} {n : Nat} (h : command.IsRead p m n) :
  IsName m.value ∧ m.source = '\\' :: m.value ∧ EndsName m.rest
  := by
  obtain ⟨hname, hn, rest, heq, hrest⟩ := command_eq_some_iff.mp h.read
  have hsource : m.source = '\\' :: m.value := by
    rw [h.source_eq, heq, hn, List.take_succ_cons, List.take_left]
  rw [hsource, List.cons_append, List.cons.injEq] at heq
  rw [List.append_cancel_left heq.2]
  exact ⟨hname, hsource, hrest⟩

/-! ### Texts with no command -/

/-- A text where no letter follows a backslash. -/
def IsCommandFree (t : Text) : Prop :=
  ∀ c, isLatinLetter c = true → ¬ ['\\', c] <:+: t

theorem isCommandFree_nil :
  IsCommandFree []
  := by
  intro c _ hinside
  cases List.infix_nil.mp hinside

/-- Whether there is a command is seen at the first character and in the rest. -/
theorem isCommandFree_cons {c : Char} {cs : Text} :
  IsCommandFree (c :: cs) ↔ (c = '\\' → EndsName cs) ∧ IsCommandFree cs
  := by
  have hfront : (c = '\\' → EndsName cs)
      ↔ ∀ d, isLatinLetter d = true → ¬ ['\\', d] <+: c :: cs := by
    cases cs with
    | nil => simp [EndsName]
    | cons e es =>
      simp only [List.cons_prefix_cons, List.nil_prefix, and_true, endsName_cons]
      constructor
      · rintro h d hd ⟨rfl, rfl⟩
        rw [h rfl] at hd
        cases hd
      · rintro h rfl
        by_contra he
        exact h e (by simpa using he) ⟨rfl, rfl⟩
  rw [hfront, IsCommandFree, IsCommandFree, ← forall_and]
  apply forall_congr'
  intro d
  rw [List.infix_cons_iff, not_or]
  tauto

/-- A text has no command exactly when no letter follows a backslash in it. -/
theorem hasCommand_eq_false_iff {t : Text} :
  hasCommand t = false ↔ IsCommandFree t
  := by
  have hfound : (command.pieces t).filterMap Piece.match? = [] ↔ IsCommandFree t := by
    apply Reader.piecesFrom_induction fun _ t ps => ps.filterMap Piece.match? = [] ↔ IsCommandFree t
    · intro _
      simp [isCommandFree_nil]
    · intro p c cs hpass ih
      rw [isCommandFree_cons, ← ih, and_iff_right (passes_command_iff.mp hpass)]
      rfl
    · intro p m n hm _
      obtain ⟨hname, hsource, -⟩ := form_of_isRead_command hm
      rw [hsource, List.cons_append, isCommandFree_cons]
      constructor
      · intro hnil
        cases hnil
      · intro hfree
        exact absurd (hfree.1 rfl) (hname.not_endsName m.rest)
  rw [← hfound, hasCommand, Reader.findAll]
  simp

/-! ### Dropped commands -/

/-- What is left of a text without its commands, read from left to right: a command goes with all
its letters, and every other character stays. -/
inductive DropsCommands : Text → Text → Prop where
  /-- The empty text has nothing to drop. -/
  | nil : DropsCommands [] []
  /-- A character that does not start a command stays. -/
  | char {c : Char} {t u : Text} : (c = '\\' → EndsName t) → DropsCommands t u →
      DropsCommands (c :: t) (c :: u)
  /-- A command goes, up to the end of its name. -/
  | command {name t u : Text} : IsName name → EndsName t → DropsCommands t u →
      DropsCommands ('\\' :: (name ++ t)) u

/-- The scan drops commands as the relation says. -/
theorem dropsCommands_dropCommands (t : Text) :
  DropsCommands t (dropCommands t)
  := by
  rw [dropCommands, Reader.text_replace]
  apply Reader.piecesFrom_induction fun _ t ps =>
    DropsCommands t (ps.flatMap (Piece.written fun _ => some []))
  · exact fun _ => .nil
  · intro p c cs hpass ih
    exact .char (passes_command_iff.mp hpass) ih
  · intro p m n hm ih
    obtain ⟨hname, hsource, hrest⟩ := form_of_isRead_command hm
    rw [hsource] at ih ⊢
    exact .command hname hrest ih

/-- A text with no command has nothing to drop. -/
theorem IsCommandFree.dropsCommands {t : Text} (h : IsCommandFree t) :
  DropsCommands t t
  := by
  induction t with
  | nil => exact .nil
  | cons c cs ih =>
    obtain ⟨hc, hcs⟩ := isCommandFree_cons.mp h
    exact .char hc (ih hcs)

namespace DropsCommands

variable {t u v : Text}

/-- What is left is told by the text. -/
theorem unique (h : DropsCommands t u) (h' : DropsCommands t v) :
  u = v
  := by
  induction h generalizing v with
  | nil =>
    cases h'
    rfl
  | @char c t u hc _ ih =>
    cases h' with
    | char _ h' => rw [ih h']
    | command hname _ _ => exact absurd (hc rfl) (hname.not_endsName _)
  | @command name t u hname ht _ ih =>
    generalize heq : '\\' :: (name ++ t) = s at h'
    cases h' with
    | nil => cases heq
    | char hc _ =>
      obtain ⟨rfl, rfl⟩ := List.cons.inj heq
      exact absurd (hc rfl) (hname.not_endsName t)
    | command hname' ht' h' =>
      obtain ⟨-, rfl⟩ := hname.append_inj hname' ht ht' (List.cons.inj heq).2
      exact ih h'

/-- A name that ends before a text ends before what is left of the text as well. -/
theorem endsName (h : DropsCommands t u) (ht : EndsName t) :
  EndsName u
  := by
  induction h with
  | nil => exact ht
  | char _ _ _ => exact endsName_cons.mpr (endsName_cons.mp ht)
  | command _ hrest _ ih => exact ih hrest

/-- No command is left. -/
theorem isCommandFree (h : DropsCommands t u) :
  IsCommandFree u
  := by
  induction h with
  | nil => exact isCommandFree_nil
  | char hc h ih =>
    rw [isCommandFree_cons]
    constructor
    · intro hback
      apply h.endsName (hc hback)
    · exact ih
  | command _ _ _ ih => exact ih

end DropsCommands

/-- The commands of a text are dropped once and for all: each of them goes with all its letters,
no command is left, and there is nothing more to drop. -/
theorem hasCommand_dropCommands (t : Text) :
  DropsCommands t (dropCommands t)
    ∧ hasCommand (dropCommands t) = false
    ∧ dropCommands (dropCommands t) = dropCommands t
  := by
  have hdrops := dropsCommands_dropCommands t
  have hfree := hdrops.isCommandFree
  use hdrops, hasCommand_eq_false_iff.mpr hfree
  apply (dropsCommands_dropCommands (dropCommands t)).unique hfree.dropsCommands

/-- A backslash before a command comes to stand before what follows the command. -/
example : dropCommands ['\\', '\\', 't', 'o', '1', '\\', 'a'] = ['\\', '1'] := by decide

end DollarMath
