import DollarMath.Run
import Mathlib.Data.List.Basic

/-!
# What a run leaves alone

A run writes to one path at most, the output if one is given and else the input, and only when it
has converted something and does not only check.  After that it can fail in one way only: a line
that tells what it has done cannot be shown.  So each of some runs, one after another, changes at
most the file of its destination, and it leaves all files as they are when it fails or converts
nothing, exactly when it shows all its lines after it has changed a file.
-/

namespace DollarMath

variable {F : Type} [DecidableEq F]

/-! ### Files and lines -/

namespace Files

@[simp]
theorem put_self (files : Files F) (f : F) (bytes : Bytes) :
  files.put f bytes f = some bytes
  := if_pos rfl

/-- Other files stay. -/
theorem put_of_ne {f g : F} (h : g ≠ f) (files : Files F) (bytes : Bytes) :
  files.put f bytes g = files g
  := if_neg h

end Files

namespace Host

omit [DecidableEq F]

/-- The console shows a line with markup. -/
def Shows (h : Host F) (line : String) : Prop :=
  ∃ shown, h.console line = .ok shown

/-- Nothing stops the showing of lines that the console shows. -/
theorem error_showLines_eq_none_iff (h : Host F) (lines : List String) :
  (h.showLines lines).error = none ↔ ∀ line ∈ lines, h.Shows line
  := by
  induction lines with
  | nil => simp [showLines]
  | cons line lines ih =>
    rw [showLines, List.forall_mem_cons, Shows]
    cases h.console line with
    | error e => simp
    | ok shown => simpa using ih

end Host

/-! ### One run -/

namespace Request

omit [DecidableEq F] in
/-- The exit code of a run whose lines are all shown, and of any other run. -/
theorem exitCode_report (r : Request) (h : Host F) (outcome : Outcome) (events : List Event) :
  ((r.report h outcome events).exitCode = outcome.exitCode ∧ ∀ line ∈ outcome.lines, h.Shows line)
    ∨ ((r.report h outcome events).exitCode = 1 ∧ ¬ ∀ line ∈ outcome.lines, h.Shows line)
  := by
  rw [← h.error_showLines_eq_none_iff, Report.exitCode, report]
  cases (h.showLines outcome.lines).error with
  | none => exact .inl ⟨rfl, rfl⟩
  | some e => exact .inr ⟨rfl, Option.some_ne_none e⟩

/-- A run leaves the files as they are, or it puts bytes in the file of its destination and says
so. -/
theorem run_cases (r : Request) (h : Host F) (files : Files F) :
  (r.run h files).1 = files
    ∨ ∃ bytes tally events, r.run h files
      = (files.put (h.file r.destination) bytes, r.report h (.written tally r.output) events)
  := by
  rw [run]
  split
  · left
    rfl
  · next bytes tally events _ =>
    split
    · left
      rfl
    · right
      use bytes, tally, events

end Request

/-- A run among others: the files before and after it, the call, and the report. -/
structure Step (F : Type) where
  /-- The files before the run. -/
  before : Files F
  /-- What is called for. -/
  call : Call F
  /-- The files after the run. -/
  after : Files F
  /-- The report of the run. -/
  report : Report

namespace Step

omit [DecidableEq F] in
/-- A file is changed, or created. -/
def Changes (s : Step F) (f : F) : Prop :=
  s.after f ≠ s.before f

omit [DecidableEq F] in
/-- Only the file that the destination leads to is changed. -/
def KeepsOthers (s : Step F) : Prop :=
  ∀ f, s.Changes f → f = s.call.host.file s.call.request.destination

omit [DecidableEq F] in
/-- Without success, and when nothing is converted, no file is changed. -/
def IsAtomic (s : Step F) : Prop :=
  s.report.exitCode ≠ 0 ∨ s.report.outcome = .unchanged → ∀ f, ¬ s.Changes f

omit [DecidableEq F] in
/-- If a file is changed, all status lines are shown. -/
def ShowsLines (s : Step F) : Prop :=
  (∃ f, s.Changes f) → ∀ line ∈ s.report.outcome.lines, s.call.host.Shows line

/-- A step of a run. -/
def IsRun (s : Step F) : Prop :=
  s.call.request.run s.call.host s.before = (s.after, s.report)

/-- A step leaves the files as they are, or it puts bytes in one and says so. -/
theorem IsRun.cases {s : Step F} (h : s.IsRun) :
  s.after = s.before
    ∨ ∃ bytes tally events,
      s.after = s.before.put (s.call.host.file s.call.request.destination) bytes
        ∧ s.report = s.call.request.report s.call.host (.written tally s.call.request.output) events
  := by
  rcases s.call.request.run_cases s.call.host s.before with hkept | ⟨bytes, tally, events, hrun⟩
  · left
    rw [h] at hkept
    exact hkept
  · right
    rw [h] at hrun
    obtain ⟨hafter, hreport⟩ := Prod.mk.inj hrun
    exact ⟨bytes, tally, events, hafter, hreport⟩

omit [DecidableEq F] in
/-- Nothing is changed where the files stay. -/
theorem not_changes {s : Step F} (h : s.after = s.before) (f : F) :
  ¬ s.Changes f
  := by
  rw [Changes, h]
  intro hne
  exact hne rfl

/-- A step changes at most the file of its destination. -/
theorem IsRun.keepsOthers {s : Step F} (h : s.IsRun) :
  s.KeepsOthers
  := by
  intro f hchange
  rcases h.cases with hkept | ⟨bytes, tally, events, hafter, -⟩
  · exact absurd hchange (not_changes hkept f)
  · by_contra hne
    apply hchange
    rw [hafter, Files.put_of_ne hne]

/-- A run is atomic exactly when it shows its lines after it has changed a file. -/
theorem IsRun.isAtomic_iff {s : Step F} (h : s.IsRun) :
  s.IsAtomic ↔ s.ShowsLines
  := by
  rcases h.cases with hkept | ⟨bytes, tally, events, -, hreport⟩
  · apply iff_of_true
    · intro _
      apply not_changes hkept
    · rintro ⟨f, hchange⟩
      exact absurd hchange (not_changes hkept f)
  · rw [IsAtomic, ShowsLines, hreport]
    rcases s.call.request.exitCode_report s.call.host (.written tally s.call.request.output) events
      with ⟨hcode, hshown⟩ | ⟨hcode, hunshown⟩
    · apply iff_of_true
      · rintro (hfails | hunchanged)
        · exact absurd hcode hfails
        · cases hunchanged
      · intro _
        exact hshown
    · constructor
      · rintro hatomic ⟨f, hchange⟩
        have hfails : (s.call.request.report s.call.host (.written tally s.call.request.output)
            events).exitCode ≠ 0 := by
          rw [hcode]
          exact Nat.one_ne_zero
        exact absurd hchange (hatomic (.inl hfails) f)
      · intro hshows _ f hchange
        exact hunshown (hshows ⟨f, hchange⟩)

end Step

/-! ### Runs one after another -/

/-- A run among those that are called for one after another, from the files that the one before
has left. -/
def IsStep (files : Files F) (calls : List (Call F)) (s : Step F) : Prop :=
  ∃ i : Nat, (files :: (runAll files calls).map Prod.fst)[i]? = some s.before
    ∧ calls[i]? = some s.call ∧ (runAll files calls)[i]? = some (s.after, s.report)

/-- A run among others is a step by itself. -/
theorem IsStep.isRun {files : Files F} {calls : List (Call F)} {s : Step F}
    (h : IsStep files calls s) :
  s.IsRun
  := by
  obtain ⟨i, hbefore, hcall, hafter⟩ := h
  induction calls generalizing files i with
  | nil => cases hcall
  | cons call calls ih =>
    cases i with
    | zero =>
      obtain rfl := Option.some.inj hbefore
      obtain rfl := Option.some.inj hcall
      apply Option.some.inj hafter
    | succ i => exact ih i hbefore hcall hafter

/-- Each run changes at most the file that its destination leads to, and it leaves all files as
they are when it fails or converts nothing, exactly when it shows all its lines if it has changed
a file. -/
theorem keepsOthers_and_isAtomic_iff {files : Files F} {calls : List (Call F)} {s : Step F}
    (h : IsStep files calls s) :
  s.KeepsOthers ∧ (s.IsAtomic ↔ s.ShowsLines)
  := ⟨h.isRun.keepsOthers, h.isRun.isAtomic_iff⟩

/-- A host that knows UTF-8 and keeps files by their paths, with a console that shows the given
lines and raises an error for a value in any other. -/
def Host.withConsole (lines : List (String × String)) : Host String where
  environment := none
  lookup name := if name = "utf-8" then some Charset.utf8.codec else none
  file := id
  readFailure _ := none
  writeFailure _ := none
  console line :=
    match lines.lookup line with
    | none => .error "ValueError"
    | some shown => .ok [shown]

/-- One file. -/
def Files.only (path : String) (bytes : Bytes) : Files String :=
  Files.put (fun _ => none) path bytes

/-- A run that writes in place what the run before has written to another path. -/
theorem keepsOthers_and_isAtomic_iff_again :
  let host := Host.withConsole [("[green]Converted 1 formula (inline)[/green]",
    "Converted 1 formula (inline)"), ("[green]Written to new.md[/green]", "Written to new.md")]
  let files := Files.only "note.md" [0x5c, 0x28, 0x78, 0x5c, 0x29, 0x28, 0x31, 0x29]
  let calls : List (Call String) :=
    [⟨⟨"note.md", some "new.md", false, none, false⟩, host⟩,
      ⟨⟨"new.md", none, false, none, false⟩, host⟩]
  ∃ s : Step String, IsStep files calls s ∧ s.call.request.input = "new.md" ∧ s.Changes "new.md"
    ∧ (s.KeepsOthers ∧ (s.IsAtomic ↔ s.ShowsLines))
  := by
  intro host files calls
  let first := Request.run ⟨"note.md", some "new.md", false, none, false⟩ host files
  let second := Request.run ⟨"new.md", none, false, none, false⟩ host first.1
  let s : Step String := ⟨first.1, ⟨⟨"new.md", none, false, none, false⟩, host⟩, second.1, second.2⟩
  have h : IsStep files calls s := ⟨1, rfl, rfl, rfl⟩
  have hchange : second.1 "new.md" ≠ first.1 "new.md" := by decide
  exact ⟨s, h, rfl, hchange, keepsOthers_and_isAtomic_iff h⟩

/-- A path is written to, and then the line that tells so cannot be shown. -/
theorem not_isAtomic_place :
  let host := Host.withConsole [("[green]Converted 1 formula (inline)[/green]",
    "Converted 1 formula (inline)")]
  let files := Files.only "note.md" [0x5c, 0x28, 0x78, 0x5c, 0x29]
  let call : Call String := ⟨⟨"note.md", some "a[rgb(,,)].md", false, none, false⟩, host⟩
  ∃ s, IsStep files [call] s ∧ ¬ s.IsAtomic
  := by
  intro host files call
  let run := call.request.run host files
  refine ⟨⟨files, call, run.1, run.2⟩, ⟨0, rfl, rfl, rfl⟩, ?_⟩
  intro hatomic
  have hfails : run.2.exitCode ≠ 0 := by decide
  have hchange : run.1 "a[rgb(,,)].md" ≠ files "a[rgb(,,)].md" := by decide
  exact hatomic (.inl hfails) "a[rgb(,,)].md" hchange

end DollarMath
