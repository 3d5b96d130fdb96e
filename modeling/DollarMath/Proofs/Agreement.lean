import DollarMath.Proofs.Frame
import DollarMath.Proofs.RoundTrip

/-!
# Runs in place, to an output, and to check

What a run decides does not depend on where it writes and whether it only checks, until it encodes
the converted text, which a run that checks does not do.  So three runs on one file, in place, to
an output, and to check, fail alike, find nothing to do alike, or convert alike, if the converted
text has bytes and the lines that tell so are shown.  A character set always has the bytes.
-/

namespace DollarMath

variable {F : Type}

/-- The request with another output, and to check or not. -/
def Request.aimed (r : Request) (output : Option String) (check : Bool) : Request :=
  { r with output := output, check := check }

/-- A fault before anything is converted, or at a later step. -/
def Outcome.IsFault : Outcome → Prop
  | .unknownEncoding _ | .failed _ _ => True
  | _ => False

/-- The console shows all lines of an outcome. -/
def Outcome.IsShown (h : Host F) (outcome : Outcome) : Prop :=
  ∀ line ∈ outcome.lines, h.Shows line

/-- Three runs on the same files agree: in place on the input, with an output, and only to
check. -/
inductive Agree [DecidableEq F] (h : Host F) (files : Files F) (input output : String)
    (inPlace toOutput toCheck : Files F × Report) : Prop
  /-- All fail in the same way. -/
  | failed {report : Report} (hcode : report.exitCode = 1)
    (hinPlace : inPlace = (files, report)) (htoOutput : toOutput = (files, report))
    (htoCheck : toCheck = (files, report))
  /-- All find that no changes are required. -/
  | unchanged {report : Report} (hcode : report.exitCode = 0)
    (houtcome : report.outcome = .unchanged)
    (hinPlace : inPlace = (files, report)) (htoOutput : toOutput = (files, report))
    (htoCheck : toCheck = (files, report))
  /-- The same bytes are written to the input and to the output, where the input is kept, and the
  summary is the same if nothing is written. -/
  | converted {tally : Tally} {bytes : Bytes}
    (hinput : inPlace.1 = files.put (h.file input) bytes)
    (houtput : toOutput.1 = files.put (h.file output) bytes)
    (hkept : h.file output ≠ h.file input → toOutput.1 (h.file input) = files (h.file input))
    (hcheck : toCheck.1 = files)
    (hinPlace : inPlace.2.outcome = .written tally none ∧ inPlace.2.exitCode = 0)
    (htoOutput : toOutput.2.outcome = .written tally (some output) ∧ toOutput.2.exitCode = 0)
    (htoCheck : toCheck.2.outcome = .pending tally ∧ toCheck.2.exitCode = 1)
    (hshown : (Outcome.pending tally).IsShown h)

namespace Request

/-! ### One decision -/

/-- What is decided, whatever the output and the check: to fail before anything is converted, to
leave the file as it is, or to encode a converted text and write it unless the run only checks. -/
theorem decideBytes_cases (r : Request) (lookup : String → Option Codec)
    (environment : Option String) (file : Except Failure Bytes) :
  (∃ outcome : Outcome, outcome.IsFault ∧ ∀ output check,
      (r.aimed output check).failureRecord? outcome = r.failureRecord? outcome
        ∧ (r.aimed output check).decideBytes lookup environment file = .finish outcome [])
    ∨ (∃ events, ∀ output check,
      (r.aimed output check).decideBytes lookup environment file = .finish .unchanged events)
    ∨ ∃ tally events, ∃ result : Except Failure Bytes, ∀ output check,
      (r.aimed output check).decideBytes lookup environment file
        = if check then .finish (.pending tally) events else .ofEncoded tally events result
  := by
  have hchoose : ∀ output check,
      Settings.choose lookup (r.aimed output check).encoding environment
        = Settings.choose lookup r.encoding environment := fun _ _ => rfl
  simp only [decideBytes, hchoose]
  cases Settings.choose lookup r.encoding environment with
  | error e => exact .inl ⟨.unknownEncoding e, trivial, fun _ _ => ⟨rfl, rfl⟩⟩
  | ok settings =>
    cases file with
    | error failure =>
      left
      use .failed .reading failure, trivial
      intro output check
      cases failure with
      | reported message => exact ⟨rfl, rfl⟩
      | raised error => exact ⟨rfl, rfl⟩
    | ok bs =>
      dsimp only
      cases settings.codec.decode bs with
      | error failure =>
        left
        use .failed .decoding failure, trivial
        intro output check
        cases failure with
        | reported message => exact ⟨rfl, rfl⟩
        | raised error => exact ⟨rfl, rfl⟩
      | ok t =>
        right
        rcases decideText_cases settings.codec t with hkept | hconverted
        · left
          use events t
          intro output check
          apply hkept
        · right
          use (convertDocument t).tally, events t, settings.codec.encode (convertDocument t).text
          intro output check
          apply hconverted

/-! ### The three runs -/

/-- A report that does not tell where the run writes. -/
theorem report_aimed {r : Request} {outcome : Outcome} {output : Option String} {check : Bool}
    (hrecord : (r.aimed output check).failureRecord? outcome = r.failureRecord? outcome)
    (h : Host F) (events : List Event) :
  (r.aimed output check).report h outcome events = r.report h outcome events
  := by
  rw [report, report, hrecord]
  rfl

variable [DecidableEq F] {r : Request} {h : Host F} {files : Files F}

/-- A run that finds nothing to write. -/
theorem run_of_finish {outcome : Outcome} {events : List Event}
    (hdecide : r.decideBytes h.lookup h.environment (h.read files r.input)
      = .finish outcome events) :
  r.run h files = (files, r.report h outcome events)
  := by
  rw [run, hdecide]

/-- A run that writes. -/
theorem run_of_write {bytes : Bytes} {tally : Tally} {events : List Event}
    (hdecide : r.decideBytes h.lookup h.environment (h.read files r.input)
      = .write bytes tally events)
    (hwrite : h.writeFailure r.destination = none) :
  r.run h files
    = (files.put (h.file r.destination) bytes, r.report h (.written tally r.output) events)
  := by
  rw [run, hdecide]
  dsimp only
  rw [hwrite]

omit [DecidableEq F] in
/-- The exit code of a run whose lines are shown. -/
theorem exitCode_report_of_isShown {outcome : Outcome} (hshown : outcome.IsShown h)
    (events : List Event) :
  (r.report h outcome events).exitCode = outcome.exitCode
  := by
  rcases r.exitCode_report h outcome events with ⟨hcode, -⟩ | ⟨-, hunshown⟩
  · exact hcode
  · exact absurd hshown hunshown

omit [DecidableEq F] in
/-- A run fails if its work does, whether its lines are shown or not. -/
theorem exitCode_report_of_eq_one {outcome : Outcome} (hcode : outcome.exitCode = 1)
    (events : List Event) :
  (r.report h outcome events).exitCode = 1
  := by
  rcases r.exitCode_report h outcome events with ⟨hreport, -⟩ | ⟨hreport, -⟩
  · rw [hreport, hcode]
  · exact hreport

end Request

/-! ### Agreement -/

section Agreement

variable [DecidableEq F] {r : Request} {h : Host F} {files : Files F} {output : String}

/-- Runs agree that write the same bytes, each to its own path, or only check, and whose lines are
shown. -/
theorem Agree.of_shown {tally : Tally} {events : List Event} (bytes : Bytes)
    (hwritten : (Outcome.written tally (some output)).IsShown h)
    (hpending : (Outcome.pending tally).IsShown h) :
  Agree h files r.input output
    (files.put (h.file r.input) bytes,
      (r.aimed none false).report h (.written tally none) events)
    (files.put (h.file output) bytes,
      (r.aimed (some output) false).report h (.written tally (some output)) events)
    (files, (r.aimed none true).report h (.pending tally) events)
  := by
  have hinPlace : (Outcome.written tally none).IsShown h := by
    intro line hline
    apply hwritten line
    rw [List.mem_singleton.mp hline]
    apply List.mem_cons_self
  refine .converted rfl rfl ?_ rfl ⟨rfl, ?_⟩ ⟨rfl, ?_⟩ ⟨rfl, ?_⟩ hpending
  · intro hne
    apply Files.put_of_ne hne.symm
  · apply Request.exitCode_report_of_isShown hinPlace
  · apply Request.exitCode_report_of_isShown hwritten
  · apply Request.exitCode_report_of_isShown hpending

/-- Where runs agree and the check announces changes, the other runs write them and all lines are
shown. -/
theorem Agree.isShown {events events' : List Event} {tally : Tally} {inPlace : Files F × Report}
    {written : Files F} {outcome : Outcome}
    (hagree : Agree h files r.input output inPlace
      (written, (r.aimed (some output) false).report h outcome events)
      (files, (r.aimed none true).report h (.pending tally) events'))
    (houtcome : outcome ≠ .pending tally) :
  inPlace.2.outcome = .written tally none ∧ (Outcome.written tally (some output)).IsShown h
    ∧ (Outcome.pending tally).IsShown h
  := by
  cases hagree with
  | failed hcode hinPlace htoOutput htoCheck =>
    have hsame := congrArg Report.outcome
      ((Prod.mk.inj htoOutput).2.trans (Prod.mk.inj htoCheck).2.symm)
    exact absurd hsame houtcome
  | unchanged hcode hunchanged hinPlace htoOutput htoCheck =>
    have hsame := congrArg Report.outcome
      ((Prod.mk.inj htoOutput).2.trans (Prod.mk.inj htoCheck).2.symm)
    exact absurd hsame houtcome
  | converted hinput houtput hkept hcheck hinPlace htoOutput htoCheck hshown =>
    obtain rfl := Outcome.pending.inj htoCheck.1
    refine ⟨hinPlace.1, ?_, hshown⟩
    have hwritten := htoOutput.1
    subst hwritten
    rcases (r.aimed (some output) false).exitCode_report h _ events with ⟨-, hall⟩ | ⟨hcode, -⟩
    · exact hall
    · have hzero := htoOutput.2
      rw [hcode] at hzero
      cases hzero

/-- The three runs agree exactly when, if the check announces changes, the run in place writes
them, and the lines of the runs are shown.  With a character set the run in place writes them. -/
theorem agree_iff (hinput : h.writeFailure r.input = none)
    (houtput : h.writeFailure output = none) :
  (Agree h files r.input output ((r.aimed none false).run h files)
        ((r.aimed (some output) false).run h files) ((r.aimed none true).run h files)
      ↔ ∀ tally, ((r.aimed none true).run h files).2.outcome = .pending tally →
        ((r.aimed none false).run h files).2.outcome = .written tally none
          ∧ (Outcome.written tally (some output)).IsShown h ∧ (Outcome.pending tally).IsShown h)
    ∧ (ChoosesCharset h.lookup r.encoding h.environment →
      ∀ tally, ((r.aimed none true).run h files).2.outcome = .pending tally →
        ((r.aimed none false).run h files).2.outcome = .written tally none)
  := by
  rcases r.decideBytes_cases h.lookup h.environment (h.read files r.input) with
    ⟨outcome, hfault, hdecide⟩ | ⟨events, hdecide⟩ | ⟨tally, events, result, hdecide⟩
  · have hrun : ∀ out check, (r.aimed out check).run h files
        = (files, r.report h outcome []) := by
      intro out check
      obtain ⟨hrecord, hfinish⟩ := hdecide out check
      rw [Request.run_of_finish (r := r.aimed out check) hfinish, Request.report_aimed hrecord]
    have hcode : outcome.exitCode = 1 := by
      cases outcome with
      | unknownEncoding | failed => rfl
      | unchanged | pending | written => cases hfault
    have hpending : ∀ tally, outcome ≠ .pending tally := by
      rintro tally rfl
      cases hfault
    rw [hrun, hrun, hrun]
    constructor
    · apply iff_of_true
      · exact .failed (Request.exitCode_report_of_eq_one hcode []) rfl rfl rfl
      · intro tally houtcome
        exact absurd houtcome (hpending tally)
    · intro _ tally houtcome
      exact absurd houtcome (hpending tally)
  · have hrun : ∀ out check, (r.aimed out check).run h files
        = (files, r.report h .unchanged events) := by
      intro out check
      have hrecord : (r.aimed out check).failureRecord? .unchanged = r.failureRecord? .unchanged :=
        rfl
      rw [Request.run_of_finish (r := r.aimed out check) (hdecide out check),
        Request.report_aimed hrecord]
    rw [hrun, hrun, hrun]
    constructor
    · apply iff_of_true
      · rcases r.exitCode_report h .unchanged events with ⟨hcode, -⟩ | ⟨hcode, -⟩
        · exact .unchanged hcode rfl rfl rfl rfl
        · exact .failed hcode rfl rfl rfl
      · intro tally houtcome
        cases houtcome
    · intro _ tally houtcome
      cases houtcome
  · rw [Request.run_of_finish (r := r.aimed none true) (hdecide none true)]
    cases result with
    | error failure =>
      rw [Request.run_of_finish (r := r.aimed none false) (hdecide none false),
        Request.run_of_finish (r := r.aimed (some output) false) (hdecide (some output) false)]
      constructor
      · constructor
        · intro hagree tally' houtcome
          obtain rfl := Outcome.pending.inj houtcome
          apply hagree.isShown
          intro hfailed
          cases hfailed
        · intro hall
          cases (hall tally rfl).1
      · intro hcharset
        exact absurd (hdecide none false)
          ((r.aimed none false).decideBytes_ne_encoding hcharset _ failure events)
    | ok bytes =>
      rw [Request.run_of_write (r := r.aimed none false) (hdecide none false) hinput,
        Request.run_of_write (r := r.aimed (some output) false) (hdecide (some output) false)
          houtput]
      constructor
      · constructor
        · intro hagree tally' houtcome
          obtain rfl := Outcome.pending.inj houtcome
          apply hagree.isShown
          intro hwritten
          cases hwritten
        · intro hall
          obtain ⟨-, hwritten, hpending⟩ := hall tally rfl
          apply Agree.of_shown bytes hwritten hpending
      · intro _ tally' houtcome
        obtain rfl := Outcome.pending.inj houtcome
        rfl

end Agreement

/-- Three runs on a file with a formula. -/
theorem agree_iff_new :
  let h := Host.withConsole [("[green]Converted 1 formula (inline)[/green]",
      "Converted 1 formula (inline)"), ("[green]Written to new.md[/green]", "Written to new.md"),
    ("[yellow]Converted 1 formula (inline)[/yellow] [dim](check only, nothing written)[/dim]",
      "Converted 1 formula (inline) (check only, nothing written)")]
  let files := Files.only "note.md" [0x5c, 0x28, 0x78, 0x5c, 0x29]
  let r : Request := ⟨"note.md", none, false, none, false⟩
  (h.writeFailure r.input = none ∧ h.writeFailure "new.md" = none)
    ∧ Agree h files r.input "new.md" ((r.aimed none false).run h files)
      ((r.aimed (some "new.md") false).run h files) ((r.aimed none true).run h files)
  := by
  intro h files r
  refine ⟨⟨rfl, rfl⟩, ?_⟩
  apply (agree_iff rfl rfl).1.mpr
  intro tally houtcome
  obtain rfl : tally = ⟨1, 0⟩ := by
    have hpending : ((r.aimed none true).run h files).2.outcome = .pending ⟨1, 0⟩ := by decide
    exact Outcome.pending.inj (houtcome.symm.trans hpending)
  refine ⟨by decide, ?_, ?_⟩
  · have hlines : (Outcome.written ⟨1, 0⟩ (some "new.md")).lines
        = ["[green]Converted 1 formula (inline)[/green]", "[green]Written to new.md[/green]"] := by
      decide
    rw [Outcome.IsShown, hlines, List.forall_mem_cons, List.forall_mem_singleton]
    exact ⟨⟨["Converted 1 formula (inline)"], rfl⟩, ["Written to new.md"], rfl⟩
  · have hlines : (Outcome.pending ⟨1, 0⟩).lines
        = ["[yellow]Converted 1 formula (inline)[/yellow] [dim](check only, nothing written)[/dim]"]
        := by
      decide
    rw [Outcome.IsShown, hlines, List.forall_mem_singleton]
    exact ⟨["Converted 1 formula (inline) (check only, nothing written)"], rfl⟩

/-- A path is written to, but its run fails, and the other runs do not. -/
theorem not_agree_place :
  let h := Host.withConsole [("[green]Converted 1 formula (inline)[/green]",
      "Converted 1 formula (inline)"),
    ("[yellow]Converted 1 formula (inline)[/yellow] [dim](check only, nothing written)[/dim]",
      "Converted 1 formula (inline) (check only, nothing written)")]
  let files := Files.only "note.md" [0x5c, 0x28, 0x78, 0x5c, 0x29]
  let r : Request := ⟨"note.md", none, false, none, false⟩
  let output := "a[rgb(,,)].md"
  (h.writeFailure r.input = none ∧ h.writeFailure output = none)
    ∧ ¬ Agree h files r.input output ((r.aimed none false).run h files)
      ((r.aimed (some output) false).run h files) ((r.aimed none true).run h files)
  := by
  intro h files r output
  refine ⟨⟨rfl, rfl⟩, ?_⟩
  intro hagree
  have hcode : ((r.aimed (some output) false).run h files).2.exitCode = 1 := by decide
  have hcheck : ((r.aimed none true).run h files).2.outcome = .pending ⟨1, 0⟩ := by decide
  have hinPlace : ((r.aimed none false).run h files).2.outcome = .written ⟨1, 0⟩ none := by decide
  cases hagree with
  | failed _ heq₁ _ heq₃ =>
    rw [heq₃] at hcheck
    rw [heq₁, hcheck] at hinPlace
    cases hinPlace
  | unchanged _ houtcome _ _ heq₃ =>
    rw [heq₃, houtcome] at hcheck
    cases hcheck
  | converted _ _ _ _ _ htoOutput _ _ =>
    rw [htoOutput.2] at hcode
    cases hcode

end DollarMath
