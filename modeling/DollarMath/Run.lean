import DollarMath.Document
import DollarMath.Host
import DollarMath.Settings

/-!
# Runs

A run converts one file.  From the request and the bytes of the file it is decided what to do;
then at most one file is written, and at last the status lines are shown.  The outcome tells how
the work ended, and the status lines follow from it; a run succeeds if its work does and all its
lines are shown.
-/

namespace DollarMath

/-- What a run is asked to do.  Paths are given in the form in which they are shown. -/
structure Request where
  /-- The file to convert. -/
  input : String
  /-- Where to write; the input itself when there is no other path. -/
  output : Option String
  /-- Only report, and write nothing. -/
  check : Bool
  /-- The name of the encoding. -/
  encoding : Option String
  /-- Show the log. -/
  verbose : Bool
deriving DecidableEq, Repr

/-- The path that a request writes to. -/
def Request.destination (r : Request) : String :=
  r.output.getD r.input

/-- The steps of a run that may fail. -/
inductive Stage where
  /-- The bytes of the file are read. -/
  | reading
  /-- They are decoded. -/
  | decoding
  /-- The new text is encoded. -/
  | encoding
  /-- The new bytes are written. -/
  | writing
deriving DecidableEq, Repr

/-- How the work of a run ends. -/
inductive Outcome where
  /-- The name of the encoding is not known. -/
  | unknownEncoding (e : UnknownEncoding)
  /-- A step fails. -/
  | failed (stage : Stage) (failure : Failure)
  /-- Nothing is rewritten. -/
  | unchanged
  /-- Formulas would be rewritten, but the run only checks. -/
  | pending (tally : Tally)
  /-- The new text is written, to another path if one was given. -/
  | written (tally : Tally) (output : Option String)
deriving DecidableEq, Repr

namespace Outcome

/-- The exit code of a run that shows all its lines. -/
def exitCode : Outcome → Nat
  | unchanged => 0
  | written _ _ => 0
  | _ => 1

/-- An error of a run, with markup. -/
def failure (message : String) : String :=
  "[red]Error:[/red] " ++ message

/-- The line that tells where the new text has been written, with markup. -/
def place (output : String) : String :=
  "[green]Written to " ++ output ++ "[/green]"

/-- The status lines of a run, with markup. -/
def lines : Outcome → List String
  | unknownEncoding e => [failure e.message]
  | failed _ (.reported message) => [failure ("failed to process file: " ++ message)]
  | failed _ (.raised _) => []
  | unchanged => ["[dim]No changes required[/dim]"]
  | pending tally =>
    ["[yellow]" ++ tally.summary ++ "[/yellow] [dim](check only, nothing written)[/dim]"]
  | written tally output =>
    ("[green]" ++ tally.summary ++ "[/green]") :: (output.map place).toList

/-- The name of the error that ends a run. -/
def error? : Outcome → Option String
  | failed _ (.raised error) => some error
  | _ => none

end Outcome

/-- The line of the log about a step that fails in a way that is reported. -/
def Request.failureRecord? (r : Request) : Outcome → Option String
  | .failed .reading (.reported _) => some ("reading " ++ r.input ++ " failed")
  | .failed .decoding (.reported _) => some ("reading " ++ r.input ++ " failed")
  | .failed .encoding (.reported _) => some ("writing " ++ r.destination ++ " failed")
  | .failed .writing (.reported _) => some ("writing " ++ r.destination ++ " failed")
  | _ => none

/-- The end of a run. -/
structure Report where
  /-- How the work ended. -/
  outcome : Outcome
  /-- The log. -/
  log : List String
  /-- What has been shown of the status lines. -/
  shown : Shown
deriving DecidableEq, Repr

namespace Report

/-- The exit code of a run. -/
def exitCode (r : Report) : Nat :=
  if r.shown.error.isSome then 1 else r.outcome.exitCode

/-- The name of the error that ends a run. -/
def error? (r : Report) : Option String :=
  r.outcome.error? <|> r.shown.error

end Report

/-- What a run does after reading its file. -/
inductive Decision where
  /-- It ends, and writes nothing. -/
  | finish (outcome : Outcome) (events : List Event)
  /-- It writes bytes. -/
  | write (bytes : Bytes) (tally : Tally) (events : List Event)
deriving DecidableEq, Repr

/-- What a run does with the bytes of a converted text, or with the failure to encode it. -/
def Decision.ofEncoded (tally : Tally) (events : List Event) : Except Failure Bytes → Decision
  | .error failure => .finish (.failed .encoding failure) events
  | .ok bytes => .write bytes tally events

namespace Request

/-- What a run does with the text of its file. -/
def decideText (r : Request) (codec : Codec) (t : Text) : Decision :=
  let c := convertDocument t
  if c.text = t || c.tally.total = 0 then .finish .unchanged (events t)
  else if r.check then .finish (.pending c.tally) (events t)
  else .ofEncoded c.tally (events t) (codec.encode c.text)

/-- What a run does with the bytes of its file, or with the failure to read them. -/
def decideBytes (r : Request) (lookup : String → Option Codec) (environment : Option String)
    (file : Except Failure Bytes) : Decision :=
  match Settings.choose lookup r.encoding environment with
  | .error e => .finish (.unknownEncoding e) []
  | .ok settings =>
    match file with
    | .error failure => .finish (.failed .reading failure) []
    | .ok bytes =>
      match settings.codec.decode bytes with
      | .error failure => .finish (.failed .decoding failure) []
      | .ok t => r.decideText settings.codec t

variable {F : Type}

/-- The report of a run whose work has ended, with the events of its conversion. -/
def report (r : Request) (h : Host F) (outcome : Outcome) (events : List Event) : Report where
  outcome := outcome
  log := if r.verbose then events.map Event.message ++ (r.failureRecord? outcome).toList else []
  shown := h.showLines outcome.lines

/-- A run: the files after it, and its report. -/
def run [DecidableEq F] (r : Request) (h : Host F) (files : Files F) : Files F × Report :=
  match r.decideBytes h.lookup h.environment (h.read files r.input) with
  | .finish outcome events => (files, r.report h outcome events)
  | .write bytes tally events =>
    match h.writeFailure r.destination with
    | some failure => (files, r.report h (.failed .writing failure) events)
    | none =>
      (files.put (h.file r.destination) bytes, r.report h (.written tally r.output) events)

end Request

/-- A run that is called for: what it is asked to do and where. -/
structure Call (F : Type) where
  /-- What the run is asked to do. -/
  request : Request
  /-- What surrounds it. -/
  host : Host F

/-- Runs one after another: the files and the report after each. -/
def runAll {F : Type} [DecidableEq F] (files : Files F) : List (Call F) → List (Files F × Report)
  | [] => []
  | call :: calls =>
    let after := call.request.run call.host files
    after :: runAll after.1 calls

end DollarMath
