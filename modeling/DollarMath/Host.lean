import DollarMath.Encoding.Codec

/-!
# Hosts

What a run finds around it.  The host knows the encodings by name, the files that paths lead to,
what is refused there, and how the console shows a line with markup.  Several paths may lead to
one file.  A write that is refused changes nothing.
-/

namespace DollarMath

/-- The bytes of each file that is there. -/
abbrev Files (F : Type) := F → Option Bytes

/-- Files after the given bytes are put in one. -/
def Files.put {F : Type} [DecidableEq F] (files : Files F) (f : F) (bytes : Bytes) : Files F :=
  fun g => if g = f then some bytes else files g

/-- What surrounds a run. -/
structure Host (F : Type) where
  /-- The name of the encoding in the environment. -/
  environment : Option String
  /-- What the name of an encoding stands for, if it is known. -/
  lookup : String → Option Codec
  /-- The file that a path leads to. -/
  file : String → F
  /-- Why the file at a path cannot be read. -/
  readFailure : String → Option Failure
  /-- Why the file at a path cannot be written. -/
  writeFailure : String → Option Failure
  /-- The lines that the console shows of a line with markup, or the error that it raises. -/
  console : String → Except String (List String)

/-- What has been shown: lines, and the error that stopped the showing, if there was one. -/
structure Shown where
  /-- The lines. -/
  lines : List String
  /-- The name of the error. -/
  error : Option String
deriving DecidableEq, Repr

namespace Host

variable {F : Type}

/-- The wording of the fault that there is no file at a path. -/
def noSuchFile (path : String) : String :=
  "[Errno 2] No such file or directory: " ++ String.ofList (quoted path.toList)

/-- The bytes of the file at a path. -/
def read (h : Host F) (files : Files F) (path : String) : Except Failure Bytes :=
  match h.readFailure path with
  | some failure => .error failure
  | none =>
    match files (h.file path) with
    | none => .error (.reported (noSuchFile path))
    | some bytes => .ok bytes

/-- Shows lines with markup, one after another, as long as the console does. -/
def showLines (h : Host F) : List String → Shown
  | [] => ⟨[], none⟩
  | line :: lines =>
    match h.console line with
    | .error e => ⟨[], some e⟩
    | .ok shown =>
      let rest := h.showLines lines
      ⟨shown ++ rest.lines, rest.error⟩

end Host

end DollarMath
