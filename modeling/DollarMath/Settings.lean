import DollarMath.Encoding.Codec

/-!
# Settings

The encoding of the files: the one asked for on the command line, or else the one in the
environment, or else UTF-8.  An empty name counts as none.
-/

namespace DollarMath

/-- The settings of a run. -/
structure Settings where
  /-- The name of the encoding, as given. -/
  encoding : String
  /-- What the name stands for. -/
  codec : Codec

/-- An encoding name that is not known. -/
structure UnknownEncoding where
  /-- The name, as given. -/
  name : String
deriving DecidableEq, Repr

/-- The wording of the error. -/
def UnknownEncoding.message (e : UnknownEncoding) : String :=
  "Unknown encoding " ++ String.ofList (quoted e.name.toList)
    ++ ". Pass --encoding or set FIXMATH_ENCODING in your environment or .env file."

namespace Settings

/-- The first name that is given and not empty, or else `utf-8`. -/
def chosenName (asked environment : Option String) : String :=
  ((asked.filter (· ≠ "")) <|> (environment.filter (· ≠ ""))).getD "utf-8"

/-- The settings for the names given on the command line and in the environment, where `lookup`
tells what a name stands for. -/
def choose (lookup : String → Option Codec) (asked environment : Option String) :
    Except UnknownEncoding Settings :=
  let name := chosenName asked environment
  match lookup name with
  | none => .error ⟨name⟩
  | some codec => .ok ⟨name, codec⟩

end Settings

end DollarMath
