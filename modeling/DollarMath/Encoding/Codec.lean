import DollarMath.Encoding.Charset

/-!
# Codecs

What a run sees of the encoding that a name stands for: a way to read a text from bytes and one to
write a text as bytes.  Both may fail.  The character sets are codecs whose faults a run can
report; a codec of another kind may raise an error that ends the run.
-/

namespace DollarMath

/-- Why a step of a run fails. -/
inductive Failure where
  /-- A fault that the run reports by its message. -/
  | reported (message : String)
  /-- An error, told by its name, that ends the run where it is raised. -/
  | raised (error : String)
deriving DecidableEq, Repr

/-- What the name of an encoding stands for. -/
structure Codec where
  /-- The text of bytes. -/
  decode : Bytes → Except Failure Text
  /-- The bytes of a text. -/
  encode : Text → Except Failure Bytes

/-- A character set as a codec. -/
def Charset.codec (charset : Charset) : Codec where
  decode bytes := (charset.decode bytes).mapError fun fault => .reported fault.message
  encode t := (charset.encode t).mapError fun fault => .reported fault.message

end DollarMath
