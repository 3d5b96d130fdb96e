import DollarMath.Reader
import DollarMath.Text.Letter

/-!
# Commands

A command is a backslash with the Latin letters after it, at least one, such as `\frac`.
-/

namespace DollarMath

/-- Reads a command; its value is the name without the backslash. -/
def command : Reader Text := fun _ t =>
  match t with
  | '\\' :: cs =>
    let name := cs.takeWhile isLatinLetter
    if name.isEmpty then none else some (name, name.length + 1)
  | _ => none

/-- A text that holds a command. -/
def hasCommand (t : Text) : Bool :=
  !(command.findAll t).isEmpty

/-- A text without its commands. -/
def dropCommands (t : Text) : Text :=
  (command.replace (fun _ => some []) t).text

end DollarMath
