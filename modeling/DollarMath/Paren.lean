import DollarMath.Formula

/-!
# Parentheses

A parenthesis that stands free in the text, holds no word and looks like mathematics is an
inline formula: `(x=2)` is, `f(x)` and `(and so on)` are not.  The parentheses of a text are
paired first, in one pass; then the text is read from left to right, and formulas in
backslash parentheses are passed over.
-/

namespace DollarMath

namespace Paren

/-- An opening parenthesis and the closing one that belongs to it. -/
structure Pair where
  /-- The position of the opening parenthesis. -/
  start : Nat
  /-- The position of the closing parenthesis, if there is one. -/
  stop : Option Nat
deriving DecidableEq, Repr

/-- The pairs that start in the text, whose first character has position `i`, from left to
right, and the positions of the closing parentheses that are left over, likewise.  An opening
parenthesis takes the first one left over by the text after it. -/
def pairsFrom (i : Nat) : Text → List Pair × List Nat
  | [] => ([], [])
  | c :: cs =>
    let (pairs, pending) := pairsFrom (i + 1) cs
    if c = '(' then (⟨i, pending.head?⟩ :: pairs, pending.tail)
    else if c = ')' then (pairs, i :: pending)
    else (pairs, pending)

/-- The opening parentheses of a text from left to right, each with its closing one. -/
def pairs (t : Text) : List Pair :=
  (pairsFrom 0 t).1

/-- The closing parenthesis that belongs to the opening one at position `i`. -/
def partner (pairs : List Pair) (i : Nat) : Option Nat :=
  (pairs.find? fun p => p.start = i).bind Pair.stop

/-- A formula may open at the start of the text, after a blank character, and after another
opening parenthesis. -/
def mayOpen (p : Place) : Bool :=
  p.before.all fun c => isBlank c || c = '('

/-- A formula may close at the end of the text, before a blank character, a closing
parenthesis and a punctuation mark. -/
def mayClose (rest : Text) : Bool :=
  rest.head?.all fun c => isBlank c || c ∈ [')', '.', ',', ';', ':', '?', '!']

/-- The text between two parentheses is mathematics: it holds no backslash parenthesis, no
word outside its commands, and looks like mathematics. -/
def isMath (body : Text) : Bool :=
  !occurs ['\\', '('] body && !occurs ['\\', ')'] body
    && !hasWord (dropCommands body) && looksMath body

/-- The formula of a parenthesis with some primes after it.  The parentheses stay when the
body opens with another one. -/
def formulaOf (body primes : Text) : Text :=
  let inner := trim body
  let group := if inner.head? = some '(' then ['('] ++ inner ++ [')'] else inner
  ['$'] ++ group ++ primes ++ ['$']

/-- Reads a parenthesis that is an inline formula, with the primes after it; the value is the
formula between dollars. -/
def readMath (pairs : List Pair) : Reader Text := fun p t =>
  match t with
  | '(' :: cs => do
    let stop ← partner pairs p.offset
    let n := stop - p.offset - 1
    let body := cs.take n
    let after := cs.drop (n + 1)
    let primes := after.takeWhile (· = '\x27')
    if mayOpen p && mayClose (after.drop primes.length) && isMath body then
      return (formulaOf body primes, n + 2 + primes.length)
    else none
  | _ => none

/-- The formula that the parenthesis at position `i` of a text stands for, and the position
after its source, if it is one. -/
def mathAt (t : Text) (pairs : List Pair) (i : Nat) : Option (Text × Nat) :=
  (readMath pairs (Place.start.after (t.take i)) (t.drop i)).map fun r => (r.1, i + r.2)

/-- What is read in a text with parentheses. -/
inductive Item where
  /-- A formula in backslash parentheses. -/
  | backslash (e : Enclosure)
  /-- A parenthesis that is a formula, given between dollars. -/
  | plain (formula : Text)
deriving DecidableEq, Repr

/-- The text that replaces an item, if one does. -/
def Item.formula? : Item → Option Text
  | backslash _ => none
  | plain formula => some formula

/-- Reads a formula in parentheses of either kind. -/
def read (pairs : List Pair) : Reader Item := fun p t =>
  match Delimiter.inline.reader p t with
  | some (e, n) => some (.backslash e, n)
  | none => (readMath pairs p t).map fun r => (.plain r.1, r.2)

end Paren

/-- Parentheses that are inline formulas, converted. -/
def convertParens : Conversion := fun t =>
  ((Paren.read (Paren.pairs t)).replace (fun m => m.value.formula?) t).inline

end DollarMath
