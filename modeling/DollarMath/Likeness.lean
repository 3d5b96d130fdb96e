import DollarMath.Text.Basic
import DollarMath.Text.Digit
import DollarMath.Text.Letter

/-!
# Texts that look like mathematics

A text is taken for mathematics by the characters in it, without parsing it.  Six signs are
enough, each on its own: a mark such as `^`, a grouped number such as `123{,}456`, a digit
beside an operator, a bare number, a relation between two single letters, and letters beside
an operator when no two letters make a word.
-/

namespace DollarMath

/-- A character that occurs in mathematics only: a backslash, a mark of an index or an
exponent, or one of five symbols. -/
def isMathMark (c : Char) : Bool :=
  c ∈ ['\\', '_', '^', '→', '∞', '±', '≥', '≤']

/-- An operator, a relation or the comma. -/
def isOperator (c : Char) : Bool :=
  c ∈ ['+', '-', '*', '/', '=', '<', '>', ',']

/-- An operator or a relation between two letters; the comma is none. -/
def isRelation (c : Char) : Bool :=
  c ∈ ['=', '<', '>', '+', '-', '*', '/']

/-- A character of a plain word: a Latin letter, an ASCII digit or the underscore. -/
def isWordChar (c : Char) : Bool :=
  isLatinLetter c || c.isDigit || c = '_'

/-- A group mark in braces, then a digit, as in the end of `3{,}4`. -/
def startsWithGroup : Text → Bool
  | '\x7b' :: c :: '\x7d' :: d :: _ => (c = ',' || c = '.' || isBlank c) && isDigit d
  | _ => false

/-- A text with a number that has its digits grouped, such as `123{,}456`. -/
def hasGroupedDigits : Text → Bool
  | [] => false
  | c :: cs => (isDigit c && startsWithGroup cs) || hasGroupedDigits cs

/-- A text that is a number and nothing else: digits, perhaps a point and more digits,
perhaps a minus before them, and blank characters around. -/
def isBareNumber (t : Text) : Bool :=
  let unsigned := match trim t with
    | '-' :: cs => cs
    | cs => cs
  match unsigned.dropWhile isDigit with
  | [] => !unsigned.isEmpty
  | '.' :: cs => (unsigned.head?.any isDigit) && !cs.isEmpty && cs.all isDigit
  | _ => false

/-- A text that starts with a relation between two Latin letters, such as `x = y`. -/
def startsWithRelation : Text → Bool
  | [] => false
  | a :: cs =>
    match trimLeft cs with
    | [] => false
    | o :: ds => isLatinLetter a && isRelation o && (trimLeft ds).head?.any isLatinLetter

/-- A word at the front of a text: two or more Latin letters, with no character of a plain
word after them. -/
def startsWithLatinWord (t : Text) : Bool :=
  let word := t.takeWhile isWordChar
  word.all isLatinLetter && 2 ≤ word.length

/-- A text with a word: two or more Latin letters, with no character of a plain word on
either side.  `inside` tells whether such a character stands before the text. -/
def hasLatinWord (inside : Bool) : Text → Bool
  | [] => false
  | c :: cs => (!inside && startsWithLatinWord (c :: cs)) || hasLatinWord (isWordChar c) cs

/-- A text that looks like mathematics. -/
def looksMath (t : Text) : Bool :=
  t.any isMathMark
    || hasGroupedDigits t
    || (t.any isOperator && t.any isDigit)
    || isBareNumber t
    || startsWithRelation t
    || (t.any isOperator && t.any isLatinLetter && !hasLatinWord false t)

/-- A text with a word of any script: three letters in a row. -/
def hasWord : Text → Bool
  | a :: b :: c :: cs => (isLetter a && isLetter b && isLetter c) || hasWord (b :: c :: cs)
  | _ => false

end DollarMath
