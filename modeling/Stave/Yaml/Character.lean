/-!
# Characters and places in a document

Which characters a document may hold and what they are to its layout: blanks are the space and the
tab, breaks are the five line ends.  A place counts octets, lines and columns; a carriage return and
the line feed behind it end one line together.
-/

namespace Stave.Yaml

/-- Whether a document may contain the character. -/
def isAllowed (c : Char) : Bool :=
  let n := c.toNat
  c == '\t' || c == '\n' || c == '\r' || (0x20 ≤ n && n ≤ 0x7E) || n == 0x85
    || (0xA0 ≤ n && n ≤ 0xFFFD) || 0x10000 ≤ n

/-- A space or a tab. -/
def isBlank (c : Char) : Bool := c == ' ' || c == '\t'

/-- A character that may begin a line without being part of it. -/
def byteOrderMark : Char := '\uFEFF'

/-- A character that ends a line. -/
def isBreak (c : Char) : Bool :=
  c == '\n' || c == '\r' || c == '\u0085' || c == '\u2028' || c == '\u2029'

/-- A space, a tab or the end of a line. -/
def isSpacing (c : Char) : Bool := isBlank c || isBreak c

/-- Whether the text ends here or goes on with a space, a tab or the end of a line. -/
def startsBlank (text : List Char) : Bool := text.head?.all isSpacing

/-- A character of an anchor, a tag handle or a directive name. -/
def inName (c : Char) : Bool := c.isAlphanum || c == '_' || c == '-'

/-- A character that marks structure where a plain scalar would begin. -/
def isIndicator (c : Char) : Bool := "-?:,[]\x7b\x7d#&*!|>'\"%@`".toList.contains c

/-- The breaks of a text, one for each line that ends; every break of a single line is a line feed
in the value of a scalar, except for the two separators, which stand for themselves. -/
def breaksOf : List Char → List Char
  | [] => []
  | '\r' :: '\n' :: rest => '\n' :: breaksOf rest
  | c :: rest =>
    if c == '\n' || c == '\r' || c == '\u0085' then '\n' :: breaksOf rest
    else if isBreak c then c :: breaksOf rest
    else breaksOf rest

/-- The text behind the line break at its front, if there is one. -/
def dropBreak : List Char → List Char
  | '\r' :: '\n' :: rest => rest
  | c :: rest => if isBreak c then rest else c :: rest
  | [] => []

/-- Whether the text begins with three dashes or three dots that stand by themselves.  At the start
of a line they separate documents. -/
def startsMarker (text : List Char) : Bool :=
  match text with
  | '-' :: '-' :: '-' :: rest => startsBlank rest
  | '.' :: '.' :: '.' :: rest => startsBlank rest
  | _ => false

/-- A place in a document, counted from zero. -/
structure Place where
  /-- How many octets come before it. -/
  index : Nat
  line : Nat
  /-- How many characters come before it on its line. -/
  column : Nat
deriving DecidableEq, Repr

namespace Place

/-- The first place. -/
def start : Place := ⟨0, 0, 0⟩

/-- The place behind a text that begins here. -/
def after (place : Place) : List Char → Place
  | [] => place
  | '\r' :: '\n' :: rest => after ⟨place.index + 2, place.line + 1, 0⟩ rest
  | c :: rest =>
    if isBreak c then after ⟨place.index + c.utf8Size, place.line + 1, 0⟩ rest
    else after { place with index := place.index + c.utf8Size, column := place.column + 1 } rest

end Place

end Stave.Yaml
