import Stave.Text.Blank

/-!
# Repeated keys and patterns as written

A section may name one instrument several times, which a YAML mapping does not allow, and its
patterns are notation in which brackets and dashes mean something else than in YAML.  Before a song
document is read as YAML, every repeated key of an indentation scope gets the number of its repeat
behind a hash sign, and every pattern below an instrument is put in single quotes.
-/

namespace Stave.Song

/-! ## Lines that begin with a key -/

/-- A line that begins with a key and a colon. -/
structure KeyedLine where
  indentation : List Char
  key : List Char
  /-- The colon, with any blanks before it, and what follows it. -/
  rest : List Char

namespace KeyedLine

/-- A character that a key may begin with. -/
def startsKey (c : Char) : Bool := c.isAlphanum || c == '_'

/-- A character that a key may go on with. -/
def inKey (c : Char) : Bool := startsKey c || c == ' ' || c == '.' || c == '-'

/-- Takes a line apart that begins with a key.  The colon must be followed by a blank or end the
line, and the spaces before it are not part of the key. -/
def read? (line : List Char) : Option KeyedLine :=
  let indentation := line.takeWhile Text.isBlank
  let content := line.dropWhile Text.isBlank
  let key := ((content.takeWhile inKey).reverse.dropWhile (· == ' ')).reverse
  let rest := content.drop key.length
  match key.head?, rest.dropWhile Text.isBlank with
  | some c, ':' :: value =>
    if startsKey c && value.head?.all Text.isBlank then some ⟨indentation, key, rest⟩ else none
  | _, _ => none

/-- What stands behind the colon. -/
def value (l : KeyedLine) : List Char := (l.rest.dropWhile (· != ':')).drop 1

end KeyedLine

/-! ## Quoting -/

/-- The value before a comment.  A hash sign begins a comment at the start of the value and behind a
blank; one behind a letter is a sharp. -/
def beforeComment (value : List Char) : List Char :=
  let rec go (afterBlank : Bool) (done : List Char) : List Char → List Char
    | [] => done.reverse
    | c :: rest =>
      if c == '#' && afterBlank then done.reverse else go (Text.isBlank c) (c :: done) rest
  go true [] value

/-- A text in single quotes, in which a single quote is written twice. -/
def quote (text : List Char) : List Char :=
  '\'' :: text.flatMap (fun c => if c == '\'' then ['\'', '\''] else [c]) ++ ['\'']

/-- A pattern in single quotes.  Nothing, what is quoted already and the mark of a block are left for
YAML. -/
def quoted? (value : List Char) : Option (List Char) :=
  let pattern := Text.trim (beforeComment value)
  match pattern with
  | [] => none
  | c :: _ => if "\"'|>".toList.contains c then none else some (quote pattern)

/-! ## Scopes -/

/-- The keys of one level of indentation. -/
structure Scope where
  /-- Bytes of indentation. -/
  indent : Nat
  /-- The keys met so far, as written. -/
  seen : List (List Char)
  /-- The last of them. -/
  current : List Char
deriving Repr

/-- The key whose entries are sections. -/
def sectionsKey : List Char := "sections".toList

/-- Whether the innermost of the scopes holds instruments: it is the third, and the outermost stands
at the sections. -/
def atInstruments : List Scope → Bool
  | [_, _, outermost] => outermost.current == sectionsKey
  | _ => false

/-- The scopes, the innermost first, in which a key at an indentation stands. -/
def enter (indent : Nat) (scopes : List Scope) : List Scope :=
  let scopes := scopes.dropWhile fun s => indent < s.indent
  if scopes.head?.any fun s => s.indent == indent then scopes
  else ⟨indent, [], []⟩ :: scopes

/-- The mark between a key and the number of its repeat. -/
def repeatMark : Char := '#'

/-- The name of a key that was met `count` times before. -/
def repeatName (key : List Char) (count : Nat) : List Char :=
  if count = 0 then key else key ++ repeatMark :: Nat.toDigits 10 count

/-- Clarifies a line that begins with a key. -/
def clarifyKey (scopes : List Scope) (l : KeyedLine) : List Char × List Scope :=
  match enter (Text.width l.indentation) scopes with
  | [] => (l.indentation ++ l.key ++ l.rest, [])
  | scope :: outer =>
    let name := l.indentation ++ repeatName l.key (scope.seen.count l.key)
    let quoted := if atInstruments (scope :: outer) then quoted? l.value else none
    (match quoted with
      | some pattern => name ++ ':' :: ' ' :: pattern
      | none => name ++ l.rest,
      { scope with seen := l.key :: scope.seen, current := l.key } :: outer)

/-- Clarifies a line that begins with a dash, when it is an item of an instrument's list. -/
def clarifyItem (scopes : List Scope) (indentation rest : List Char) : List Char :=
  let line := indentation ++ '-' :: rest
  let inList := atInstruments scopes
    && scopes.head?.any fun s => s.indent ≤ Text.width indentation
  if inList && rest.head?.any fun c => c == ' ' || c == '\t' then
    match quoted? rest with
    | some pattern => indentation ++ '-' :: ' ' :: pattern
    | none => line
  else line

/-- Clarifies a line and notes its key.  Empty lines and comments are left alone. -/
def clarifyLine (scopes : List Scope) (line : List Char) : List Char × List Scope :=
  match line.dropWhile Text.isBlank with
  | [] => (line, scopes)
  | '#' :: _ => (line, scopes)
  | '-' :: rest => (clarifyItem scopes (line.takeWhile Text.isBlank) rest, scopes)
  | _ => match KeyedLine.read? line with
    | none => (line, scopes)
    | some l => clarifyKey scopes l

/-- Clarifies the lines of a text. -/
def clarifyLines (lines : List (List Char)) : List (List Char) :=
  (lines.foldl
    (fun (done, scopes) line =>
      let (line, scopes) := clarifyLine scopes line
      (done.push line, scopes))
    ((#[] : Array (List Char)), ([] : List Scope))).1.toList

/-- A text in which no scope has a key twice and every pattern is quoted. -/
def clarify (text : List Char) : List Char :=
  let joined := ['\n'].intercalate (clarifyLines (Text.lines text))
  if text.getLast? == some '\n' then joined ++ ['\n'] else joined

/-! ## Reading the names back -/

/-- The number that a text of digits writes, perhaps behind a plus sign, if a 64-bit word holds it. -/
def repeatNumber? (text : List Char) : Option Nat :=
  let digits := match text with
    | '+' :: digits => digits
    | digits => digits
  if digits.isEmpty || !digits.all Char.isDigit then none
  else
    let n := digits.foldl (fun n c => 10 * n + (c.toNat - '0'.toNat)) 0
    if n < Nat.pow 2 64 then some n else none

/-- Splits a key into the key as written and the number of its repeat; zero when it has none. -/
def readRepeat (key : List Char) : List Char × Nat :=
  let number := (key.reverse.takeWhile (· != repeatMark)).reverse
  if number.length == key.length then (key, 0)
  else match repeatNumber? number with
    | some n => (key.take (key.length - number.length - 1), n)
    | none => (key, 0)

end Stave.Song
