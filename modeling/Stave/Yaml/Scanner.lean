import Stave.Yaml.Name

/-!
# From text to tokens

The scanner walks over a document and notes its tokens.  Block collections open where something
begins further right than the collection around it and close where something begins further left.
Whether a scalar is a key is known only at the colon behind it, so the scanner remembers where a key
could have begun, one place for every level of brackets, and puts the missing tokens in there.
-/

namespace Stave.Yaml

/-- A place where a key without a mark of its own may have begun. -/
structure SimpleKey where
  /-- Whether nothing but a key can stand there. -/
  required : Bool
  /-- How many tokens come before it. -/
  position : Nat
  place : Place
deriving Repr

/-- The state of scanning. -/
structure Scanner where
  rest : List Char
  place : Place
  tokens : Array Token
  /-- The indentations of the open block collections, the innermost first. -/
  indents : List Nat
  /-- The possible key on the current level of brackets. -/
  key : Option SimpleKey
  /-- The possible keys on the levels around it, one for each open bracket. -/
  outerKeys : List (Option SimpleKey)
  /-- Whether a key could begin here. -/
  keyAllowed : Bool

namespace Scanner

/-- At the start of a text. -/
def start (text : List Char) : Scanner :=
  { rest := text, place := Place.start, tokens := #[], indents := [], key := none, outerKeys := [],
    keyAllowed := true }

/-- Whether brackets are open. -/
def inFlow (s : Scanner) : Bool := !s.outerKeys.isEmpty

/-- The column from which on text belongs to the innermost collection's values. -/
def contentColumn (s : Scanner) : Nat := (s.indents.head?.map (· + 1)).getD 0

/-- Goes on at `rest`, which is the end of what is left. -/
def moveTo (s : Scanner) (rest : List Char) : Scanner :=
  { s with rest, place := s.place.after (s.rest.take (s.rest.length - rest.length)) }

/-- Goes over `n` characters. -/
def skip (s : Scanner) (n : Nat) : Scanner := s.moveTo (s.rest.drop n)

/-- Notes a token. -/
def emit (s : Scanner) (t : Token) : Scanner := { s with tokens := s.tokens.push t }

/-- Notes a token before one already noted. -/
def insert (s : Scanner) (position : Nat) (t : Token) : Scanner :=
  { s with tokens := s.tokens.insertIdxIfInBounds position t }

/-! ## Possible keys -/

/-- Whether a key that began there can still end here: on the same line and within 1024 octets. -/
def reaches (s : Scanner) (k : SimpleKey) : Bool :=
  s.place.line ≤ k.place.line && s.place.index ≤ k.place.index + 1024

/-- Gives up a possible key, which is an error where nothing but a key can stand. -/
def forget? (k : Option SimpleKey) : Option Unit := if k.any SimpleKey.required then none else some ()

/-- Gives up the possible keys that are too far back. -/
def dropStale? (s : Scanner) : Option Scanner := do
  let keep? (k : Option SimpleKey) : Option (Option SimpleKey) :=
    if k.all s.reaches then some k else (forget? k).map fun _ => none
  let key ← keep? s.key
  let outerKeys ← s.outerKeys.mapM keep?
  some { s with key, outerKeys }

/-- Gives up the possible key of the current level. -/
def dropKey? (s : Scanner) : Option Scanner := (forget? s.key).map fun _ => { s with key := none }

/-- Remembers that a key may begin here. -/
def saveKey? (s : Scanner) : Option Scanner :=
  if s.keyAllowed then
    s.dropKey?.map fun s =>
      { s with
        key := some
          { required := !s.inFlow && s.indents.head? == some s.place.column
            position := s.tokens.size
            place := s.place } }
  else some s

/-! ## Block collections -/

/-- Opens a block collection at a column, unless the innermost one begins there or further right;
its token stands at `position`, or comes last. -/
def openBlock (s : Scanner) (column : Nat) (position : Option Nat) (t : Token) : Scanner :=
  if s.inFlow || s.indents.head?.any (column ≤ ·) then s
  else
    let s := { s with indents := column :: s.indents }
    match position with
    | some position => s.insert position t
    | none => s.emit t

/-- Closes the block collections that begin right of a column, or all of them. -/
def closeBlocks (s : Scanner) (column : Option Nat) : Scanner :=
  if s.inFlow then s
  else
    let closed := s.indents.takeWhile fun indent => column.all (· < indent)
    { s with
      indents := s.indents.drop closed.length
      tokens := s.tokens ++ Array.replicate closed.length Token.blockEnd }

/-! ## Between tokens -/

/-- Skips spacing and comments.  Tabs count as spacing only where no key can begin.  A byte order mark
at the start of a line is skipped but takes up its column. -/
def skipSpacing (fuel : Nat) (s : Scanner) : Scanner :=
  match fuel with
  | 0 => s
  | fuel + 1 =>
    let s := if s.place.column == 0 && s.rest.head? == some byteOrderMark then s.skip 1 else s
    let tabs := s.inFlow || !s.keyAllowed
    let text := s.rest.dropWhile fun c => c == ' ' || (tabs && c == '\t')
    let text := if text.head? == some '#' then text.dropWhile fun c => !isBreak c else text
    if text.head?.any isBreak then
      skipSpacing fuel { s.moveTo (dropBreak text) with keyAllowed := s.keyAllowed || !s.inFlow }
    else s.moveTo text

/-! ## Tokens -/

/-- A directive or the separator of documents closes every block. -/
def atMargin? (s : Scanner) : Option Scanner :=
  ((s.closeBlocks none).dropKey?).map fun s => { s with keyAllowed := false }

/-- Reads a directive. -/
def directive? (s : Scanner) : Option Scanner := do
  let s ← s.atMargin?
  let (token, rest) ← Yaml.directive? (s.rest.drop 1)
  some ((s.moveTo rest).emit token)

/-- Reads a separator of documents. -/
def marker? (s : Scanner) (t : Token) : Option Scanner := do
  let s ← s.atMargin?
  some ((s.skip 3).emit t)

/-- Opens a bracket. -/
def openFlow? (s : Scanner) (t : Token) : Option Scanner := do
  let s ← s.saveKey?
  let s := { s with key := none, outerKeys := s.key :: s.outerKeys, keyAllowed := true }
  some ((s.skip 1).emit t)

/-- Closes a bracket. -/
def closeFlow? (s : Scanner) (t : Token) : Option Scanner := do
  let s ← s.dropKey?
  let s := match s.outerKeys with
    | [] => s
    | key :: outerKeys => { s with key, outerKeys }
  some (({ s with keyAllowed := false }.skip 1).emit t)

/-- A comma between the entries of a bracket. -/
def comma? (s : Scanner) : Option Scanner := do
  let s ← s.dropKey?
  some (({ s with keyAllowed := true }.skip 1).emit .flowEntry)

/-- A dash before an entry of a block sequence. -/
def dash? (s : Scanner) : Option Scanner := do
  let s ←
    if s.inFlow then some s
    else if s.keyAllowed then some (s.openBlock s.place.column none .blockSequenceStart)
    else none
  let s ← s.dropKey?
  some (({ s with keyAllowed := true }.skip 1).emit .blockEntry)

/-- A question mark before a key. -/
def questionMark? (s : Scanner) : Option Scanner := do
  let s ←
    if s.inFlow then some s
    else if s.keyAllowed then some (s.openBlock s.place.column none .blockMappingStart)
    else none
  let s ← s.dropKey?
  some (({ s with keyAllowed := !s.inFlow }.skip 1).emit .key)

/-- A colon before a value.  If a key may have begun before it, then it did. -/
def colon? (s : Scanner) : Option Scanner := do
  let s ← match s.key with
    | some key =>
      let s := s.insert key.position .key
      let s := s.openBlock key.place.column (some key.position) .blockMappingStart
      some { s with key := none, keyAllowed := false }
    | none =>
      if s.inFlow then some { s with keyAllowed := false }
      else if s.keyAllowed then some (s.openBlock s.place.column none .blockMappingStart)
      else none
  some ((s.skip 1).emit .value)

/-- Reads something that could be a key. -/
def named? (s : Scanner) (read : List Char → Option (Token × List Char)) : Option Scanner := do
  let s ← s.saveKey?
  let (token, rest) ← read s.rest
  some ({ s.moveTo rest with keyAllowed := false }.emit token)

/-- Reads a block scalar. -/
def block? (s : Scanner) (literal : Bool) : Option Scanner := do
  let s ← s.dropKey?
  let (found, rest) ← Yaml.block? literal s.indents.head? (s.rest.drop 1)
  let style := if literal then Style.literal else Style.folded
  some ({ s.moveTo rest with keyAllowed := true }.emit (.scalar (String.ofList found) style))

/-- Reads a plain scalar.  A key can begin behind it only when it was the last thing on its line. -/
def plain? (s : Scanner) : Option Scanner := do
  let s ← s.saveKey?
  let found ← PlainScalar.ofText? s.inFlow s.contentColumn s.rest
  some ({ s.moveTo found.rest with keyAllowed := found.endsLine }.emit
    (.scalar (String.ofList found.text) .plain))

/-- Reads the token at the front of the rest, which begins with `c`. -/
def token? (s : Scanner) (c : Char) (rest : List Char) : Option Scanner :=
  let margin := s.place.column == 0
  if margin && c == '%' then s.directive?
  else if margin && startsMarker (c :: rest) then
    s.marker? (if c == '-' then .documentStart else .documentEnd)
  else match c with
    | '[' => s.openFlow? .flowSequenceStart
    | '{' => s.openFlow? .flowMappingStart
    | ']' => s.closeFlow? .flowSequenceEnd
    | '}' => s.closeFlow? .flowMappingEnd
    | ',' => s.comma?
    | '*' => s.named? fun text => (anchorName? (text.drop 1)).map fun (name, rest) =>
        (.alias name, rest)
    | '&' => s.named? fun text => (anchorName? (text.drop 1)).map fun (name, rest) =>
        (.anchor name, rest)
    | '!' => s.named? fun text => (tag? s.inFlow text).map fun (tag, rest) => (.tag tag, rest)
    | '\'' => s.named? fun text => (quoted? false (text.drop 1)).map fun (found, rest) =>
        (.scalar (String.ofList found) .singleQuoted, rest)
    | '"' => s.named? fun text => (quoted? true (text.drop 1)).map fun (found, rest) =>
        (.scalar (String.ofList found) .doubleQuoted, rest)
    | '-' => if startsBlank rest then s.dash? else s.plain?
    | '?' => if s.inFlow || startsBlank rest then s.questionMark? else s.plain?
    | ':' => if s.inFlow || startsBlank rest then s.colon? else s.plain?
    | '|' => if s.inFlow then none else s.block? true
    | '>' => if s.inFlow then none else s.block? false
    | _ => if isSpacing c || isIndicator c then none else s.plain?

/-- At the end of the text every block closes. -/
def finish? (s : Scanner) : Option (Array Token) :=
  ((s.closeBlocks none).dropKey?).map Scanner.tokens

/-- Reads all tokens. -/
def run : (fuel : Nat) → Scanner → Option (Array Token)
  | 0, _ => none
  | fuel + 1, s =>
    (s.skipSpacing (s.rest.length + 1)).dropStale?.bind fun s =>
      match s.rest with
      | [] => s.finish?
      | c :: rest => ((s.closeBlocks (some s.place.column)).token? c rest).bind fun s => run fuel s

end Scanner

/-- The tokens of a text. -/
def Token.ofText? (text : List Char) : Option (List Token) :=
  if text.all isAllowed then ((Scanner.start text).run (text.length + 2)).map Array.toList
  else none

end Stave.Yaml
