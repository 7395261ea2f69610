import Stave.Yaml.Character
import Stave.Yaml.Token
import Stave.Text.Digit

/-!
# Scalars

The written forms of a scalar: plain, in single or double quotes, and as a block.  Each reader takes
the text at the scalar and gives its value and the text behind it, or nothing when it is malformed.
Line breaks inside plain and quoted scalars fold: a single one becomes a space, of several the first
is dropped.
-/

namespace Stave.Yaml

/-! ## Folding -/

/-- What a run of spacing between two parts of a scalar stands for: without a line break itself,
else the folded breaks. -/
def foldGap (gap : List Char) : List Char :=
  match breaksOf gap with
  | [] => gap
  | '\n' :: [] => [' ']
  | '\n' :: more => more
  | breaks => breaks

/-- Whether a tab stands left of column `indent` in a line of the gap after its first. -/
def hasStrayTab (indent : Nat) (gap : List Char) : Bool :=
  (gap.foldl
    (fun (column, found) c =>
      if isBreak c then (some 0, found)
      else ((column : Option Nat).map (· + 1), found || (c == '\t' && column.any (· < indent))))
    (none, false)).2

/-- The column behind a gap that has a line break in it. -/
def columnAfterBreak (gap : List Char) : Nat := (gap.reverse.takeWhile isBlank).length

/-! ## Plain scalars -/

/-- What a reader of a plain scalar has found. -/
structure PlainScalar where
  text : List Char
  rest : List Char
  /-- Whether a line has ended since the last character of the scalar. -/
  endsLine : Bool

namespace PlainScalar

/-- Characters that end a plain scalar inside brackets. -/
def isFlowIndicator (c : Char) : Bool := ",[]\x7b\x7d".toList.contains c

/-- Characters that may not follow a colon directly inside brackets. -/
def isFlowSeparator (c : Char) : Bool := ",?[]\x7b\x7d".toList.contains c

/-- Reads up to the next spacing or to where the scalar ends. -/
def chunk (flow : Bool) (done : List Char) : List Char → Option (List Char × List Char)
  | [] => some (done.reverse, [])
  | c :: rest =>
    if isSpacing c then some (done.reverse, c :: rest)
    else if flow && c == ':' && rest.head?.any isFlowSeparator then none
    else if c == ':' && startsBlank rest then some (done.reverse, c :: rest)
    else if flow && isFlowIndicator c then some (done.reverse, c :: rest)
    else chunk flow (c :: done) rest

/-- Reads the parts of a scalar and the gaps between them.  Outside of brackets a line that is
indented less than `indent` ends it; so do a comment and a document marker. -/
def read (flow : Bool) (indent : Nat) :
    (fuel : Nat) → (gap done text : List Char) → Option PlainScalar
  | 0, _, _, _ => none
  | fuel + 1, gap, done, text =>
    let onNewLine := !(breaksOf gap).isEmpty
    let atMargin := onNewLine && columnAfterBreak gap == 0
    if (atMargin && startsMarker text) || text.head? == some '#' then some ⟨done, text, onNewLine⟩
    else
      (chunk flow [] text).bind fun (found, rest) =>
        if found.isEmpty then some ⟨done, rest, onNewLine⟩
        else
          let done := done ++ foldGap gap ++ found
          let gap := rest.takeWhile isSpacing
          let text := rest.dropWhile isSpacing
          if gap.isEmpty then some ⟨done, rest, false⟩
          else if hasStrayTab indent gap then none
          else if !flow && !(breaksOf gap).isEmpty && columnAfterBreak gap < indent then
            some ⟨done, text, true⟩
          else read flow indent fuel gap done text

/-- Reads the plain scalar at the front of a text. -/
def ofText? (flow : Bool) (indent : Nat) (text : List Char) : Option PlainScalar :=
  read flow indent (text.length + 1) [] [] text

end PlainScalar

/-! ## Quoted scalars -/

/-- The number that hexadecimal digits write. -/
def hexadecimal? (digits : List Char) : Option Nat :=
  digits.foldlM
    (fun n c =>
      if c.isDigit then some (16 * n + (c.toNat - '0'.toNat))
      else if 'a' ≤ c ∧ c ≤ 'f' then some (16 * n + (c.toNat - 'a'.toNat + 10))
      else if 'A' ≤ c ∧ c ≤ 'F' then some (16 * n + (c.toNat - 'A'.toNat + 10))
      else none)
    0

/-- The character of a code point, if there is one. -/
def character? (n : Nat) : Option Char := if n.isValidChar then some (Char.ofNat n) else none

/-- Characters that stand for another one behind a backslash. -/
def escapes : List (Char × Char) :=
  [('0', '\x00'), ('a', '\x07'), ('b', '\x08'), ('t', '\t'), ('\t', '\t'), ('n', '\n'),
   ('v', '\x0b'), ('f', '\x0c'), ('r', '\r'), ('e', '\x1b'), (' ', ' '), ('"', '"'), ('/', '/'),
   ('\\', '\\'), ('N', '\u0085'), ('_', '\u00a0'), ('L', '\u2028'), ('P', '\u2029')]

/-- How many digits of a code point follow a letter behind a backslash. -/
def escapeDigits : Char → Option Nat
  | 'x' => some 2
  | 'u' => some 4
  | 'U' => some 8
  | _ => none

/-- Reads what follows a backslash, up to the end of the line excluded. -/
def readEscape? : List Char → Option (Char × List Char)
  | [] => none
  | c :: rest =>
    match escapes.lookup c, escapeDigits c with
    | some meant, _ => some (meant, rest)
    | none, some count =>
      if rest.length < count then none
      else ((hexadecimal? (rest.take count)).bind character?).map fun meant =>
        (meant, rest.drop count)
    | none, none => none

/-- A part of a quoted scalar up to spacing, to the closing quote or to a backslash that ends a
line. -/
structure QuotedPart where
  text : List Char
  rest : List Char
  /-- Whether the part ends in a backslash before the end of the line, which is skipped. -/
  joined : Bool

/-- Reads a part of a quoted scalar. -/
def quotedPart (double : Bool) : (fuel : Nat) → (done text : List Char) → Option QuotedPart
  | 0, _, _ => none
  | _ + 1, done, [] => some ⟨done.reverse, [], false⟩
  | fuel + 1, done, c :: rest =>
    if isSpacing c then some ⟨done.reverse, c :: rest, false⟩
    else if double then
      if c == '"' then some ⟨done.reverse, c :: rest, false⟩
      else if c == '\\' then
        if rest.head?.any isBreak then some ⟨done.reverse, dropBreak rest, true⟩
        else (readEscape? rest).bind fun (meant, rest) =>
          quotedPart double fuel (meant :: done) rest
      else quotedPart double fuel (c :: done) rest
    else if c == '\'' then
      if rest.head? == some '\'' then quotedPart double fuel ('\'' :: done) (rest.drop 1)
      else some ⟨done.reverse, c :: rest, false⟩
    else quotedPart double fuel (c :: done) rest

/-- Reads a quoted scalar behind its opening quote. -/
def readQuoted (double : Bool) :
    (fuel : Nat) → (atMargin : Bool) → (done text : List Char) → Option (List Char × List Char)
  | 0, _, _, _ => none
  | fuel + 1, atMargin, done, text =>
    if text.isEmpty || (atMargin && startsMarker text) then none
    else
      (quotedPart double (text.length + 1) [] text).bind fun part =>
        let done := done ++ part.text
        if part.rest.head? == some (if double then '"' else '\'') then some (done, part.rest.drop 1)
        else
          let gap := part.rest.takeWhile isSpacing
          let folded := if part.joined then breaksOf gap else foldGap gap
          let atMargin := (part.joined || !(breaksOf gap).isEmpty) && columnAfterBreak gap == 0
          readQuoted double fuel atMargin (done ++ folded) (part.rest.dropWhile isSpacing)

/-- Reads the quoted scalar behind its opening quote. -/
def quoted? (double : Bool) (text : List Char) : Option (List Char × List Char) :=
  readQuoted double (text.length + 1) false [] text

/-! ## Block scalars -/

/-- What becomes of the line breaks at the end of a block. -/
inductive Chomping
  | strip | clip | keep
deriving DecidableEq, Repr

/-- Reads the marks behind the indicator of a block: in either order, what to do with the final
breaks and how far the block is indented. -/
def blockMarks? (text : List Char) : Option (Chomping × Option Nat × List Char) :=
  let chomping? : Char → Option Chomping
    | '+' => some .keep
    | '-' => some .strip
    | _ => none
  match text with
  | [] => some (.clip, none, [])
  | c :: rest =>
    match chomping? c with
    | some chomping =>
      match rest with
      | d :: more =>
        if d == '0' then none
        else if d.isDigit then some (chomping, some (Text.natOfDigits [d]), more)
        else some (chomping, none, rest)
      | [] => some (chomping, none, rest)
    | none =>
      if c == '0' then none
      else if c.isDigit then
        match rest with
        | d :: more =>
          match chomping? d with
          | some chomping => some (chomping, some (Text.natOfDigits [c]), more)
          | none => some (.clip, some (Text.natOfDigits [c]), rest)
        | [] => some (.clip, some (Text.natOfDigits [c]), rest)
      else some (.clip, none, text)

/-- Skips blanks and a comment to the end of the line; anything else there is an error. -/
def finishLine? (text : List Char) : Option (List Char) :=
  let text := text.dropWhile isBlank
  let text := if text.head? == some '#' then text.dropWhile fun c => !isBreak c else text
  if text.head?.all isBreak then some (dropBreak text) else none

/-- The empty lines in front of a line of a block. -/
structure BlankLines where
  breaks : List Char
  rest : List Char
  /-- The column that `rest` stands in. -/
  column : Nat
  /-- The widest indentation met. -/
  widest : Nat

namespace BlankLines

/-- Skips indentation, at most `indent` columns of it if that is known, and empty lines.  A tab in
place of indentation is an error. -/
def read (indent : Option Nat) :
    (fuel : Nat) → (breaks : List Char) → (widest : Nat) → List Char → Option BlankLines
  | 0, _, _, _ => none
  | fuel + 1, breaks, widest, text =>
    let spaces := (text.takeWhile (· == ' ')).length
    let column := (indent.map (min spaces)).getD spaces
    let rest := text.drop column
    let widest := max widest column
    if indent.all (column < ·) && rest.head? == some '\t' then none
    else if rest.head?.any isBreak then
      read indent fuel (breaks ++ breaksOf (rest.take 1)) widest (dropBreak rest)
    else some ⟨breaks, rest, column, widest⟩

/-- Skips the empty lines in front of a text that stands at the start of a line. -/
def ofText? (indent : Option Nat) (text : List Char) : Option BlankLines :=
  read indent (text.length + 1) [] 0 text

end BlankLines

/-- The part of a block that has been read. -/
structure BlockText where
  text : List Char
  /-- The break that ended the last line, whose meaning depends on what follows. -/
  lineEnd : List Char
  /-- The breaks of the empty lines after it. -/
  emptyLines : List Char
  /-- Whether the last line began with a blank, which keeps the breaks around it. -/
  blankBefore : Bool

/-- Reads the lines of a block that are indented by `indent` columns. -/
def readBlock (literal : Bool) (indent : Nat) :
    (fuel : Nat) → BlockText → BlankLines → Option (BlockText × List Char)
  | 0, _, _ => none
  | fuel + 1, block, lines =>
    if lines.column != indent || lines.rest.isEmpty then
      some ({ block with emptyLines := lines.breaks }, lines.rest)
    else
      let blank := lines.rest.head?.any isBlank
      let folds := !literal && block.lineEnd == ['\n'] && !block.blankBefore && !blank
      let joint :=
        if folds then if lines.breaks.isEmpty then [' '] else lines.breaks
        else block.lineEnd ++ lines.breaks
      let line := lines.rest.takeWhile fun c => !isBreak c
      let rest := lines.rest.drop line.length
      (BlankLines.ofText? (some indent) (dropBreak rest)).bind fun next =>
        readBlock literal indent fuel
          { text := block.text ++ joint ++ line, lineEnd := breaksOf (rest.take 1), emptyLines := []
            blankBefore := blank }
          next

/-- Reads the block scalar behind its indicator.  `outer` is the indentation of the collection that
it stands in, if it stands in one. -/
def block? (literal : Bool) (outer : Option Nat) (text : List Char) :
    Option (List Char × List Char) := do
  let (chomping, increment, afterMarks) ← blockMarks? text
  let body ← finishLine? afterMarks
  let given := increment.map fun n => outer.getD 0 + n
  let lead ← BlankLines.ofText? given body
  let least := (outer.map (· + 1)).getD 0
  let indent := given.getD (max (max lead.widest least) 1)
  let (block, rest) ← readBlock literal indent (text.length + 1) ⟨[], [], [], false⟩ lead
  let ending := match chomping with
    | .strip => []
    | .clip => block.lineEnd
    | .keep => block.lineEnd ++ block.emptyLines
  some (block.text ++ ending, rest)

end Stave.Yaml
