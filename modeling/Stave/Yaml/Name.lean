import Stave.Yaml.Character
import Stave.Yaml.Token
import Stave.Yaml.Scalar
import Stave.Yaml.Tag

/-!
# Names in a document

Directives, anchors, aliases and tags.  Each reader takes the text behind the mark that begins the
name and gives what it names and the text behind it.
-/

namespace Stave.Yaml

/-- Reads the name of an anchor or alias.  What follows must be able to end a name. -/
def anchorName? (text : List Char) : Option (String × List Char) :=
  let name := text.takeWhile inName
  let rest := text.dropWhile inName
  if name.isEmpty then none
  else if startsBlank rest || rest.head?.any fun c => "?:,]\x7d%@`".toList.contains c then
    some (String.ofList name, rest)
  else none

/-! ## Tags -/

/-- A character of a tag; inside angle brackets and in a directive a few more are allowed. -/
def inTag (verbatim : Bool) (c : Char) : Bool :=
  inName c || ";/?:@&=+$.%!~*'()".toList.contains c || (verbatim && ",[]".toList.contains c)

/-- The octet that a percent sign and two hexadecimal digits write. -/
def octet? : List Char → Option (Nat × List Char)
  | '%' :: a :: b :: rest => (hexadecimal? [a, b]).map fun n => (n, rest)
  | _ => none

/-- How many octets follow the first one of an encoded character. -/
def trailCount? (first : Nat) : Option Nat :=
  if first < 0x80 then some 0
  else if first / 32 = 6 then some 1
  else if first / 16 = 14 then some 2
  else if first / 8 = 30 then some 3
  else none

/-- Reads the octets of an encoded character behind the first one. -/
def trailOctets? : (count : Nat) → List Char → Option (List UInt8 × List Char)
  | 0, text => some ([], text)
  | count + 1, text =>
    (octet? text).bind fun (n, rest) =>
      if n / 64 = 2 then
        (trailOctets? count rest).map fun (octets, rest) => (UInt8.ofNat n :: octets, rest)
      else none

/-- Reads a character that is written as octets.  Their number must be right; whether there is such a
character does not matter. -/
def encodedOctets? (text : List Char) : Option (List UInt8 × List Char) := do
  let (first, rest) ← octet? text
  let count ← trailCount? first
  let (octets, rest) ← trailOctets? count rest
  some (UInt8.ofNat first :: octets, rest)

/-- Reads as many characters of a tag as there are and gives their octets. -/
def tagOctets? (verbatim : Bool) :
    (fuel : Nat) → (done : List UInt8) → List Char → Option (List UInt8 × List Char)
  | 0, _, _ => none
  | _ + 1, done, [] => some (done.reverse, [])
  | fuel + 1, done, c :: rest =>
    if c == '%' then
      (encodedOctets? (c :: rest)).bind fun (octets, rest) =>
        tagOctets? verbatim fuel (octets.reverse ++ done) rest
    else if inTag verbatim c then
      tagOctets? verbatim fuel ((String.utf8EncodeChar c).reverse ++ done) rest
    else some (done.reverse, c :: rest)

/-- What counts of a part of a tag: the octets before the first zero. -/
def beforeZero (octets : List UInt8) : List UInt8 := octets.takeWhile (· != 0)

/-- Reads a tag handle: an exclamation mark, perhaps a name and a second mark. -/
def tagHandle? (text : List Char) : Option (List Char × List Char) :=
  match text with
  | '!' :: rest =>
    let name := rest.takeWhile inName
    match rest.dropWhile inName with
    | '!' :: more => some ('!' :: name ++ ['!'], more)
    | more => some ('!' :: name, more)
  | _ => none

/-- Whether a handle is closed by a second exclamation mark. -/
def isClosedHandle (handle : List Char) : Bool := 1 < handle.length && handle.getLast? == some '!'

/-- Reads a tag in angle brackets, which stands for itself. -/
def verbatimTag? (text : List Char) : Option (WrittenTag × List Char) :=
  (tagOctets? true (text.length + 1) [] text).bind fun (found, rest) =>
    if found.isEmpty then none
    else if rest.head? == some '>' then some (⟨"", beforeZero found⟩, rest.drop 1)
    else none

/-- Reads a tag that begins with a handle.  The mark by itself is a tag without a handle. -/
def handledTag? (text : List Char) : Option (WrittenTag × List Char) :=
  (tagHandle? text).bind fun (handle, rest) =>
    (tagOctets? false (rest.length + 1) [] rest).bind fun (found, rest) =>
      if isClosedHandle handle then
        if found.isEmpty then none else some (⟨String.ofList handle, beforeZero found⟩, rest)
      else
        let suffix := beforeZero (Tag.octetsOf (handle.drop 1) ++ found)
        if suffix.isEmpty then some (⟨"", [Tag.mark]⟩, rest) else some (⟨"!", suffix⟩, rest)

/-- Reads the tag at the front of a text.  Spacing must follow, or inside brackets a comma. -/
def tag? (flow : Bool) (text : List Char) : Option (WrittenTag × List Char) :=
  let read := match text with
    | '!' :: '<' :: rest => verbatimTag? rest
    | _ => handledTag? text
  read.filter fun (_, rest) => startsBlank rest || (flow && rest.head? == some ',')

/-! ## Directives -/

/-- Reads a part of a version number, at most nine digits. -/
def versionPart? (text : List Char) : Option (Nat × List Char) :=
  let digits := text.takeWhile Char.isDigit
  if digits.isEmpty || 9 < digits.length then none
  else some (Text.natOfDigits digits, text.drop digits.length)

/-- Reads the value of a version directive. -/
def versionDirective? (text : List Char) : Option (Token × List Char) := do
  let (major, rest) ← versionPart? (text.dropWhile isBlank)
  let rest ← if rest.head? == some '.' then some (rest.drop 1) else none
  let (minor, rest) ← versionPart? rest
  some (.versionDirective major minor, rest)

/-- Reads the value of a tag directive: a closed handle and what it stands for. -/
def tagDirective? (text : List Char) : Option (Token × List Char) := do
  let (handle, rest) ← tagHandle? (text.dropWhile isBlank)
  if (isClosedHandle handle || handle == ['!']) && rest.head?.any isBlank then
    let body := rest.dropWhile isBlank
    let (stem, rest) ← tagOctets? true (body.length + 1) [] body
    if !stem.isEmpty && startsBlank rest then
      some (.tagDirective (String.ofList handle) (beforeZero stem), rest)
    else none
  else none

/-- Reads a directive behind its percent sign, with the rest of its line. -/
def directive? (text : List Char) : Option (Token × List Char) := do
  let name := text.takeWhile inName
  let rest := text.dropWhile inName
  let (token, rest) ←
    if !startsBlank rest then none
    else if name == "YAML".toList then versionDirective? rest
    else if name == "TAG".toList then tagDirective? rest
    else none
  let rest ← finishLine? rest
  some (token, rest)

end Stave.Yaml
