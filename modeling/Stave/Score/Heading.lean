import Stave.Score.Registry

/-!
# Line headings

A line may begin with the name of its channel and a colon.  If what follows is the address of a sound
file and nothing else, the line declares a sample channel of that name; if the name is that of a
channel, the rest of the line is its notation; any other line is notation for the default
instrument from its first character on.
-/

namespace Stave

/-- The parts of a line that begins with a name and a colon. -/
structure Heading where
  name : List Char
  /-- The blanks behind the colon. -/
  gap : List Char
  content : List Char

namespace Heading

/-- A character of a channel name. -/
def inName (c : Char) : Bool := c.isAlphanum || c == '_'

/-- Takes a line apart that begins with a name and a colon. -/
def read? (line : List Char) : Option Heading :=
  let name := line.takeWhile inName
  match line.drop name.length with
  | ':' :: rest =>
    if name.isEmpty then none
    else some ⟨name, rest.takeWhile Text.isBlank, rest.dropWhile Text.isBlank⟩
  | _ => none

/-- Bytes before the content. -/
def contentStart (h : Heading) : Nat := Text.width h.name + 1 + Text.width h.gap

/-- The name as channels are known by. -/
def channelName (h : Heading) : String := Text.lowercase (String.ofList h.name)

end Heading

/-- The schemes under which a sound file can be addressed. -/
def urlSchemes : List String := ["http", "https", "file"]

/-- Whether the whole text is the absolute address of a sound file: a known scheme, `://`, and at
least one more character, without blanks. -/
def isUrl (text : List Char) : Bool :=
  let scheme := Text.lowercase (String.ofList (text.takeWhile (· != ':')))
  match text.dropWhile (· != ':') with
  | ':' :: '/' :: '/' :: rest =>
    urlSchemes.contains scheme && !rest.isEmpty && !text.any Text.isBlank
  | _ => false

namespace Heading

/-- The declaration that a line makes, if it makes one. -/
def declaration? (line : List Char) : Option Declaration :=
  (read? line).bind fun h =>
    let url := Text.trimEnd h.content
    if isUrl url then some ⟨h.channelName, String.ofList url⟩ else none

end Heading

/-- A line of notation, split into its channel and its notation. -/
structure ChannelLine where
  instrument : String
  content : List Char
  /-- Bytes before the notation. -/
  contentStart : Nat

/-- Finds the channel of a line and the notation for it. -/
def Registry.channelOf (r : Registry) (line : List Char) : ChannelLine :=
  match (Heading.read? line).filter fun h => r.contains (String.ofList h.name) with
  | some h => ⟨h.channelName, h.content, h.contentStart⟩
  | none => ⟨Registry.defaultInstrument, line, 0⟩

end Stave
