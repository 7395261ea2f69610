/-!
# Tags

A tag is a row of octets rather than a text, because a percent sign can write any octet in it.  Tags
that begin with an exclamation mark are a document's own and have a name if they are text; the others
are addresses, of which a few belong to YAML itself.
-/

namespace Stave.Yaml

/-- A tag in full. -/
structure Tag where
  octets : List UInt8
deriving DecidableEq, Repr

namespace Tag

/-- The octets of a text. -/
def octetsOf (text : List Char) : List UInt8 := text.flatMap String.utf8EncodeChar

/-- What the tags begin with that YAML itself defines. -/
def standardStem : List UInt8 := octetsOf "tag:yaml.org,2002:".toList

/-- The tag that YAML itself defines for a kind of scalar. -/
def standard (kind : String) : Tag := ⟨standardStem ++ octetsOf kind.toList⟩

/-- The exclamation mark. -/
def mark : UInt8 := 0x21

/-- Whether a tag is a document's own. -/
def isLocal (t : Tag) : Bool := t.octets.head? == some mark

/-- What stands behind the mark, or the mark itself if nothing does. -/
def dropMark (octets : List UInt8) : List UInt8 :=
  match octets with
  | first :: second :: rest => if first = mark then second :: rest else octets
  | _ => octets

/-- The name of a tag of the document's own, without the mark and without a second one behind it. -/
def name? (t : Tag) : Option String :=
  if t.isLocal then String.fromUTF8? ⟨(dropMark (dropMark t.octets)).toArray⟩ else none

end Tag

end Stave.Yaml
