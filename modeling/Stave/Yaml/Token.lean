/-!
# Tokens of a document

The marks that a document consists of.  Block collections have no brackets of their own; where one
begins and ends follows from the indentation and is a token all the same.
-/

namespace Stave.Yaml

/-- How a scalar is written. -/
inductive Style
  | plain | singleQuoted | doubleQuoted | literal | folded
deriving DecidableEq, Repr

/-- A tag as written: a handle, which may stand for the beginning of the tag, and the octets of the
rest. -/
structure WrittenTag where
  handle : String
  suffix : List UInt8
deriving DecidableEq, Repr

/-- A mark of a document. -/
inductive Token
  | versionDirective (major minor : Nat)
  | tagDirective (handle : String) (stem : List UInt8)
  | documentStart
  | documentEnd
  | blockSequenceStart
  | blockMappingStart
  | blockEnd
  | flowSequenceStart
  | flowSequenceEnd
  | flowMappingStart
  | flowMappingEnd
  | blockEntry
  | flowEntry
  | key
  | value
  | alias (name : String)
  | anchor (name : String)
  | tag (tag : WrittenTag)
  | scalar (text : String) (style : Style)
deriving DecidableEq, Repr

end Stave.Yaml
