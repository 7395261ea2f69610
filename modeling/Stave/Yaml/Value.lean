import Stave.Yaml.Node
import Stave.Yaml.Number

/-!
# Values of a document

The value of a document follows from its tree: plain scalars become null, truth values, numbers or
text, tags of the document's own are kept, and aliases are replaced by what they refer
to.  A mapping with the same key twice has no value, nor has a document that is nested deeper than
128 collections or whose aliases repeat too much of it.
-/

namespace Stave.Yaml

/-- A value. -/
inductive Value
  | null
  | bool (b : Bool)
  | number (n : Number)
  | text (s : String)
  | sequence (items : List Value)
  | mapping (entries : List (Value × Value))
  | tagged (tag : String) (value : Value)
deriving Repr

/-! ## Plain scalars -/

/-- Whether a plain scalar is null. -/
def isNullText (s : String) : Bool := ["", "~", "null", "Null", "NULL"].contains s

/-- The truth value of a plain scalar. -/
def bool? (s : String) : Option Bool :=
  if ["true", "True", "TRUE"].contains s then some true
  else if ["false", "False", "FALSE"].contains s then some false
  else none

namespace Value

/-- The value of a plain scalar; none for a whole number that is too long. -/
def ofPlain? (s : String) : Option Value :=
  let chars := s.toList
  if isNullText s then some .null
  else match bool? s, Number.word? chars with
    | some b, _ => some (.bool b)
    | none, some n => some (.number (.whole n))
    | none, none =>
      if Number.isOverlong chars then none
      else if Number.hasNeedlessZero chars then some (.text s)
      else match Number.float? chars with
        | some x => some (.number (.float x))
        | none => some (.text s)

/-- The value of a scalar with a standard tag, which must fit the text. -/
def ofStandardTag? (tag : Tag) (s : String) : Option (Option Value) :=
  if tag = Tag.standard "bool" then some ((bool? s).map .bool)
  else if tag = Tag.standard "int" then
    some ((Number.word? s.toList).map fun n => .number (.whole n))
  else if tag = Tag.standard "float" then
    some ((Number.float? s.toList).map fun x => .number (.float x))
  else if tag = Tag.standard "null" then
    some (if isNullText s && s != "" then some .null else none)
  else none

/-- The value of a scalar.  A tag of the document's own is kept, or passed over when it has no name; a
tag that is neither the document's own nor a standard one makes the scalar text. -/
def ofScalar? (tag : Option Tag) (s : String) (style : Style) : Option Value :=
  let bare : Option Value := if style == .plain then ofPlain? s else some (.text s)
  match tag with
  | none => bare
  | some tag => match tag.name? with
    | some name => bare.map (.tagged name)
    | none => (ofStandardTag? tag s).getD (if tag.isLocal then bare else some (.text s))

/-! ## Comparing keys -/

mutual

/-- Whether two values are the same key.  Mappings are compared without regard to order. -/
def same : Value → Value → Bool
  | .null, .null => true
  | .bool a, .bool b => a == b
  | .number a, .number b => a.same b
  | .text a, .text b => a == b
  | .sequence as, .sequence bs => sameItems as bs
  | .mapping as, .mapping bs => as.length == bs.length && sameEntries as bs
  | .tagged s a, .tagged t b => s == t && same a b
  | _, _ => false

/-- Whether two lists hold the same values in the same order. -/
def sameItems : List Value → List Value → Bool
  | [], [] => true
  | a :: as, b :: bs => same a b && sameItems as bs
  | _, _ => false

/-- Whether an entry is in a mapping. -/
def hasEntry : Value × Value → List (Value × Value) → Bool
  | (key, value), entries => entries.any fun e => same key e.1 && same value e.2

/-- Whether every entry of one mapping is in the other. -/
def sameEntries : List (Value × Value) → List (Value × Value) → Bool
  | [], _ => true
  | entry :: rest, other => hasEntry entry other && sameEntries rest other

end

/-- Whether a mapping has a key. -/
def hasKey (key : Value) (entries : List (Value × Value)) : Bool :=
  entries.any fun e => same key e.1

/-! ## From trees to values -/

/-- How deep collections may be nested. -/
def depthLimit : Nat := 128

/-- How often, for each part of a document, an alias may be followed. -/
def repetitionLimit : Nat := 100

/-- What aliases refer to, and how many of them may be followed. -/
structure Aliases where
  nodes : List (Nat × Node)
  limit : Nat

/-- Follows aliases, counting them. -/
abbrev Following := StateT Nat Option

/-- The node itself, or the one that it refers to. -/
def follow (aliases : Aliases) : Node → Following Node
  | .alias id => do
    let count ← get
    set (count + 1)
    if aliases.limit < count + 1 then StateT.lift none
    else StateT.lift (aliases.nodes.lookup id)
  | node => pure node

/-- Gives a collection its tag, if it is one of the document's own. -/
def withTag (tag : Option Tag) (value : Value) : Value :=
  match tag.bind Tag.name? with
  | none => value
  | some name => .tagged name value

/-- The value of a node, with `depth` more collections allowed inside each other. -/
def ofNode (aliases : Aliases) : (depth : Nat) → Node → Following Value
  | 0, node => do
    match ← follow aliases node with
    | .scalar tag s style => StateT.lift (ofScalar? tag s style)
    | _ => StateT.lift none
  | depth + 1, node => do
    match ← follow aliases node with
    | .alias _ => StateT.lift none
    | .scalar tag s style => StateT.lift (ofScalar? tag s style)
    | .sequence tag items =>
      let items ← items.mapM (ofNode aliases depth)
      pure (withTag tag (.sequence items))
    | .mapping tag entries =>
      let entries ← entries.foldlM
        (fun done (key, value) => do
          let key ← ofNode aliases depth key
          if hasKey key done then StateT.lift none
          else
            let value ← ofNode aliases depth value
            pure (done ++ [(key, value)]))
        []
      pure (withTag tag (.mapping entries))

end Value

namespace Node

mutual

/-- The parts of a tree: a scalar or alias is one, a collection two beside its contents. -/
def parts : Node → Nat
  | .scalar _ _ _ => 1
  | .alias _ => 1
  | .sequence _ items => 2 + partsOfItems items
  | .mapping _ entries => 2 + partsOfEntries entries

/-- The parts of a list of trees. -/
def partsOfItems : List Node → Nat
  | [] => 0
  | item :: rest => parts item + partsOfItems rest

/-- The parts of the entries of a mapping. -/
def partsOfEntries : List (Node × Node) → Nat
  | [] => 0
  | (key, value) :: rest => parts key + parts value + partsOfEntries rest

end

end Node

namespace Document

/-- What the aliases of a document refer to. -/
def aliases (d : Document) : Value.Aliases :=
  ⟨d.anchored, Value.repetitionLimit * d.root.parts⟩

/-- The value of a document. -/
def value? (d : Document) : Option Value :=
  ((Value.ofNode d.aliases Value.depthLimit d.root).run 0).map Prod.fst

end Document

namespace Value

/-- The value that a text holds.  A text without a document holds null. -/
def ofText? (text : List Char) : Option Value :=
  (Document.ofText? text).bind fun document => match document with
    | none => some .null
    | some document => document.value?

/-! ## Looking into values -/

/-- The value without the tags around it. -/
def untagged : Value → Value
  | .tagged _ value => untagged value
  | value => value

/-- The number of a numeric value, as a double. -/
def float? (v : Value) : Option Float :=
  match v.untagged with
  | .number n => some n.toFloat
  | _ => none

/-- The text of a textual value. -/
def text? (v : Value) : Option String :=
  match v.untagged with
  | .text s => some s
  | _ => none

/-- The entries of a mapping. -/
def entries? (v : Value) : Option (List (Value × Value)) :=
  match v.untagged with
  | .mapping entries => some entries
  | _ => none

/-- A scalar without a tag as text. -/
def scalarText? : Value → Option String
  | .text s => some s
  | .number n => some n.write
  | .bool b => some (if b then "true" else "false")
  | _ => none

/-- What a mapping holds under a textual key. -/
def lookup (key : String) (entries : List (Value × Value)) : Option Value :=
  (entries.find? fun e => match e.1 with
    | .text s => s == key
    | _ => false).map Prod.snd

end Value

end Stave.Yaml
