import Stave.Yaml.Scanner

/-!
# The tree of a document

The tokens of a document form a tree of scalars, sequences and mappings.  What is left out is an
empty plain scalar.  An anchor numbers the node it stands before, and an alias refers to a number;
which node a number belongs to is settled once the whole document has been read.
-/

namespace Stave.Yaml

/-- A part of a document. -/
inductive Node
  | scalar (tag : Option Tag) (text : String) (style : Style)
  | sequence (tag : Option Tag) (items : List Node)
  | mapping (tag : Option Tag) (entries : List (Node × Node))
  | alias (id : Nat)
deriving Repr

namespace Node

/-- What stands where nothing is written. -/
def empty : Node := scalar none "" .plain

end Node

/-- A document: its tree and the nodes that its aliases refer to. -/
structure Document where
  root : Node
  anchored : List (Nat × Node)

/-! ## The state of reading a tree -/

/-- A node with its number, and when it began in the order of the document. -/
structure Anchored where
  id : Nat
  order : Nat
  node : Node

/-- What remains to be read and what is known so far. -/
structure Reading where
  tokens : List Token
  /-- What the tag handles stand for; the first entry of a handle counts. -/
  stems : List (String × List UInt8)
  /-- The numbers of the anchor names. -/
  anchors : List (String × Nat)
  /-- How many nodes have begun that carry an anchor. -/
  begun : Nat
  anchored : List Anchored

namespace Reading

/-- What the two handles stand for that need no directive. -/
def defaultStems : List (String × List UInt8) := [("!", [Tag.mark]), ("!!", Tag.standardStem)]

/-- At the start of the tokens. -/
def start (tokens : List Token) : Reading :=
  { tokens, stems := [], anchors := [], begun := 0, anchored := [] }

/-- Goes on behind the next token. -/
def skip (r : Reading) : Reading := { r with tokens := r.tokens.tail }

/-- Whether the next token is one of these. -/
def isAt (r : Reading) (expected : List Token) : Bool := r.tokens.head?.any expected.contains

/-- Gives a name the number of the node that begins now.  Numbers count the names in use, so a name
that is given again takes over the number after the last. -/
def anchor (r : Reading) (name : String) : Nat × Reading :=
  let id := r.anchors.length
  (id, { r with
    anchors := (name, id) :: r.anchors.filter fun a => a.1 != name
    begun := r.begun + 1 })

/-- Notes the node of an anchor. -/
def register (r : Reading) (anchor : Option (Nat × Nat)) (node : Node) : Reading :=
  match anchor with
  | none => r
  | some (id, order) => { r with anchored := ⟨id, order, node⟩ :: r.anchored }

/-- The full tag of a written one. -/
def expandTag? (r : Reading) (t : WrittenTag) : Option Tag :=
  if t.handle.isEmpty then some ⟨t.suffix⟩
  else (r.stems.lookup t.handle).map fun stem => ⟨stem ++ t.suffix⟩

end Reading

/-! ## Properties -/

/-- What stands before a node: an anchor and a tag, in either order. -/
structure Properties where
  anchor : Option String
  tag : Option WrittenTag

namespace Properties

/-- Whether anything stands before the node. -/
def isPresent (p : Properties) : Bool := p.anchor.isSome || p.tag.isSome

/-- Reads the properties of a node. -/
def read (r : Reading) : Properties × Reading :=
  match r.tokens with
  | .anchor name :: .tag tag :: rest => (⟨some name, some tag⟩, { r with tokens := rest })
  | .anchor name :: rest => (⟨some name, none⟩, { r with tokens := rest })
  | .tag tag :: .anchor name :: rest => (⟨some name, some tag⟩, { r with tokens := rest })
  | .tag tag :: rest => (⟨none, some tag⟩, { r with tokens := rest })
  | _ => (⟨none, none⟩, r)

end Properties

/-! ## The grammar -/

namespace Reading

/-- The tokens that leave a key or a value of a block mapping empty. -/
def afterBlockKey : List Token := [.key, .value, .blockEnd]

mutual

/-- Reads a node.  In block context it may be a block collection; `indentless` allows a sequence
whose dashes are no further right than the key before them. -/
def node? : (fuel : Nat) → (block indentless : Bool) → Reading → Option (Node × Reading)
  | 0, _, _, _ => none
  | fuel + 1, block, indentless, r =>
    match r.tokens with
    | .alias name :: _ => (r.anchors.lookup name).map fun id => (.alias id, r.skip)
    | _ => do
      let (properties, r) := Properties.read r
      let tag ← match properties.tag with
        | none => some none
        | some written => (r.expandTag? written).map some
      let (anchor, r) := match properties.anchor with
        | none => (none, r)
        | some name => let (id, r) := r.anchor name; (some (id, r.begun), r)
      let bare? := if properties.isPresent then some (Node.scalar tag "" .plain, r) else none
      let (node, r) ← match r.tokens with
        | .scalar text style :: _ => some (Node.scalar tag text style, r.skip)
        | .flowSequenceStart :: _ =>
          (flowItems? fuel true [] r.skip).map fun (items, r) => (.sequence tag items, r)
        | .flowMappingStart :: _ =>
          (flowEntries? fuel true [] r.skip).map fun (entries, r) => (.mapping tag entries, r)
        | .blockSequenceStart :: _ =>
          if block then
            (blockItems? fuel [] r.skip).map fun (items, r) => (.sequence tag items, r)
          else bare?
        | .blockMappingStart :: _ =>
          if block then
            (blockEntries? fuel [] r.skip).map fun (entries, r) => (.mapping tag entries, r)
          else bare?
        | .blockEntry :: _ =>
          if indentless then
            (indentlessItems? fuel [] r).map fun (items, r) => (.sequence tag items, r)
          else bare?
        | _ => bare?
      some (node, r.register anchor node)

/-- Reads a node unless one of `ends` comes next, which leaves it empty. -/
def nodeUnless? : (fuel : Nat) → (block indentless : Bool) → (ends : List Token) → Reading →
    Option (Node × Reading)
  | 0, _, _, _, _ => none
  | fuel + 1, block, indentless, ends, r =>
    if r.isAt ends then some (.empty, r) else node? fuel block indentless r

/-- Reads a value, if a colon comes next. -/
def value? : (fuel : Nat) → (block : Bool) → (ends : List Token) → Reading → Option (Node × Reading)
  | 0, _, _, _ => none
  | fuel + 1, block, ends, r =>
    if r.isAt [.value] then nodeUnless? fuel block block ends r.skip else some (.empty, r)

/-- Reads the items of a block sequence. -/
def blockItems? : (fuel : Nat) → (done : List Node) → Reading → Option (List Node × Reading)
  | 0, _, _ => none
  | fuel + 1, done, r =>
    if r.isAt [.blockEntry] then
      (nodeUnless? fuel true false [.blockEntry, .blockEnd] r.skip).bind fun (item, r) =>
        blockItems? fuel (item :: done) r
    else if r.isAt [.blockEnd] then some (done.reverse, r.skip)
    else none

/-- Reads the items of a sequence without indentation, which ends where no dash follows. -/
def indentlessItems? : (fuel : Nat) → (done : List Node) → Reading → Option (List Node × Reading)
  | 0, _, _ => none
  | fuel + 1, done, r =>
    if r.isAt [.blockEntry] then
      (nodeUnless? fuel true false [.blockEntry, .key, .value, .blockEnd] r.skip).bind
        fun (item, r) => indentlessItems? fuel (item :: done) r
    else some (done.reverse, r)

/-- Reads the entries of a block mapping. -/
def blockEntries? : (fuel : Nat) → (done : List (Node × Node)) → Reading →
    Option (List (Node × Node) × Reading)
  | 0, _, _ => none
  | fuel + 1, done, r =>
    if r.isAt [.key] then
      (nodeUnless? fuel true true afterBlockKey r.skip).bind fun (key, r) =>
        (value? fuel true afterBlockKey r).bind fun (value, r) =>
          blockEntries? fuel ((key, value) :: done) r
    else if r.isAt [.blockEnd] then some (done.reverse, r.skip)
    else none

/-- Reads the items of a sequence in brackets.  An item may be a mapping of a single entry; when its
key is left out, the token that stands in its place is passed over with it. -/
def flowItems? : (fuel : Nat) → (first : Bool) → (done : List Node) → Reading →
    Option (List Node × Reading)
  | 0, _, _, _ => none
  | fuel + 1, first, done, r =>
    let ends := [Token.value, .flowEntry, .flowSequenceEnd]
    let item? (r : Reading) : Option (List Node × Reading) :=
      if r.isAt [.flowSequenceEnd] then some (done.reverse, r.skip)
      else if r.isAt [.key] then
        let r := r.skip
        (if r.isAt ends then some (Node.empty, r.skip) else node? fuel false false r).bind
          fun (key, r) =>
            (value? fuel false [.flowEntry, .flowSequenceEnd] r).bind fun (value, r) =>
              flowItems? fuel false (.mapping none [(key, value)] :: done) r
      else
        (node? fuel false false r).bind fun (item, r) => flowItems? fuel false (item :: done) r
    if first || r.isAt [.flowSequenceEnd] then item? r
    else if r.isAt [.flowEntry] then item? r.skip
    else none

/-- Reads the entries of a mapping in brackets. -/
def flowEntries? : (fuel : Nat) → (first : Bool) → (done : List (Node × Node)) → Reading →
    Option (List (Node × Node) × Reading)
  | 0, _, _, _ => none
  | fuel + 1, first, done, r =>
    let entry? (r : Reading) : Option (List (Node × Node) × Reading) :=
      if r.isAt [.flowMappingEnd] then some (done.reverse, r.skip)
      else if r.isAt [.key] then
        (nodeUnless? fuel false false [.value, .flowEntry, .flowMappingEnd] r.skip).bind
          fun (key, r) =>
            (value? fuel false [.flowEntry, .flowMappingEnd] r).bind fun (value, r) =>
              flowEntries? fuel false ((key, value) :: done) r
      else
        (node? fuel false false r).bind fun (key, r) =>
          flowEntries? fuel false ((key, .empty) :: done) r
    if first || r.isAt [.flowMappingEnd] then entry? r
    else if r.isAt [.flowEntry] then entry? r.skip
    else none

end

/-! ## Documents -/

/-- Reads the directives before a document: at most one version, which must be 1.1 or 1.2, and each
tag handle at most once. -/
def directives? : (seenVersion : Bool) → (stems : List (String × List UInt8)) → List Token →
    Option (List (String × List UInt8) × List Token)
  | seenVersion, stems, .versionDirective major minor :: rest =>
    if seenVersion || major != 1 || (minor != 1 && minor != 2) then none
    else directives? true stems rest
  | seenVersion, stems, .tagDirective handle stem :: rest =>
    if (stems.lookup handle).isSome then none
    else directives? seenVersion (stems ++ [(handle, stem)]) rest
  | _, stems, rest => some (stems, rest)

/-- Whether the next token is part of the frame of a document. -/
def atFrame (r : Reading) : Bool :=
  match r.tokens with
  | [] => true
  | .versionDirective _ _ :: _ => true
  | .tagDirective _ _ :: _ => true
  | t :: _ => t == .documentStart || t == .documentEnd

/-- The nodes that the numbers refer to: of several nodes with one number the one that began last. -/
def resolved (r : Reading) : List (Nat × Node) :=
  let latestFirst := r.anchored.mergeSort fun a b => decide (b.order ≤ a.order)
  latestFirst.map fun a => (a.id, a.node)

/-- Reads the root of a document and makes sure that nothing follows the document. -/
def document? (fuel : Nat) (explicit : Bool) (r : Reading) : Option Document := do
  let (root, r) ← if explicit && r.atFrame then some (Node.empty, r) else node? fuel true false r
  match r.tokens.dropWhile (· == .documentEnd) with
  | [] => some { root, anchored := r.resolved }
  | _ => none

end Reading

/-- The document of a text; nothing when the text holds none at all. -/
def Document.ofTokens? (tokens : List Token) : Option (Option Document) :=
  let fuel := 4 * tokens.length + 8
  let r := Reading.start tokens
  match tokens with
  | [] => some none
  | .documentStart :: _ =>
    ({ r with stems := Reading.defaultStems }.skip.document? fuel true).map some
  | .versionDirective _ _ :: _ | .tagDirective _ _ :: _ => do
    let (stems, rest) ← Reading.directives? false [] tokens
    match rest with
    | .documentStart :: rest =>
      let r := { r with tokens := rest, stems := stems ++ Reading.defaultStems }
      (r.document? fuel true).map some
    | _ => none
  | _ => ({ r with stems := Reading.defaultStems }.document? fuel false).map some

/-- The document that a text holds.  The outer option is empty for a malformed text, also for one
with more than one document; the inner one for a text without any. -/
def Document.ofText? (text : List Char) : Option (Option Document) :=
  (Token.ofText? text).bind Document.ofTokens?

end Stave.Yaml
