import Mathlib.Algebra.GroupWithZero.Nat
import Stave.Proofs.Yaml.Inline
import Stave.Yaml.Value

/-!
# Documents in block style

The documents that are written as mappings within mappings, one entry a line, with scalars and lists
of scalars at the ends.  Empty lines and comments may stand anywhere, and every mapping and list may
be indented as far as it likes.  Beside such a document stand its text, the tokens that the text
consists of, the tree of these tokens, and the value of the tree.
-/

namespace Stave.Yaml

/-! ## Scalars and comments -/

/-- A scalar that is written within a line. -/
inductive Inline
  | plain (text : List Char)
  | quoted (double : Bool) (text : List Char)
deriving DecidableEq, Repr

namespace Inline

def text : Inline → String
  | plain text => String.ofList text
  | quoted _ text => String.ofList text

def style : Inline → Style
  | plain _ => .plain
  | quoted false _ => .singleQuoted
  | quoted true _ => .doubleQuoted

/-- The scalar as it is written. -/
def written : Inline → List Char
  | plain text => text
  | quoted double text => quoteMark double :: (text.flatMap (inQuotes double) ++ [quoteMark double])

/-- Whether the scalar can be written so. -/
def IsValid : Inline → Prop
  | plain text => IsPlain text
  | quoted double text => IsQuotable double text

def token (i : Inline) : Token := .scalar i.text i.style

def node (i : Inline) : Node := .scalar none i.text i.style

end Inline

/-- The end of a line: blanks, and perhaps a comment. -/
structure Remark where
  blanks : Nat
  comment : Option (List Char)
deriving DecidableEq, Repr

namespace Remark

def text (r : Remark) : List Char := List.replicate r.blanks ' ' ++ r.comment.elim [] ('#' :: ·)

/-- Whether the comment is within its line. -/
def IsValid (r : Remark) : Prop :=
  ∀ body ∈ r.comment, ∀ c ∈ body, isBreak c = false ∧ isAllowed c = true

end Remark

/-- Lines that hold nothing but a comment. -/
def remarkLines (remarks : List Remark) : List Char := remarks.flatMap fun r => r.text ++ ['\n']

/-- The end of a line, and lines without content behind it. -/
structure Gap where
  ending : Remark
  lines : List Remark
deriving DecidableEq, Repr

namespace Gap

def text (g : Gap) : List Char := remarkLines (g.ending :: g.lines)

/-- Whether the gap can stand behind something: a comment at the end of a line needs a blank before
it. -/
structure IsValid (g : Gap) : Prop where
  apart : g.ending.comment ≠ none → g.ending.blanks ≠ 0
  remarks : ∀ r ∈ g.ending :: g.lines, r.IsValid

end Gap

/-! ## Documents -/

/-- An item of a list. -/
structure Item where
  value : Inline
  gap : Gap
deriving DecidableEq, Repr

mutual

/-- What a key has for a value: nothing or a scalar on the line of the key, or a list or a mapping on
the lines below.  A list may stand right below its key, a mapping is indented by one column at
least. -/
inductive Body
  | scalar (value : Option Inline)
  | items (step : Nat) (first : Item) (rest : List Item)
  | mapping (step : Nat) (entries : Entries)

/-- The entries of a mapping, one at least.  The gap is what stands between the line of a key and the
next line with content. -/
inductive Entries
  | last (key : List Char) (gap : Gap) (body : Body)
  | cons (key : List Char) (gap : Gap) (body : Body) (rest : Entries)

end

/-! ## Text -/

/-- What stands behind the colon on the line of a key. -/
def Body.inline : Body → List Char
  | .scalar (some value) => ' ' :: value.written
  | _ => []

/-- Nothing stands behind the colon unless the value is a scalar. -/
theorem Body.inline_cases : ∀ body : Body,
    (∃ v, body = .scalar (some v)) ∨ body.inline = []
  | .scalar none => .inr rfl
  | .scalar (some v) => .inl ⟨v, rfl⟩
  | .items _ _ _ => .inr rfl
  | .mapping _ _ => .inr rfl

/-- The text of an item behind its indentation. -/
def Item.content (i : Item) : List Char := '-' :: ' ' :: (i.value.written ++ i.gap.text)

def Item.text (indent : Nat) (i : Item) : List Char := List.replicate indent ' ' ++ i.content

mutual

/-- The lines below a key that is indented by `indent`. -/
def Body.nested (indent : Nat) : Body → List Char
  | .scalar _ => []
  | .items step first rest => (first :: rest).flatMap (Item.text (indent + step))
  | .mapping step entries =>
    List.replicate (indent + step + 1) ' ' ++ entries.content (indent + step + 1)

/-- The text of entries behind the indentation of the first. -/
def Entries.content (indent : Nat) : Entries → List Char
  | .last key gap body => key ++ ':' :: (body.inline ++ (gap.text ++ body.nested indent))
  | .cons key gap body rest =>
    key ++ ':' :: (body.inline ++ (gap.text ++ (body.nested indent
      ++ (List.replicate indent ' ' ++ rest.content indent))))

end

/-! ## Tokens -/

def Item.tokens (i : Item) : List Token := [.blockEntry, i.value.token]

mutual

def Body.tokens : Body → List Token
  | .scalar value => value.toList.map Inline.token
  | .items 0 first rest => (first :: rest).flatMap Item.tokens
  | .items (_ + 1) first rest =>
    .blockSequenceStart :: ((first :: rest).flatMap Item.tokens ++ [.blockEnd])
  | .mapping _ entries => .blockMappingStart :: (entries.tokens ++ [.blockEnd])

def Entries.tokens : Entries → List Token
  | .last key _ body =>
    .key :: .scalar (String.ofList key) .plain :: .value :: body.tokens
  | .cons key _ body rest =>
    .key :: .scalar (String.ofList key) .plain :: .value :: (body.tokens ++ rest.tokens)

end

/-! ## Tree -/

mutual

def Body.node : Body → Node
  | .scalar none => .empty
  | .scalar (some value) => value.node
  | .items _ first rest => .sequence none ((first :: rest).map fun i => i.value.node)
  | .mapping _ entries => .mapping none entries.nodes

def Entries.nodes : Entries → List (Node × Node)
  | .last key _ body => [(.scalar none (String.ofList key) .plain, body.node)]
  | .cons key _ body rest =>
    (.scalar none (String.ofList key) .plain, body.node) :: rest.nodes

end

/-! ## Well-formedness -/

/-- A text that can be a key without quotes.  It must not be too long. -/
structure IsKey (key : List Char) : Prop extends IsPlain key where
  first : ∀ c ∈ key.head?, c.isAlphanum = true ∨ c = '_'
  short : (key.map Char.utf8Size).sum ≤ 1024

structure Item.IsValid (i : Item) : Prop where
  value : i.value.IsValid
  gap : i.gap.IsValid

mutual

def Body.IsValid : Body → Prop
  | .scalar value => ∀ v ∈ value, v.IsValid
  | .items _ first rest => ∀ i ∈ first :: rest, i.IsValid
  | .mapping _ entries => entries.IsValid

def Entries.IsValid : Entries → Prop
  | .last key gap body => IsKey key ∧ gap.IsValid ∧ body.IsValid
  | .cons key gap body rest => IsKey key ∧ gap.IsValid ∧ body.IsValid ∧ rest.IsValid

end

/-- A document: lines without content, and the entries of its root. -/
structure BlockDocument where
  lead : List Remark
  root : Entries

namespace BlockDocument

def text (d : BlockDocument) : List Char := remarkLines d.lead ++ d.root.content 0

structure IsValid (d : BlockDocument) : Prop where
  lead : ∀ r ∈ d.lead, r.IsValid
  root : d.root.IsValid

end BlockDocument

/-! ## Checking a document -/

instance (text : List Char) : Decidable (IsPlain text) :=
  decidable_of_iff ((beginsPlain text && staysPlain false text
      && text.getLast?.all (fun c => !isSpacing c) && text.all isAllowed) = true) <| by
    simp only [Bool.and_eq_true, Option.all_eq_true, List.all_eq_true, Bool.not_eq_true']
    exact ⟨fun ⟨⟨⟨begins, stays⟩, last⟩, allowed⟩ => ⟨begins, stays, last, allowed⟩,
      fun h => ⟨⟨⟨h.begins, h.stays⟩, h.last⟩, h.allowed⟩⟩

instance (double : Bool) (text : List Char) : Decidable (IsQuotable double text) :=
  decidable_of_iff (text.all (fun c => !isBreak c) = true ∧ text.all isAllowed = true
      ∧ (double = true → text.all (fun c => c != '"' && c != '\\') = true)) <| by
    simp only [List.all_eq_true, Bool.not_eq_true', Bool.and_eq_true, bne_iff_ne]
    exact ⟨fun ⟨oneLine, allowed, unescaped⟩ => ⟨oneLine, allowed, unescaped⟩,
      fun h => ⟨h.oneLine, h.allowed, h.unescaped⟩⟩

instance : (v : Inline) → Decidable v.IsValid
  | .plain text => inferInstanceAs (Decidable (IsPlain text))
  | .quoted double text => inferInstanceAs (Decidable (IsQuotable double text))

instance (r : Remark) : Decidable r.IsValid :=
  decidable_of_iff (r.comment.all (fun body => body.all fun c => !isBreak c && isAllowed c) = true) <| by
    simp only [Option.all_eq_true, List.all_eq_true, Bool.and_eq_true, Bool.not_eq_true']
    rfl

instance (g : Gap) : Decidable g.IsValid :=
  decidable_of_iff ((g.ending.comment ≠ none → g.ending.blanks ≠ 0)
      ∧ ∀ r ∈ g.ending :: g.lines, r.IsValid)
    ⟨fun ⟨apart, remarks⟩ => ⟨apart, remarks⟩, fun h => ⟨h.apart, h.remarks⟩⟩

instance (key : List Char) : Decidable (IsKey key) :=
  decidable_of_iff (IsPlain key ∧ key.head?.all (fun c => c.isAlphanum || c == '_') = true
      ∧ (key.map Char.utf8Size).sum ≤ 1024) <| by
    simp only [Option.all_eq_true, Bool.or_eq_true, beq_iff_eq]
    exact ⟨fun ⟨plain, first, short⟩ => ⟨plain, first, short⟩,
      fun h => ⟨h.toIsPlain, h.first, h.short⟩⟩

instance (i : Item) : Decidable i.IsValid :=
  decidable_of_iff (i.value.IsValid ∧ i.gap.IsValid)
    ⟨fun ⟨value, gap⟩ => ⟨value, gap⟩, fun h => ⟨h.value, h.gap⟩⟩

mutual

def Body.decideIsValid : (body : Body) → Decidable body.IsValid
  | .scalar value => inferInstanceAs (Decidable (∀ v ∈ value, v.IsValid))
  | .items _ first rest => inferInstanceAs (Decidable (∀ i ∈ first :: rest, i.IsValid))
  | .mapping _ entries => entries.decideIsValid

def Entries.decideIsValid : (entries : Entries) → Decidable entries.IsValid
  | .last key gap body =>
    have := body.decideIsValid
    inferInstanceAs (Decidable (IsKey key ∧ gap.IsValid ∧ body.IsValid))
  | .cons key gap body rest =>
    have := body.decideIsValid
    have := rest.decideIsValid
    inferInstanceAs (Decidable (IsKey key ∧ gap.IsValid ∧ body.IsValid ∧ rest.IsValid))

end

instance (entries : Entries) : Decidable entries.IsValid := entries.decideIsValid

instance (d : BlockDocument) : Decidable d.IsValid :=
  decidable_of_iff ((∀ r ∈ d.lead, r.IsValid) ∧ d.root.IsValid)
    ⟨fun ⟨lead, root⟩ => ⟨lead, root⟩, fun h => ⟨h.lead, h.root⟩⟩

end Stave.Yaml
