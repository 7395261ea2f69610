import Stave.Proofs.Yaml.Tree

/-!
# The value of a document in block style

The value of a document in block style is read off the document entry by entry.  There are no aliases
to follow, so how many of them may be followed does not matter.
-/

namespace Stave.Yaml

/-- The value of a scalar. -/
def Inline.value? (v : Inline) : Option Value := Value.ofScalar? none v.text v.style

/-- The value of a key. -/
def keyValue? (key : List Char) : Option Value := Value.ofPlain? (String.ofList key)

/-- The entries with one more, unless its key is among them. -/
def extended? (done : List (Value × Value)) (key : Option Value) (value : Option Value) :
    Option (List (Value × Value)) :=
  key.bind fun key =>
    if Value.hasKey key done then none else value.map fun value => done ++ [(key, value)]

mutual

/-- The value of what a key has, with `depth` more collections allowed inside each other. -/
def Body.value? : (depth : Nat) → Body → Option Value
  | _, .scalar none => some .null
  | _, .scalar (some v) => v.value?
  | 0, _ => none
  | _ + 1, .items _ first rest =>
    ((first :: rest).mapM fun i : Item => i.value.value?).map Value.sequence
  | depth + 1, .mapping _ entries => (entries.values? depth []).map Value.mapping

/-- The values of entries, behind those of the entries before. -/
def Entries.values? : (depth : Nat) → (done : List (Value × Value)) → Entries →
    Option (List (Value × Value))
  | depth, done, .last key _ body => extended? done (keyValue? key) (body.value? depth)
  | depth, done, .cons key _ body rest =>
    (extended? done (keyValue? key) (body.value? depth)).bind fun done => rest.values? depth done

end

namespace Value

variable (aliases : Aliases)

theorem ofNode_scalar (depth count : Nat) (text : String) (style : Style) :
    (ofNode aliases depth (.scalar none text style)).run count
      = (ofScalar? none text style).map (·, count) := by
  have hlift : (ofNode aliases depth (.scalar none text style)).run count
      = (ofScalar? none text style).bind fun value => some (value, count) := by
    cases depth <;> rfl
  rw [hlift]
  cases ofScalar? none text style <;> rfl

theorem ofNode_sequence (depth count : Nat) (items : List Node) :
    (ofNode aliases (depth + 1) (.sequence none items)).run count
      = ((items.mapM (ofNode aliases depth)).run count).map fun (items, count) =>
          (.sequence items, count) := by
  show ((items.mapM (ofNode aliases depth)).run count).bind _ = _
  cases (items.mapM (ofNode aliases depth)).run count <;> rfl

/-- The entries of a mapping with one more. -/
def entryOf (depth : Nat) (done : List (Value × Value)) (entry : Node × Node) :
    Following (List (Value × Value)) := do
  let key ← ofNode aliases depth entry.1
  if hasKey key done then StateT.lift none
  else
    let value ← ofNode aliases depth entry.2
    pure (done ++ [(key, value)])

theorem ofNode_mapping (depth count : Nat) (entries : List (Node × Node)) :
    (ofNode aliases (depth + 1) (.mapping none entries)).run count
      = ((entries.foldlM (entryOf aliases depth) []).run count).map fun (entries, count) =>
          (.mapping entries, count) := by
  show ((entries.foldlM (entryOf aliases depth) []).run count).bind _ = _
  cases (entries.foldlM (entryOf aliases depth) []).run count <;> rfl

theorem mapM_items (depth count : Nat) (items : List Item) :
    ((items.map fun i => i.value.node).mapM (ofNode aliases depth)).run count
      = (items.mapM fun i : Item => i.value.value?).map (·, count) := by
  induction items with
  | nil => rfl
  | cons i items ih =>
    have hfirst : (ofNode aliases depth i.value.node).run count = i.value.value?.map (·, count) :=
      ofNode_scalar aliases depth count i.value.text i.value.style
    rw [List.map_cons, List.mapM_cons, StateT.run_bind, hfirst, List.mapM_cons]
    cases i.value.value? with
    | none => rfl
    | some value =>
      show StateT.run ((items.map fun i => i.value.node).mapM (ofNode aliases depth) >>= fun values =>
        pure (value :: values)) count = _
      rw [StateT.run_bind, ih]
      cases items.mapM fun i : Item => i.value.value? <;> rfl

/-- An entry whose value is known. -/
theorem run_entryOf {depth count : Nat} {node : Node} {value : Option Value}
    (h : (ofNode aliases depth node).run count = value.map (·, count)) (key : List Char)
    (done : List (Value × Value)) :
    (entryOf aliases depth done (.scalar none (String.ofList key) .plain, node)).run count
      = (extended? done (keyValue? key) value).map (·, count) := by
  have hkey : (ofNode aliases depth (.scalar none (String.ofList key) .plain)).run count
      = (keyValue? key).map (·, count) := ofNode_scalar aliases depth count _ .plain
  rw [entryOf, StateT.run_bind, hkey, extended?]
  cases keyValue? key with
  | none => rfl
  | some k =>
    show (if hasKey k done then StateT.lift none else _ : Following _).run count = _
    rw [Option.bind_some]
    split
    · rfl
    · rw [StateT.run_bind, h]
      cases value <;> rfl

mutual

/-- The value of the tree of what a key has. -/
theorem ofNode_body (count : Nat) : ∀ (depth : Nat) (body : Body),
    (ofNode aliases depth body.node).run count = (body.value? depth).map (·, count)
  | depth, .scalar none => by
    have hnull : ofScalar? none "" .plain = some .null := rfl
    rw [Body.node, Node.empty, ofNode_scalar, hnull, Body.value?]
  | depth, .scalar (some v) => by
    rw [Body.node, Body.value?]
    exact ofNode_scalar aliases depth count v.text v.style
  | 0, .items step first rest => rfl
  | 0, .mapping step entries => rfl
  | depth + 1, .items step first rest => by
    rw [Body.node, Body.value?, ofNode_sequence, mapM_items]
    cases (first :: rest).mapM fun i : Item => i.value.value? <;> rfl
  | depth + 1, .mapping step entries => by
    have hentries := foldlM_entries count depth [] entries
    rw [Body.node, Body.value?, ofNode_mapping, hentries]
    cases entries.values? depth [] <;> rfl

/-- The values of the trees of entries. -/
theorem foldlM_entries (count : Nat) : ∀ (depth : Nat) (done : List (Value × Value))
    (entries : Entries),
    (entries.nodes.foldlM (entryOf aliases depth) done).run count
      = (entries.values? depth done).map (·, count)
  | depth, done, .last key gap body => by
    have hentry := run_entryOf aliases (ofNode_body count depth body) key done
    rw [Entries.nodes, List.foldlM_cons, StateT.run_bind, hentry, Entries.values?]
    cases extended? done (keyValue? key) (body.value? depth) <;> rfl
  | depth, done, .cons key gap body rest => by
    have hentry := run_entryOf aliases (ofNode_body count depth body) key done
    rw [Entries.nodes, List.foldlM_cons, StateT.run_bind, hentry, Entries.values?]
    cases extended? done (keyValue? key) (body.value? depth) with
    | none => rfl
    | some done => exact foldlM_entries count depth done rest

end

end Value

/-- The value of the text of a document in block style. -/
theorem BlockDocument.value_text {d : BlockDocument} (h : d.IsValid) :
    Value.ofText? d.text = (d.root.values? 127 []).map Value.mapping := by
  rw [Value.ofText?, document_text h]
  show ((Value.ofNode _ 128 (.mapping none d.root.nodes)).run 0).map Prod.fst = _
  rw [Value.ofNode_mapping, Value.foldlM_entries]
  cases d.root.values? 127 [] <;> rfl

end Stave.Yaml
