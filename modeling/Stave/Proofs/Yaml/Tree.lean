import Stave.Proofs.Yaml.Tokens

/-!
# The tree of a document in block style

The parser gives for the tokens of a document in block style the tree that it describes, and leaves
nothing unread.  Nothing in such a document carries an anchor or a tag, so the tree is all there is to
the document.
-/

namespace Stave.Yaml

namespace Reading

variable (r : Reading)

/-! ## Nodes by their first token -/

theorem node?_scalar (fuel : Nat) (block indentless : Bool) (text : String) (style : Style)
    (rest : List Token) :
    node? (fuel + 1) block indentless { r with tokens := .scalar text style :: rest }
      = some (.scalar none text style, { r with tokens := rest }) := by
  rw [node?]
  · rfl

theorem node?_blockMapping (fuel : Nat) (indentless : Bool) (rest : List Token) :
    node? (fuel + 1) true indentless { r with tokens := .blockMappingStart :: rest }
      = (blockEntries? fuel [] { r with tokens := rest }).map fun (entries, r) =>
          (.mapping none entries, r) := by
  rw [node?]
  · show ((blockEntries? fuel [] { r with tokens := rest }).map _).bind _ = _
    cases blockEntries? fuel [] { r with tokens := rest } <;> rfl

theorem node?_blockSequence (fuel : Nat) (indentless : Bool) (rest : List Token) :
    node? (fuel + 1) true indentless { r with tokens := .blockSequenceStart :: rest }
      = (blockItems? fuel [] { r with tokens := rest }).map fun (items, r) =>
          (.sequence none items, r) := by
  rw [node?]
  · show ((blockItems? fuel [] { r with tokens := rest }).map _).bind _ = _
    cases blockItems? fuel [] { r with tokens := rest } <;> rfl

theorem node?_blockEntry (fuel : Nat) (block : Bool) (rest : List Token) :
    node? (fuel + 1) block true { r with tokens := .blockEntry :: rest }
      = (indentlessItems? fuel [] { r with tokens := .blockEntry :: rest }).map fun (items, r) =>
          (.sequence none items, r) := by
  rw [node?]
  · show ((indentlessItems? fuel [] { r with tokens := .blockEntry :: rest }).map _).bind _ = _
    cases indentlessItems? fuel [] { r with tokens := .blockEntry :: rest } <;> rfl

/-! ## Lists -/

theorem nodeUnless?_scalar (fuel : Nat) (block indentless : Bool) {ends : List Token} (v : Inline)
    (hends : v.token ∉ ends) (rest : List Token) :
    nodeUnless? (fuel + 2) block indentless ends { r with tokens := v.token :: rest }
      = some (v.node, { r with tokens := rest }) := by
  rw [nodeUnless?, if_neg]
  · exact node?_scalar r fuel block indentless v.text v.style rest
  · simpa [isAt] using hends

theorem blockItems?_tokens (items : List Item) (rest : List Token) {fuel : Nat}
    (hfuel : items.length + 2 ≤ fuel) (done : List Node) :
    blockItems? fuel done { r with tokens := items.flatMap Item.tokens ++ .blockEnd :: rest }
      = some (done.reverse ++ items.map fun i => i.value.node, { r with tokens := rest }) := by
  induction items generalizing fuel done with
  | nil =>
    obtain ⟨fuel, rfl⟩ : ∃ n, fuel = n + 1 := ⟨fuel - 1, by omega⟩
    simp [blockItems?, isAt, skip]
  | cons i items ih =>
    rw [List.length_cons] at hfuel
    obtain ⟨fuel, rfl⟩ : ∃ n, fuel = n + 3 := ⟨fuel - 3, by omega⟩
    have hends : i.value.token ∉ [Token.blockEntry, .blockEnd] := by simp [Inline.token]
    have hitem := nodeUnless?_scalar r fuel true false i.value hends (items.flatMap Item.tokens ++ .blockEnd :: rest)
    show blockItems? (fuel + 3) done { r with
      tokens := .blockEntry :: i.value.token :: (items.flatMap Item.tokens ++ .blockEnd :: rest) } = _
    rw [blockItems?, if_pos (by simp [isAt])]
    show (nodeUnless? (fuel + 2) true false _ { r with
      tokens := i.value.token :: (items.flatMap Item.tokens ++ .blockEnd :: rest) }).bind _ = _
    rw [hitem, Option.bind_some]
    refine (ih (by omega) (i.value.node :: done)).trans ?_
    simp

theorem indentlessItems?_tokens (items : List Item) {rest : List Token}
    (hrest : rest.head? ≠ some .blockEntry) {fuel : Nat} (hfuel : items.length + 2 ≤ fuel)
    (done : List Node) :
    indentlessItems? fuel done { r with tokens := items.flatMap Item.tokens ++ rest }
      = some (done.reverse ++ items.map fun i => i.value.node, { r with tokens := rest }) := by
  induction items generalizing fuel done with
  | nil =>
    obtain ⟨fuel, rfl⟩ : ∃ n, fuel = n + 1 := ⟨fuel - 1, by omega⟩
    rw [indentlessItems?, if_neg]
    · simp
    · cases rest with
      | nil => simp [isAt]
      | cons t rest => simpa [isAt] using hrest
  | cons i items ih =>
    rw [List.length_cons] at hfuel
    obtain ⟨fuel, rfl⟩ : ∃ n, fuel = n + 3 := ⟨fuel - 3, by omega⟩
    have hends : i.value.token ∉ [Token.blockEntry, .key, .value, .blockEnd] := by
      simp [Inline.token]
    have hitem := nodeUnless?_scalar r fuel true false i.value hends (items.flatMap Item.tokens ++ rest)
    show indentlessItems? (fuel + 3) done { r with
      tokens := .blockEntry :: i.value.token :: (items.flatMap Item.tokens ++ rest) } = _
    rw [indentlessItems?, if_pos (by simp [isAt])]
    show (nodeUnless? (fuel + 2) true false _ { r with
      tokens := i.value.token :: (items.flatMap Item.tokens ++ rest) }).bind _ = _
    rw [hitem, Option.bind_some]
    refine (ih (by omega) (i.value.node :: done)).trans ?_
    simp

theorem length_flatMap_tokens (items : List Item) :
    (items.flatMap Item.tokens).length = 2 * items.length := by
  induction items with
  | nil => rfl
  | cons i items ih =>
    rw [List.flatMap_cons, List.length_append, ih, List.length_cons]
    show 2 + 2 * items.length = 2 * (items.length + 1)
    omega

/-! ## Mappings -/

/-- A value that is written is read as a node. -/
theorem value?_cons {t : Token} (ht : t ∉ afterBlockKey) (fuel : Nat) (rest : List Token) :
    value? (fuel + 2) true afterBlockKey { r with tokens := .value :: t :: rest }
      = node? fuel true true { r with tokens := t :: rest } := by
  rw [value?, if_pos (by simp [isAt])]
  show nodeUnless? (fuel + 1) true true afterBlockKey { r with tokens := t :: rest } = _
  rw [nodeUnless?, if_neg (by simpa [isAt] using ht)]

/-- The key of an entry. -/
theorem blockEntries?_key (fuel : Nat) (done : List (Node × Node)) (key : String) (rest : List Token) :
    blockEntries? (fuel + 3) done
        { r with tokens := .key :: .scalar key .plain :: .value :: rest }
      = (value? (fuel + 2) true afterBlockKey { r with tokens := .value :: rest }).bind
          fun (value, r) => blockEntries? (fuel + 2) ((.scalar none key .plain, value) :: done) r := by
  rw [blockEntries?, if_pos (by simp [isAt])]
  show (nodeUnless? (fuel + 2) true true afterBlockKey { r with
    tokens := .scalar key .plain :: .value :: rest }).bind _ = _
  rw [nodeUnless?, if_neg (by simp [isAt, afterBlockKey]), node?_scalar]
  rfl

mutual

/-- The value of a key, up to the next key or the end of the mapping. -/
theorem value?_tokens {t : Token} (ht : t = .key ∨ t = .blockEnd) (rest : List Token) :
    ∀ (body : Body) {fuel : Nat}, 2 * body.tokens.length + 4 ≤ fuel →
      value? fuel true afterBlockKey { r with tokens := .value :: (body.tokens ++ t :: rest) }
        = some (body.node, { r with tokens := t :: rest })
  | .scalar none, fuel, hfuel => by
    obtain ⟨fuel, rfl⟩ : ∃ n, fuel = n + 2 := ⟨fuel - 2, by omega⟩
    rw [value?, if_pos (by simp [isAt])]
    show nodeUnless? (fuel + 1) true true afterBlockKey { r with tokens := t :: rest } = _
    rw [nodeUnless?, if_pos]
    · rfl
    · rcases ht with rfl | rfl <;> simp [isAt, afterBlockKey]
  | .scalar (some v), fuel, hfuel => by
    obtain ⟨fuel, rfl⟩ : ∃ n, fuel = n + 3 := ⟨fuel - 3, by omega⟩
    exact (value?_cons r (by simp [Inline.token, afterBlockKey]) (fuel + 1) (t :: rest)).trans
      (node?_scalar r fuel true true v.text v.style (t :: rest))
  | .items 0 first items, fuel, hfuel => by
    have hlength := length_flatMap_tokens (first :: items)
    rw [Body.tokens, hlength, List.length_cons] at hfuel
    obtain ⟨fuel, rfl⟩ : ∃ n, fuel = n + 3 := ⟨fuel - 3, by omega⟩
    have hend : (t :: rest).head? ≠ some .blockEntry := by rcases ht with rfl | rfl <;> simp
    have hitems := indentlessItems?_tokens r (first :: items) hend
      (show (first :: items).length + 2 ≤ fuel by rw [List.length_cons]; omega) []
    show value? (fuel + 3) true afterBlockKey { r with tokens := .value :: .blockEntry
      :: first.value.token :: (items.flatMap Item.tokens ++ t :: rest) } = _
    rw [value?_cons r (by simp [afterBlockKey]), node?_blockEntry]
    exact congrArg (Option.map fun (items, r) => (Node.sequence none items, r)) hitems
  | .items (step + 1) first items, fuel, hfuel => by
    have hlength := length_flatMap_tokens (first :: items)
    rw [Body.tokens, List.length_cons, List.length_append, hlength, List.length_cons] at hfuel
    obtain ⟨fuel, rfl⟩ : ∃ n, fuel = n + 3 := ⟨fuel - 3, by omega⟩
    have hitems := blockItems?_tokens r (first :: items) (t :: rest)
      (show (first :: items).length + 2 ≤ fuel by rw [List.length_cons]; omega) []
    rw [Body.tokens, List.cons_append, List.append_assoc, List.singleton_append,
      value?_cons r (by simp [afterBlockKey]), node?_blockSequence]
    exact congrArg (Option.map fun (items, r) => (Node.sequence none items, r)) hitems
  | .mapping step entries, fuel, hfuel => by
    rw [Body.tokens, List.length_cons, List.length_append, List.length_singleton] at hfuel
    obtain ⟨fuel, rfl⟩ : ∃ n, fuel = n + 3 := ⟨fuel - 3, by omega⟩
    rw [Body.tokens, List.cons_append, List.append_assoc, List.singleton_append,
      value?_cons r (by simp [afterBlockKey]), node?_blockMapping,
      blockEntries?_tokens (t :: rest) entries (by omega)]
    rfl

/-- The entries of a mapping, up to its end. -/
theorem blockEntries?_tokens (rest : List Token) :
    ∀ (entries : Entries) {fuel : Nat}, 2 * entries.tokens.length + 2 ≤ fuel →
      ∀ (done : List (Node × Node)),
      blockEntries? fuel done { r with tokens := entries.tokens ++ .blockEnd :: rest }
        = some (done.reverse ++ entries.nodes, { r with tokens := rest })
  | .last key gap body, fuel, hfuel, done => by
    rw [Entries.tokens] at hfuel
    simp only [List.length_cons] at hfuel
    obtain ⟨fuel, rfl⟩ : ∃ n, fuel = n + 3 := ⟨fuel - 3, by omega⟩
    have hvalue := value?_tokens (.inr rfl) rest body
      (show 2 * body.tokens.length + 4 ≤ fuel + 2 by omega)
    rw [Entries.tokens, List.cons_append, List.cons_append, List.cons_append, blockEntries?_key, hvalue,
      Option.bind_some]
    dsimp only
    rw [blockEntries?, if_neg (by simp [isAt]), if_pos (by simp [isAt])]
    simp [Entries.nodes, skip]
  | .cons key gap body more, fuel, hfuel, done => by
    rw [Entries.tokens] at hfuel
    simp only [List.length_cons, List.length_append] at hfuel
    obtain ⟨fuel, rfl⟩ : ∃ n, fuel = n + 3 := ⟨fuel - 3, by omega⟩
    obtain ⟨behind, hmore⟩ : ∃ behind, more.tokens = .key :: behind := by
      cases more <;> exact ⟨_, rfl⟩
    have hvalue := value?_tokens (.inl rfl) (behind ++ .blockEnd :: rest) body
      (show 2 * body.tokens.length + 4 ≤ fuel + 2 by omega)
    have hrest := blockEntries?_tokens rest more
      (show 2 * more.tokens.length + 2 ≤ fuel + 2 by omega) ((.scalar none (String.ofList key) .plain, body.node) :: done)
    rw [hmore, List.cons_append] at hrest
    rw [Entries.tokens, hmore]
    simp only [List.cons_append, List.append_assoc]
    rw [blockEntries?_key, hvalue, Option.bind_some]
    refine hrest.trans ?_
    simp [Entries.nodes]

end

/-- The tree of a document in block style. -/
theorem document?_tokens (entries : Entries) {fuel : Nat} (hfuel : 2 * entries.tokens.length + 4 ≤ fuel) :
    document? fuel false { r with tokens := .blockMappingStart :: (entries.tokens ++ [.blockEnd]) }
      = some { root := .mapping none entries.nodes, anchored := r.resolved } := by
  obtain ⟨fuel, rfl⟩ : ∃ n, fuel = n + 1 := ⟨fuel - 1, by omega⟩
  have hentries := blockEntries?_tokens r [] entries
    (show 2 * entries.tokens.length + 2 ≤ fuel by omega) []
  have hroot := node?_blockMapping r fuel false (entries.tokens ++ [.blockEnd])
  rw [hentries, Option.map_some] at hroot
  rw [document?, Bool.false_and, if_neg Bool.false_ne_true, hroot]
  rfl

end Reading

/-- The document that a text in block style holds. -/
theorem BlockDocument.document_text {d : BlockDocument} (h : d.IsValid) :
    Document.ofText? d.text = some (some { root := .mapping none d.root.nodes, anchored := [] }) := by
  have hnone : Reading.resolved { Reading.start [] with stems := Reading.defaultStems } = [] := by
    simp [Reading.resolved, Reading.start]
  have htree := Reading.document?_tokens { Reading.start [] with stems := Reading.defaultStems } d.root
    (show 2 * d.root.tokens.length + 4
      ≤ 4 * (Token.blockMappingStart :: (d.root.tokens ++ [.blockEnd])).length + 8 by
        rw [List.length_cons, List.length_append]
        omega)
  rw [hnone] at htree
  rw [Document.ofText?, tokens_text h, Option.bind_some, Document.ofTokens?]
  · exact congrArg (Option.map some) htree
  all_goals simp

end Stave.Yaml
