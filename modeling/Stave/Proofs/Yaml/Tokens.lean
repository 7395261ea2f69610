import Stave.Proofs.Yaml.Scanning

/-!
# The tokens of a document in block style

The scanner gives for the text of a document in block style the tokens that it consists of.  A line is
reached before the blocks are closed that end there; what the scanner holds then is said with these
blocks closed.
-/

namespace Stave.Yaml

namespace Scanner

/-! ## Standing before a line -/

/-- A scanner that stands before a line with content and has the tokens that it will have once the
blocks are closed that begin further right. -/
def Standing (s : Scanner) (column : Nat) (content : List Char) (tokens : List Token)
    (indents : List Nat) : Prop :=
  ∃ inner before, s.Settled column content before (inner ++ indents) ∧ (∀ i ∈ inner, column < i)
    ∧ before ++ List.replicate inner.length .blockEnd = tokens

theorem Settled.standing {s : Scanner} {column : Nat} {content : List Char} {tokens : List Token}
    {indents : List Nat} (h : s.Settled column content tokens indents) :
    s.Standing column content tokens indents :=
  ⟨[], tokens, h, by simp, by simp⟩

/-- A block that begins further right will be closed. -/
theorem Standing.close {s : Scanner} {column indent : Nat} {content : List Char}
    {tokens : List Token} {indents : List Nat}
    (h : s.Standing column content tokens (indent :: indents)) (hindent : column < indent) :
    s.Standing column content (tokens ++ [.blockEnd]) indents := by
  obtain ⟨inner, before, hsettled, hinner, rfl⟩ := h
  refine ⟨inner ++ [indent], before, by simpa using hsettled, ?_, ?_⟩
  · intro i hi
    rcases List.mem_append.mp hi with hi | hi
    · exact hinner i hi
    · rwa [List.mem_singleton.mp hi]
  · rw [List.length_append, List.length_singleton, List.replicate_succ', List.append_assoc]

/-- Reading the first token of the line. -/
theorem Standing.reaches {s : Scanner} {column : Nat} {c : Char} {rest : List Char}
    {tokens : List Token} {indents : List Nat} (h : s.Standing column (c :: rest) tokens indents)
    (hindents : ∀ i ∈ indents.head?, i ≤ column) (read : Place → Scanner)
    (hread : ∀ place : Place, place.column = column →
      (block (c :: rest) place tokens indents none true).token? c rest = some (read place)
        ∧ (read place).rest.length ≤ rest.length) :
    ∃ place : Place, place.column = column ∧ s.Reaches (read place) := by
  obtain ⟨inner, before, ⟨⟨place, hcolumn, hskip⟩, hlength⟩, hinner, rfl⟩ := h
  obtain ⟨htoken, hshorter⟩ := hread place hcolumn
  have hclose := closeBlocks_block hinner hindents (c :: rest) place before none true
  subst hcolumn
  refine ⟨place, rfl, Reaches.token hskip rfl ((congrArg (token? · c rest) hclose).trans htoken) ?_⟩
  rw [List.length_cons] at hlength
  omega

/-! ## Beginning a block -/

/-- The token of a block that begins at a column, if the innermost block does not begin there. -/
def opening (t : Token) (column : Nat) (indents : List Nat) : List Token :=
  if indents.head? = some column then [] else [t]

/-- The blocks around what stands at a column. -/
def entering (column : Nat) (indents : List Nat) : List Nat :=
  if indents.head? = some column then indents else column :: indents

theorem head?_entering (column : Nat) (indents : List Nat) :
    (entering column indents).head? = some column := by
  rw [entering]
  split
  · assumption
  · rfl

theorem opening_of_head? {t : Token} {column : Nat} {indents : List Nat}
    (h : indents.head? = some column) : opening t column indents = [] := if_pos h

theorem entering_of_head? {column : Nat} {indents : List Nat} (h : indents.head? = some column) :
    entering column indents = indents := if_pos h

theorem insertIdx_length_append (before behind : List Token) (t : Token) :
    (before ++ behind).insertIdx before.length t = before ++ t :: behind := by
  induction before with
  | nil => rfl
  | cons u rest ih => rw [List.cons_append, List.length_cons, List.insertIdx_succ_cons, ih,
      List.cons_append]

/-- Putting a token in behind the tokens of a front part. -/
theorem insert_block (rest : List Char) (place : Place) (before behind : List Token)
    (indents : List Nat) (key : Option SimpleKey) (allowed : Bool) (t : Token) :
    (block rest place (before ++ behind) indents key allowed).insert before.length t
      = block rest place (before ++ t :: behind) indents key allowed := by
  have hinsert : (before ++ behind).toArray.insertIdxIfInBounds before.length t
      = (before ++ t :: behind).toArray := by
    rw [Array.insertIdxIfInBounds, dif_pos (by simp), List.insertIdx_toArray,
      insertIdx_length_append]
  rw [insert, block, hinsert, block]

/-- A block opens unless the innermost one begins at the same column. -/
theorem any_head?_eq {column : Nat} {indents : List Nat} (h : ∀ i ∈ indents.head?, i ≤ column) :
    indents.head?.any (column ≤ ·) = decide (indents.head? = some column) := by
  cases hhead : indents.head? with
  | none => rfl
  | some i =>
    have hle : i ≤ column := h i hhead
    simp only [Option.any_some, Option.some.injEq, decide_eq_decide]
    omega

/-- Opening a block before the tokens from a position on. -/
theorem openBlock_some {column : Nat} {indents : List Nat} (h : ∀ i ∈ indents.head?, i ≤ column)
    (rest : List Char) (place : Place) (before behind : List Token) (key : Option SimpleKey)
    (allowed : Bool) (t : Token) :
    (block rest place (before ++ behind) indents key allowed).openBlock column (some before.length) t
      = block rest place (before ++ (opening t column indents ++ behind)) (entering column indents) key
          allowed := by
  have hopens := any_head?_eq h
  by_cases hsame : indents.head? = some column
  · rw [opening_of_head? hsame, entering_of_head? hsame, openBlock,
      if_pos (by simp [block, hsame])]
    rfl
  · rw [opening, if_neg hsame, entering, if_neg hsame, openBlock,
      if_neg (by simp [block, inFlow, hopens, hsame])]
    exact insert_block rest place before behind (column :: indents) key allowed t

/-- Opening a block behind the tokens. -/
theorem openBlock_none {column : Nat} {indents : List Nat} (h : ∀ i ∈ indents.head?, i ≤ column)
    (rest : List Char) (place : Place) (tokens : List Token) (key : Option SimpleKey)
    (allowed : Bool) (t : Token) :
    (block rest place tokens indents key allowed).openBlock column none t
      = block rest place (tokens ++ opening t column indents) (entering column indents) key
          allowed := by
  have hopens := any_head?_eq h
  by_cases hsame : indents.head? = some column
  · rw [opening_of_head? hsame, entering_of_head? hsame, openBlock,
      if_pos (by simp [block, hsame]), List.append_nil]
  · rw [opening, if_neg hsame, entering, if_neg hsame, openBlock,
      if_neg (by simp [block, inFlow, hopens, hsame])]
    exact emit_block rest place tokens (column :: indents) key allowed t

/-! ## Keys and dashes -/

/-- A colon behind what may be a key. -/
theorem colon?_block {place begun : Place} {indents : List Nat}
    (h : ∀ i ∈ indents.head?, i ≤ begun.column) (after : List Char) (before behind : List Token)
    (required : Bool) :
    (block (':' :: after) place (before ++ behind) indents (some ⟨required, before.length, begun⟩)
        false).colon?
      = some (block after (place.after [':'])
          (before ++ (opening .blockMappingStart begun.column indents ++ .key :: behind) ++ [.value])
          (entering begun.column indents) none false) := by
  have hinsert := insert_block (':' :: after) place before behind indents
    (some ⟨required, before.length, begun⟩) false .key
  have hopen := openBlock_some h (':' :: after) place before (.key :: behind)
    (some ⟨required, before.length, begun⟩) false .blockMappingStart
  show some ((Scanner.skip { ((block (':' :: after) place (before ++ behind) indents
      (some ⟨required, before.length, begun⟩) false).insert before.length .key).openBlock begun.column
        (some before.length) .blockMappingStart with key := none, keyAllowed := false } 1).emit .value)
    = _
  rw [hinsert, hopen]
  show some (((block ([':'] ++ after) place _ _ none false).moveTo after).emit .value) = _
  rw [moveTo_block, emit_block]
  rfl

theorem beginsContent_colon (after : List Char) : BeginsContent (':' :: after) := by
  intro c hc
  obtain rfl : ':' = c := by simpa using hc
  decide

theorem isIndicator_of_isAlphanum {c : Char} (h : c.isAlphanum = true ∨ c = '_') :
    isIndicator c = false := by
  have hnot : ∀ d : Char, d.isAlphanum = false → d ≠ '_' → c ≠ d := by
    rintro d halnum hunderscore rfl
    rcases h with h | h
    · rw [halnum] at h
      cases h
    · exact hunderscore h
  simp [isIndicator, hnot]

/-- A colon on the line of a possible key. -/
theorem reaches_colon {place begun : Place} {indents : List Nat}
    (h : ∀ i ∈ indents.head?, i ≤ begun.column) (hcolumn : begun.column ≤ place.column)
    (hline : place.line ≤ begun.line) (hindex : place.index ≤ begun.index + 1024)
    {after : List Char} (hafter : startsBlank after = true) (before behind : List Token)
    (required : Bool) :
    (block (':' :: after) place (before ++ behind) indents (some ⟨required, before.length, begun⟩)
        false).Reaches
      (block after (place.after [':'])
          (before ++ (opening .blockMappingStart begun.column indents ++ .key :: behind) ++ [.value])
          (entering begun.column indents) none false) := by
  have hkey : ∀ i ∈ indents.head?, i ≤ place.column := fun i hi => (h i hi).trans hcolumn
  have hskip : (block (':' :: after) place (before ++ behind) indents
      (some ⟨required, before.length, begun⟩) false).skipSpacing ((':' :: after).length + 1)
      = block (':' :: after) place (before ++ behind) indents
        (some ⟨required, before.length, begun⟩) false :=
    skipSpacing_content (s := block (':' :: after) place (before ++ behind) indents
      (some ⟨required, before.length, begun⟩) false) (beginsContent_colon after)
      (show ':' :: after = List.replicate 0 ' ' ++ ':' :: after from rfl) _
  have hstays : (block (':' :: after) place (before ++ behind) indents
      (some ⟨required, before.length, begun⟩) false).dropStale?
      = some (block (':' :: after) place (before ++ behind) indents
        (some ⟨required, before.length, begun⟩) false) := by
    simp [dropStale?, reaches, block, hline, hindex]
  have hclose := closeBlocks_eq_self hkey (':' :: after) place (before ++ behind)
    (some ⟨required, before.length, begun⟩) false
  have htoken : (block (':' :: after) place (before ++ behind) indents
      (some ⟨required, before.length, begun⟩) false).token? ':' after
      = (block (':' :: after) place (before ++ behind) indents
        (some ⟨required, before.length, begun⟩) false).colon? := by
    simp [token?, startsMarker, hafter]
  exact Reaches.token ((congrArg dropStale? hskip).trans hstays) rfl
    ((congrArg (token? · ':' after) hclose).trans
      (htoken.trans (colon?_block h after before behind required)))
    (Nat.lt_succ_self _)

/-- Reading a key and its colon. -/
theorem Standing.key {s : Scanner} {column : Nat} {key after : List Char} {tokens : List Token}
    {indents : List Nat} (h : s.Standing column (key ++ ':' :: after) tokens indents)
    (hindents : ∀ i ∈ indents.head?, i ≤ column) (hkey : IsKey key)
    (hafter : startsBlank after = true) :
    ∃ place : Place, column < place.column ∧ s.Reaches (block after place
      (tokens ++ (opening .blockMappingStart column indents
        ++ [.key, .scalar (String.ofList key) .plain]) ++ [.value]) (entering column indents) none
          false) := by
  have hline : ∀ c ∈ key, isBreak c = false := isBreak_of_staysPlain hkey.stays
  have hstops : PlainScalar.Stops ((indents.head?.map (· + 1)).getD 0) (':' :: after) :=
    { endsPart := fun c rest heq => .inr (by cases heq; exact ⟨rfl, hafter⟩)
      noTab := by simp [isSpacing, isBlank, isBreak]
      behind := fun hne => absurd rfl hne }
  obtain ⟨c, more, rfl⟩ := List.exists_cons_of_ne_nil hkey.ne_nil
  have hfirst : c.isAlphanum = true ∨ c = '_' := hkey.first c rfl
  have hspacing : isSpacing c = false := (hkey.head c rfl).1
  -- the key
  obtain ⟨place, rfl, hscalar⟩ := h.reaches hindents
    (fun place => block (':' :: after) (place.after (c :: more))
      (tokens ++ [.scalar (String.ofList (c :: more)) .plain]) indents
      (savedKey indents tokens.length place true) false) fun place hplace => by
    have hread := plain?_block hkey.toIsPlain hstops place tokens true
    refine ⟨?_, by simp [block]⟩
    rw [token?_eq_plain? hspacing (.inl (isIndicator_of_isAlphanum hfirst)) rfl fun _ => hfirst]
    simpa [isSpacing, isBlank, isBreak, breaksOf] using hread
  -- the colon
  have hbehind := Place.after_of_oneLine hline place
  refine ⟨(place.after (c :: more)).after [':'], ?_, hscalar.trans ?_⟩
  · rw [hbehind]
    show place.column < place.column + (more.length + 1) + 1
    omega
  · refine reaches_colon hindents ?_ ?_ ?_ hafter tokens _ _
    · rw [hbehind]
      exact Nat.le_add_right _ _
    · rw [hbehind]
    · rw [hbehind]
      exact Nat.add_le_add_left hkey.short _

/-- Reading a dash. -/
theorem Standing.dash {s : Scanner} {column : Nat} {after : List Char} {tokens : List Token}
    {indents : List Nat} (h : s.Standing column ('-' :: ' ' :: after) tokens indents)
    (hindents : ∀ i ∈ indents.head?, i ≤ column) :
    ∃ place : Place, column < place.column ∧ s.Reaches (block (' ' :: after) place
      (tokens ++ opening .blockSequenceStart column indents ++ [.blockEntry])
      (entering column indents) none true) := by
  obtain ⟨place, rfl, hreaches⟩ := h.reaches hindents
    (fun place => block (' ' :: after) (place.after ['-'])
      (tokens ++ opening .blockSequenceStart column indents ++ [.blockEntry])
      (entering column indents) none true) fun place hplace => by
    subst hplace
    refine ⟨?_, Nat.le_refl _⟩
    have hopen := openBlock_none hindents ('-' :: ' ' :: after) place tokens none true
      .blockSequenceStart
    have htoken : (block ('-' :: ' ' :: after) place tokens indents none true).token? '-' (' ' :: after)
        = (block ('-' :: ' ' :: after) place tokens indents none true).dash? := by
      simp [token?, startsMarker, startsBlank, isSpacing, isBlank]
    rw [htoken]
    show (some ((block ('-' :: ' ' :: after) place tokens indents none true).openBlock place.column none
      .blockSequenceStart)).bind (fun s => s.dropKey?.bind fun s =>
        some (({ s with keyAllowed := true }.skip 1).emit .blockEntry)) = _
    rw [hopen, Option.bind_some]
    show some (((block (['-'] ++ ' ' :: after) place _ _ none true).moveTo (' ' :: after)).emit _) = _
    rw [moveTo_block, emit_block]
    rfl
  exact ⟨place.after ['-'], Nat.lt_succ_self _, hreaches⟩

/-! ## Lists and mappings -/

theorem beginsContent_dash (rest : List Char) : BeginsContent ('-' :: rest) := by
  intro c hc
  obtain rfl : '-' = c := by simpa using hc
  decide

/-- Reading an item of a list. -/
theorem Standing.item {s : Scanner} {column next : Nat} {i : Item} {content : List Char}
    {tokens : List Token} {indents : List Nat}
    (h : s.Standing column (i.content ++ (List.replicate next ' ' ++ content)) tokens indents)
    (hindents : ∀ i ∈ indents.head?, i ≤ column) (hi : i.IsValid) (hnext : next ≤ column)
    (hcontent : BeginsContent content) :
    ∃ t, s.Reaches t ∧ t.Standing next content
      (tokens ++ opening .blockSequenceStart column indents ++ i.tokens) (entering column indents) := by
  rw [Item.content, List.cons_append, List.cons_append, List.append_assoc] at h
  obtain ⟨place, hplace, hdash⟩ := h.dash hindents
  obtain ⟨t, hscalar, ht⟩ := exists_reaches_scalar hi.value hi.gap (head?_entering column indents) hnext
    hcontent hplace (tokens ++ opening .blockSequenceStart column indents ++ [.blockEntry]) true
  refine ⟨t, hdash.trans hscalar, ?_⟩
  have hstanding := ht.standing
  rwa [List.append_assoc _ [Token.blockEntry]] at hstanding

/-- Reading the items of a list. -/
theorem Standing.items {s : Scanner} {column next : Nat} {first : Item} {rest : List Item}
    {content : List Char} {tokens : List Token} {indents : List Nat}
    (h : s.Standing column (first.content ++ (rest.flatMap (Item.text column)
      ++ (List.replicate next ' ' ++ content))) tokens indents)
    (hindents : ∀ i ∈ indents.head?, i ≤ column) (hvalid : ∀ i ∈ first :: rest, i.IsValid)
    (hnext : next ≤ column) (hcontent : BeginsContent content) :
    ∃ t, s.Reaches t ∧ t.Standing next content
      (tokens ++ opening .blockSequenceStart column indents ++ (first :: rest).flatMap Item.tokens)
      (entering column indents) := by
  induction rest generalizing s first tokens indents with
  | nil =>
    rw [List.flatMap_nil, List.nil_append] at h
    obtain ⟨t, hreaches, ht⟩ := h.item hindents (hvalid first List.mem_cons_self) hnext hcontent
    exact ⟨t, hreaches, by simpa using ht⟩
  | cons i rest ih =>
    rw [List.flatMap_cons, Item.text, List.append_assoc, List.append_assoc] at h
    obtain ⟨t, hfirst, ht⟩ := h.item hindents (hvalid first List.mem_cons_self) (Nat.le_refl column)
      (beginsContent_dash _)
    have hentered := head?_entering column indents
    obtain ⟨u, hrest, hu⟩ := ih ht (by simp [hentered])
      fun j hj => hvalid j (List.mem_cons_of_mem first hj)
    refine ⟨u, hfirst.trans hrest, ?_⟩
    rw [opening_of_head? hentered, entering_of_head? hentered] at hu
    simpa using hu

theorem settled_gap {g : Gap} (hg : g.IsValid) (column : Nat) {content : List Char}
    (hcontent : BeginsContent content) (place : Place) (tokens : List Token) (indents : List Nat)
    (allowed : Bool) :
    (block (g.text ++ (List.replicate column ' ' ++ content)) place tokens indents none
      allowed).Settled column content tokens indents :=
  settled_remarks hg.remarks hcontent (fun hnil => by cases hnil) fun k hk => by cases hk

theorem startsBlank_inline {g : Gap} (hg : g.IsValid) (body : Body) (rest : List Char) :
    startsBlank (body.inline ++ (g.text ++ rest)) = true := by
  rcases body.inline_cases with ⟨v, rfl⟩ | hnone
  · rfl
  · obtain ⟨c, more, htext, hspacing⟩ := hg.exists_text
    rw [hnone, htext]
    exact hspacing

theorem beginsContent_entries {entries : Entries} (h : entries.IsValid) (column : Nat)
    (rest : List Char) : BeginsContent (entries.content column ++ rest) := by
  have hfirst : ∃ key behind, IsKey key ∧ entries.content column = key ++ behind := by
    cases entries with
    | last key gap body => exact ⟨key, _, h.1, rfl⟩
    | cons key gap body more => exact ⟨key, _, h.1, rfl⟩
  obtain ⟨key, behind, hkey, hcontent⟩ := hfirst
  obtain ⟨c, more, rfl⟩ := List.exists_cons_of_ne_nil hkey.ne_nil
  rw [hcontent]
  exact fun d hd => hkey.head d hd

mutual

/-- Reading what a key has for a value. -/
theorem exists_reaches_body {indent next : Nat} {content : List Char}
    (hnext : next ≤ indent) (hcontent : BeginsContent content) {gap : Gap} (hgap : gap.IsValid) :
    ∀ {body : Body}, body.IsValid → ∀ {place : Place}, indent < place.column →
      ∀ (tokens : List Token) {indents : List Nat}, indents.head? = some indent →
      ∃ t, (block (body.inline ++ (gap.text ++ (body.nested indent
            ++ (List.replicate next ' ' ++ content)))) place tokens indents none false).Reaches t
        ∧ t.Standing next content (tokens ++ body.tokens) indents
  | .scalar none, _, place, _, tokens, indents, hindents => by
    have hsettled := settled_gap hgap next hcontent place tokens indents false
    refine ⟨_, Reaches.refl _, ?_⟩
    rw [show (Body.scalar none).tokens = [] from rfl, List.append_nil]
    exact hsettled.standing
  | .scalar (some v), hvalid, place, hplace, tokens, indents, hindents => by
    obtain ⟨t, hreaches, ht⟩ := exists_reaches_scalar (hvalid v rfl) hgap hindents hnext hcontent hplace
      tokens false
    exact ⟨t, hreaches, ht.standing⟩
  | .items step first rest, hvalid, place, hplace, tokens, indents, hindents => by
    have hlower : ∀ i ∈ indents.head?, i ≤ indent + step := by simp [hindents]
    have hbegins : BeginsContent (first.content ++ (rest.flatMap (Item.text (indent + step))
      ++ (List.replicate next ' ' ++ content))) := beginsContent_dash _
    have hsettled := settled_gap hgap (indent + step) hbegins place tokens indents false
    obtain ⟨t, hreaches, ht⟩ := hsettled.standing.items hlower hvalid (hnext.trans (Nat.le_add_right _ _))
      hcontent
    refine ⟨t, ?_, ?_⟩
    · simpa [Body.inline, Body.nested, Item.text] using hreaches
    · cases step with
      | zero =>
        rw [Nat.add_zero, opening_of_head? hindents, entering_of_head? hindents] at ht
        simpa [Body.tokens] using ht
      | succ n =>
        have hmore : indents.head? ≠ some (indent + (n + 1)) := by simp [hindents]
        rw [opening, entering, if_neg hmore, if_neg hmore] at ht
        simpa [Body.tokens] using ht.close (by omega)
  | .mapping step entries, hvalid, place, hplace, tokens, indents, hindents => by
    have hlower : ∀ i ∈ indents.head?, i ≤ indent + step + 1 := by
      simp only [hindents, Option.mem_def, Option.some.injEq]
      omega
    have hsettled := settled_gap hgap (indent + step + 1)
      (beginsContent_entries hvalid (indent + step + 1) (List.replicate next ' ' ++ content)) place
      tokens indents false
    obtain ⟨t, hreaches, ht⟩ := exists_reaches_entries (by omega) hcontent hvalid hsettled.standing
      hlower
    refine ⟨t, ?_, ?_⟩
    · simpa [Body.inline, Body.nested] using hreaches
    · have hmore : indents.head? ≠ some (indent + step + 1) := by
        rw [hindents, ne_eq, Option.some.injEq]
        omega
      rw [opening, entering, if_neg hmore, if_neg hmore] at ht
      simpa [Body.tokens] using ht.close (by omega)

/-- Reading the entries of a mapping. -/
theorem exists_reaches_entries {column next : Nat} {content : List Char}
    (hnext : next ≤ column) (hcontent : BeginsContent content) :
    ∀ {entries : Entries}, entries.IsValid → ∀ {s : Scanner} {tokens : List Token} {indents : List Nat},
      s.Standing column (entries.content column ++ (List.replicate next ' ' ++ content)) tokens indents →
      (∀ i ∈ indents.head?, i ≤ column) →
      ∃ t, s.Reaches t ∧ t.Standing next content
        (tokens ++ opening .blockMappingStart column indents ++ entries.tokens) (entering column indents)
  | .last key gap body, hvalid, s, tokens, indents, h, hindents => by
    obtain ⟨hkey, hgap, hbody⟩ := hvalid
    simp only [Entries.content, List.append_assoc, List.cons_append] at h
    obtain ⟨place, hplace, hread⟩ := h.key hindents hkey (startsBlank_inline hgap body _)
    obtain ⟨t, hreaches, ht⟩ := exists_reaches_body hnext hcontent hgap hbody hplace _
      (head?_entering column indents)
    exact ⟨t, hread.trans hreaches, by simpa [Entries.tokens] using ht⟩
  | .cons key gap body rest, hvalid, s, tokens, indents, h, hindents => by
    obtain ⟨hkey, hgap, hbody, hrest⟩ := hvalid
    simp only [Entries.content, List.append_assoc, List.cons_append] at h
    have hentered := head?_entering column indents
    obtain ⟨place, hplace, hread⟩ := h.key hindents hkey (startsBlank_inline hgap body _)
    obtain ⟨t, hreaches, ht⟩ := exists_reaches_body (Nat.le_refl column)
      (beginsContent_entries hrest column _) hgap hbody hplace _ hentered
    obtain ⟨u, hlast, hu⟩ := exists_reaches_entries hnext hcontent hrest ht (by simp [hentered])
    refine ⟨u, hread.trans (hreaches.trans hlast), ?_⟩
    rw [opening_of_head? hentered, entering_of_head? hentered] at hu
    simpa [Entries.tokens] using hu

end

/-! ## Documents -/

/-- At the end of the text the blocks are closed. -/
theorem Standing.run_eq {s : Scanner} {column : Nat} {tokens : List Token} {indents : List Nat}
    (h : s.Standing column [] tokens indents) (fuel : Nat) :
    (s.run (fuel + 1)).map Array.toList
      = some (tokens ++ List.replicate indents.length .blockEnd) := by
  obtain ⟨inner, before, ⟨⟨place, hcolumn, hskip⟩, hlength⟩, hinner, rfl⟩ := h
  rw [run, hskip, Option.bind_some]
  show Option.map Array.toList (finish? (block [] place before (inner ++ indents) none true)) = _
  have hall : (inner ++ indents).takeWhile (fun _ => true) = inner ++ indents :=
    List.takeWhile_eq_self_iff.mpr fun _ _ => rfl
  simp [finish?, closeBlocks, block, inFlow, dropKey?, forget?, hall]

end Scanner

/-! ## Allowed characters -/

theorem Remark.IsValid.all_isAllowed {r : Remark} (h : r.IsValid) : r.text.all isAllowed = true := by
  have hspace : isAllowed ' ' = true := rfl
  have hmark : isAllowed '#' = true := rfl
  cases hbody : r.comment with
  | none => simp [Remark.text, hbody, hspace]
  | some body =>
    have hin : ∀ c ∈ body, isAllowed c = true := fun c hc => (h body hbody c hc).2
    simpa [Remark.text, hbody, hspace, hmark] using hin

theorem all_isAllowed_remarkLines {remarks : List Remark} (h : ∀ r ∈ remarks, r.IsValid) :
    (remarkLines remarks).all isAllowed = true := by
  have hfeed : isAllowed '\n' = true := rfl
  rw [remarkLines, List.all_flatMap, List.all_eq_true]
  intro r hr
  simp [(h r hr).all_isAllowed, hfeed]

theorem Inline.IsValid.all_isAllowed {v : Inline} (h : v.IsValid) :
    v.written.all isAllowed = true := by
  cases v with
  | plain text =>
    have hplain : IsPlain text := h
    exact List.all_eq_true.mpr hplain.allowed
  | quoted double text =>
    have hquotable : IsQuotable double text := h
    have hmark : isAllowed (quoteMark double) = true := by cases double <;> rfl
    have hin : (text.flatMap (inQuotes double)).all isAllowed = true := by
      rw [List.all_flatMap, List.all_eq_true]
      intro c hc
      rw [inQuotes]
      split
      · rfl
      · simp [hquotable.allowed c hc]
    simp [written, hmark, hin]

theorem Item.IsValid.all_isAllowed {i : Item} (h : i.IsValid) : i.content.all isAllowed = true := by
  have hdash : isAllowed '-' = true := rfl
  have hspace : isAllowed ' ' = true := rfl
  simp [content, Gap.text, hdash, hspace, h.value.all_isAllowed,
    all_isAllowed_remarkLines h.gap.remarks]

theorem Body.IsValid.all_isAllowed_inline {body : Body} (h : body.IsValid) :
    body.inline.all isAllowed = true := by
  rcases body.inline_cases with ⟨v, rfl⟩ | hnone
  · have hspace : isAllowed ' ' = true := rfl
    have hvalue : v.IsValid := h v rfl
    simp [inline, hspace, hvalue.all_isAllowed]
  · rw [hnone]
    rfl

mutual

theorem Body.IsValid.all_isAllowed (indent : Nat) :
    ∀ {body : Body}, body.IsValid → (body.nested indent).all isAllowed = true
  | .scalar _, _ => rfl
  | .items step first rest, h => by
    have hspace : isAllowed ' ' = true := rfl
    rw [Body.nested, List.all_flatMap, List.all_eq_true]
    intro i hi
    have hi : i.IsValid := h i hi
    simp [Item.text, hspace, hi.all_isAllowed]
  | .mapping step entries, h => by
    have hspace : isAllowed ' ' = true := rfl
    have hentries : entries.IsValid := h
    simp [Body.nested, hspace, hentries.all_isAllowed (indent + step + 1)]

theorem Entries.IsValid.all_isAllowed (indent : Nat) :
    ∀ {entries : Entries}, entries.IsValid → (entries.content indent).all isAllowed = true
  | .last key gap body, ⟨hkey, hgap, hbody⟩ => by
    have hcolon : isAllowed ':' = true := rfl
    have hname : key.all isAllowed = true := List.all_eq_true.mpr hkey.allowed
    simp [Entries.content, Gap.text, hcolon, hname, hbody.all_isAllowed_inline,
      all_isAllowed_remarkLines hgap.remarks, hbody.all_isAllowed indent]
  | .cons key gap body rest, ⟨hkey, hgap, hbody, hrest⟩ => by
    have hspace : isAllowed ' ' = true := rfl
    have hcolon : isAllowed ':' = true := rfl
    have hname : key.all isAllowed = true := List.all_eq_true.mpr hkey.allowed
    simp [Entries.content, Gap.text, hcolon, hspace, hname, hbody.all_isAllowed_inline,
      all_isAllowed_remarkLines hgap.remarks, hbody.all_isAllowed indent, hrest.all_isAllowed indent]

end

/-! ## The tokens of a document -/

/-- The tokens of a document in block style. -/
theorem BlockDocument.tokens_text {d : BlockDocument} (h : d.IsValid) :
    Token.ofText? d.text = some (.blockMappingStart :: (d.root.tokens ++ [.blockEnd])) := by
  have hend : BeginsContent [] := fun c hc => by cases hc
  have hallowed : d.text.all isAllowed = true := by
    simp [text, all_isAllowed_remarkLines h.lead, h.root.all_isAllowed 0]
  have htext : d.text = remarkLines d.lead
      ++ (List.replicate 0 ' ' ++ (d.root.content 0 ++ (List.replicate 0 ' ' ++ []))) := by
    simp [text]
  have hsettled : (Scanner.start d.text).Settled 0 (d.root.content 0 ++ (List.replicate 0 ' ' ++ []))
      [] [] := by
    rw [htext]
    exact Scanner.settled_remarks h.lead (Scanner.beginsContent_entries h.root 0 _)
      (fun _ => ⟨rfl, rfl⟩) fun k hk => by cases hk
  obtain ⟨t, hreaches, ht⟩ := Scanner.exists_reaches_entries (Nat.le_refl 0) hend h.root
    hsettled.standing (by simp)
  obtain ⟨left, hleft, hrun⟩ := hreaches (d.text.length + 2) (Nat.lt_succ_of_lt (Nat.lt_succ_self _))
  obtain ⟨left, rfl⟩ : ∃ n, left = n + 1 := ⟨left - 1, by omega⟩
  rw [Token.ofText?, if_pos hallowed, hrun, ht.run_eq left]
  rfl

end Stave.Yaml
