import Stave.Proofs.Song.Clarified

/-!
# Block scalars

The lines of a block scalar are text, but they are clarified one by one like all others.  No value of
theirs is put in quotes, because their keys stand too deep.  Still a line that repeats a key of the
block is renamed, and an item is put in quotes for as long as no line of the block above it begins with
a key.  Behind the block the lines are clarified as if it was not there.
-/

namespace Stave.Song

/-! ## Values that are left for YAML -/

theorem exists_go_eq_append (afterBlank : Bool) (done value : List Char) :
    ∃ more, beforeComment.go afterBlank done value = done.reverse ++ more := by
  induction value generalizing afterBlank done with
  | nil => exact ⟨[], (List.append_nil _).symm⟩
  | cons c rest ih =>
    rw [beforeComment.go]
    split
    · exact ⟨[], (List.append_nil _).symm⟩
    · obtain ⟨more, hmore⟩ := ih (Text.isBlank c) (c :: done)
      exact ⟨c :: more, by rw [hmore, List.reverse_cons, List.append_assoc, List.singleton_append]⟩

/-- A value that does not begin with a comment keeps its first character before the comment. -/
theorem exists_go_of_dropWhile {value rest : List Char} {c : Char}
    (h : value.dropWhile Text.isBlank = c :: rest) (hc : c ≠ '#') (afterBlank : Bool)
    (done : List Char) :
    ∃ more, beforeComment.go afterBlank done value
      = done.reverse ++ (value.takeWhile Text.isBlank ++ c :: more) := by
  induction value generalizing afterBlank done with
  | nil => cases h
  | cons d value ih =>
    cases hd : Text.isBlank d with
    | true =>
      have hne : d ≠ '#' := by
        rintro rfl
        cases hd
      rw [List.dropWhile_cons_of_pos hd] at h
      obtain ⟨more, hmore⟩ := ih h true (d :: done)
      refine ⟨more, ?_⟩
      rw [beforeComment.go, if_neg (by simp [hne]), hd, hmore, List.takeWhile_cons_of_pos hd,
        List.reverse_cons, List.append_assoc]
      rfl
    | false =>
      rw [List.dropWhile_cons_of_neg (by simp [hd])] at h
      obtain ⟨rfl, rfl⟩ := List.cons.inj h
      obtain ⟨more, hmore⟩ := exists_go_eq_append false (d :: done) value
      refine ⟨more, ?_⟩
      rw [beforeComment.go, if_neg (by simp [hc]), hd, hmore,
        List.takeWhile_cons_of_neg (by simp [hd]), List.reverse_cons, List.append_assoc]
      rfl

/-- A value that begins with a quote or with the mark of a block has no pattern. -/
theorem pattern?_of_mark {value rest : List Char} {c : Char}
    (h : value.dropWhile Text.isBlank = c :: rest) (hc : c ∈ "\"'|>".toList) :
    pattern? value = none := by
  have hne : c ≠ '#' := by
    rintro rfl
    exact absurd hc (by decide)
  have hblank : Text.isBlank c = false := by
    have hfirst := Text.head?_trimStart value
    rw [Text.trimStart, h] at hfirst
    exact hfirst c rfl
  obtain ⟨more, hmore⟩ := exists_go_of_dropWhile h hne true []
  have hcomment : beforeComment value = value.takeWhile Text.isBlank ++ c :: more := hmore
  have hstart : Text.trimStart (beforeComment value) = c :: more := by
    rw [hcomment, Text.trimStart, List.dropWhile_append_of_pos fun d hd => List.mem_takeWhile_imp hd,
      List.dropWhile_cons_of_neg (by simp [hblank])]
  obtain ⟨last, hlast⟩ : ∃ last, Text.trimEnd (c :: more) = c :: last := by
    have hstarts := Text.trimEnd_prefix (c :: more)
    cases htrim : Text.trimEnd (c :: more) with
    | nil =>
      rw [Text.trimEnd, List.reverse_eq_nil_iff, List.dropWhile_eq_nil_iff] at htrim
      rw [htrim c (by simp)] at hblank
      cases hblank
    | cons d last =>
      rw [htrim, List.cons_prefix_cons] at hstarts
      exact ⟨last, by rw [hstarts.1]⟩
  rw [pattern?, Text.trim, hstart, hlast]
  simp only
  rw [if_pos (by simpa using hc)]

/-! ## Within a block -/

/-- Whether a line is empty or indented more than that. -/
def IsWithin (indent : Nat) (line : List Char) : Prop :=
  line.dropWhile Text.isBlank = [] ∨ indent < Text.width (line.takeWhile Text.isBlank)

instance (indent : Nat) (line : List Char) : Decidable (IsWithin indent line) :=
  inferInstanceAs (Decidable (_ ∨ _))

/-- A key in a block is indented more than the key of the block. -/
theorem IsWithin.lt_indent {indent : Nat} {line : List Char} (h : IsWithin indent line)
    {l : KeyedLine} (hread : KeyedLine.read? line = some l) : indent < l.indent := by
  obtain ⟨c, rest, hcontent, -, -⟩ := KeyedLine.exists_cons_of_read? hread
  rcases h with hempty | hindent
  · rw [hempty] at hcontent
    cases hcontent
  · rwa [KeyedLine.indent, (KeyedLine.read?_eq_some hread).1]

section Block

variable {inner before : List (List Char)} {header : List Char} {l : KeyedLine}

/-- Around a place in a block is the key of the block, and what is around that. -/
theorem exists_around_eq_append (hread : KeyedLine.read? header = some l)
    (hinner : ∀ line ∈ inner, IsWithin l.indent line) {indent : Nat} (h : l.indent < indent) :
    ∃ inside, around indent (inner ++ header :: before)
      = inside ++ l.key :: around l.indent before := by
  induction inner generalizing indent with
  | nil => exact ⟨[], by simp only [List.nil_append, around, hread, if_pos h]⟩
  | cons line rest ih =>
    have hwithin : ∀ other ∈ rest, IsWithin l.indent other := fun other hother =>
      hinner other (List.mem_cons_of_mem _ hother)
    cases hline : KeyedLine.read? line with
    | none =>
      obtain ⟨inside, hinside⟩ := ih hwithin h
      exact ⟨inside, by simp only [List.cons_append, around, hline, hinside]⟩
    | some m =>
      have hdeeper := (hinner line List.mem_cons_self).lt_indent hline
      by_cases hless : m.indent < indent
      · obtain ⟨inside, hinside⟩ := ih hwithin hdeeper
        exact ⟨m.key :: inside, by
          simp only [List.cons_append, around, hline, if_pos hless, hinside]⟩
      · obtain ⟨inside, hinside⟩ := ih hwithin h
        exact ⟨inside, by simp only [List.cons_append, around, hline, if_neg hless, hinside]⟩

theorem length_of_isSection {path : List (List Char)} (h : isSection path = true) :
    path.length = 2 := by
  match path with
  | [_, _] => rfl
  | [] => cases h
  | [_] => cases h
  | _ :: _ :: _ :: _ => cases h

/-- A key in a block that belongs to an instrument is no instrument. -/
theorem isSection_of_within (hread : KeyedLine.read? header = some l)
    (hsection : isSection (around l.indent before) = true)
    (hinner : ∀ line ∈ inner, IsWithin l.indent line) {indent : Nat} (h : l.indent < indent) :
    isSection (around indent (inner ++ header :: before)) = false := by
  obtain ⟨inside, hinside⟩ := exists_around_eq_append hread hinner h
  rw [hinside, Bool.eq_false_iff]
  intro hpath
  have hlength := length_of_isSection hpath
  rw [List.length_append, List.length_cons, length_of_isSection hsection] at hlength
  omega

/-- A look back from a block does not go beyond its key. -/
theorem timesMet_of_within (hread : KeyedLine.read? header = some l)
    (hinner : ∀ line ∈ inner, IsWithin l.indent line) {indent : Nat} (h : l.indent < indent)
    (key : List Char) :
    timesMet indent key (inner ++ header :: before) = timesMet indent key inner := by
  induction inner with
  | nil => simp only [List.nil_append, timesMet, hread, if_pos h]
  | cons line rest ih =>
    have hrest := ih fun other hother => hinner other (List.mem_cons_of_mem _ hother)
    simp only [List.cons_append, timesMet, hrest]

/-- An item in a block belongs to the instrument as long as there is no key above it. -/
theorem inPatterns_of_within (hread : KeyedLine.read? header = some l)
    (hsection : isSection (around l.indent before) = true)
    (hinner : ∀ line ∈ inner, IsWithin l.indent line) {indent : Nat} (h : l.indent < indent) :
    inPatterns indent (inner ++ header :: before) = true
      ↔ ∀ other ∈ inner, KeyedLine.read? other = none := by
  induction inner with
  | nil => simp [inPatterns_key hread (Nat.le_of_lt h), hsection]
  | cons line rest ih =>
    have hwithin : ∀ other ∈ rest, IsWithin l.indent other := fun other hother =>
      hinner other (List.mem_cons_of_mem _ hother)
    rw [List.cons_append, List.forall_mem_cons]
    cases hline : KeyedLine.read? line with
    | none => simpa only [inPatterns, hline, true_and] using ih hwithin
    | some m =>
      have hdeeper := (hinner line List.mem_cons_self).lt_indent hline
      simp [inPatterns, hline, isSection_of_within hread hsection hwithin hdeeper]

end Block

/-! ## Lines that change -/

/-- Whether a line begins with a key that a look back meets. -/
def repeatsKey (before : List (List Char)) (line : List Char) : Bool :=
  (KeyedLine.read? line).any fun l => timesMet l.indent l.key before != 0

/-- Whether a line is an item of a list with something to put in quotes. -/
def isPatternItem (line : List Char) : Bool :=
  match line.dropWhile Text.isBlank with
  | '-' :: rest => (rest.head?.any fun c => c == ' ' || c == '\t') && (pattern? rest).isSome
  | _ => false

/-- Whether any of the lines begins with a key. -/
def haveKey (lines : List (List Char)) : Bool :=
  lines.any fun line => (KeyedLine.read? line).isSome

/-- Whether a line of a block scalar of an instrument stays as it is, in view of the lines of the block
above it: its key is new there, and an item with something to put in quotes stands below a key. -/
def staysInBlock (above : List (List Char)) (line : List Char) : Bool :=
  !repeatsKey above line && (!isPatternItem line || haveKey above)

theorem repeatName_eq_self_iff (key : List Char) (count : Nat) :
    repeatName key count = key ↔ count = 0 := by
  rw [repeatName]
  split
  · simp [*]
  · simp [*]

/-- A line is put together again from its indentation and its content. -/
theorem indentation_append (line : List Char) :
    line.takeWhile Text.isBlank ++ line.dropWhile Text.isBlank = line := List.takeWhile_append_dropWhile

/-- Quotes are not put around what has them already. -/
theorem quote_ne {rest pattern : List Char} (h : pattern? rest = some pattern) :
    ' ' :: quote pattern ≠ rest := by
  rintro rfl
  have hnone : pattern? (' ' :: quote pattern) = none :=
    pattern?_of_mark (show _ = '\'' :: _ from rfl) (by decide)
  cases hnone.symm.trans h

/-- Where no key belongs to an instrument, a line with a key is changed only if the key was met. -/
theorem clarifiedKey_eq_self_iff {before : List (List Char)} {line : List Char} {l : KeyedLine}
    (hread : KeyedLine.read? line = some l) (hsection : isSection (around l.indent before) = false) :
    clarifiedKey before l = line ↔ timesMet l.indent l.key before = 0 := by
  obtain ⟨hindentation, hcontent, -⟩ := KeyedLine.read?_eq_some hread
  have hline : l.indentation ++ (l.key ++ l.rest) = line := by
    rw [hindentation, ← hcontent, indentation_append]
  rw [← repeatName_eq_self_iff l.key]
  conv_lhs => rhs; rw [← hline]
  simp [clarifiedKey, hsection]

theorem clarifiedItem_eq_self_iff {before : List (List Char)} {line rest : List Char}
    (hcontent : line.dropWhile Text.isBlank = '-' :: rest) :
    clarifiedItem before (line.takeWhile Text.isBlank) rest = line
      ↔ ¬(inPatterns (Text.width (line.takeWhile Text.isBlank)) before = true
        ∧ isPatternItem line = true) := by
  have hline : line.takeWhile Text.isBlank ++ '-' :: rest = line := by
    rw [← hcontent, indentation_append]
  rw [clarifiedItem, hline, isPatternItem, hcontent, quoted?_eq]
  cases hpattern : pattern? rest with
  | none => simp [hpattern]
  | some pattern =>
    have hchanged : line.takeWhile Text.isBlank ++ '-' :: ' ' :: quote pattern ≠ line := by
      intro hsame
      have hbehind := List.append_cancel_left (hsame.trans hline.symm)
      exact quote_ne hpattern (List.cons.inj hbehind).2
    simp only [Option.map_some, Bool.and_eq_true]
    split
    · next hin => simp [hchanged, hin, hpattern]
    · next hout => simpa [hpattern] using hout

/-- Which lines of a block scalar of an instrument stay as they are. -/
theorem clarifiedBehind_eq_self_iff {inner before : List (List Char)} {header line : List Char}
    {l : KeyedLine} (hread : KeyedLine.read? header = some l)
    (hsection : isSection (around l.indent before) = true)
    (hinner : ∀ other ∈ inner, IsWithin l.indent other) (hline : IsWithin l.indent line) :
    clarifiedBehind (inner ++ header :: before) line = line ↔ staysInBlock inner line = true := by
  cases hkey : KeyedLine.read? line with
  | some m =>
    have hdeeper := hline.lt_indent hkey
    have hitem : isPatternItem line = false := by
      obtain ⟨c, more, hfirst, -, hdash⟩ := KeyedLine.exists_cons_of_read? hkey
      rw [isPatternItem, hfirst]
      split
      · next heq => exact absurd (List.cons.inj heq).1 hdash
      · rfl
    rw [clarifiedBehind, hkey]
    show clarifiedKey _ m = line ↔ _
    rw [clarifiedKey_eq_self_iff hkey (isSection_of_within hread hsection hinner hdeeper),
      timesMet_of_within hread hinner hdeeper]
    simp [staysInBlock, repeatsKey, hkey, hitem]
  | none =>
    have hnew : repeatsKey inner line = false := by simp [repeatsKey, hkey]
    rw [clarifiedBehind, hkey, staysInBlock, hnew]
    simp only
    split
    · next rest hcontent =>
      rcases hline with hempty | hdeeper
      · rw [hempty] at hcontent
        cases hcontent
      · rw [clarifiedItem_eq_self_iff hcontent, inPatterns_of_within hread hsection hinner hdeeper]
        cases isPatternItem line <;> simp [haveKey, Option.ne_none_iff_isSome]
    · next hother =>
      have hitem : isPatternItem line = false := by
        rw [isPatternItem]
        split
        · next rest hcontent => exact absurd hcontent (hother rest)
        · rfl
      simp [hitem]

/-! ## Behind a block -/

/-- A line without a key is kept unless it is an item with something to put in quotes. -/
theorem clarifiedBehind_of_not_item {line : List Char} (hread : KeyedLine.read? line = none)
    (hitem : isPatternItem line = false) (before : List (List Char)) :
    clarifiedBehind before line = line := by
  rw [clarifiedBehind, hread]
  simp only
  split
  · next rest hcontent => exact (clarifiedItem_eq_self_iff hcontent).mpr (by simp [hitem])
  · rfl

/-- Where the next key is indented no more than that, the lines are clarified alike if what is found up
to there is; all but the items that stand before that key. -/
theorem AlikeUpTo.getElem?_clarifiedLines {indent : Nat} {a b : List (List Char)}
    (h : AlikeUpTo indent a b) {lines : List (List Char)}
    (hnext : ∀ l ∈ lines.findSome? KeyedLine.read?, l.indent ≤ indent) {i : Nat} {line : List Char}
    (hi : lines[i]? = some line) (hline : isPatternItem line = false ∨ haveKey (lines.take i) = true) :
    (clarifiedLines a lines)[i]? = (clarifiedLines b lines)[i]? := by
  induction lines generalizing a b i with
  | nil => cases hi
  | cons first rest ih =>
    rw [clarifiedLines, clarifiedLines]
    cases hread : KeyedLine.read? first with
    | some l =>
      have hindent : l.indent ≤ indent := hnext l (by simp [hread])
      have hsame : clarifiedBehind a first = clarifiedBehind b first := by
        simp only [clarifiedBehind, hread, clarifiedKey, h.timesMet_eq _ hindent,
          h.around_eq _ hindent]
      rw [hsame, (h.key hread hindent).clarifiedLines_eq]
    | none =>
      cases i with
      | zero =>
        obtain rfl : first = line := Option.some_inj.mp hi
        have hitem : isPatternItem first = false := by simpa [haveKey] using hline
        simp only [clarifiedBehind_of_not_item hread hitem, List.getElem?_cons_zero]
      | succ n =>
        rw [List.getElem?_cons_succ, List.getElem?_cons_succ]
        refine ih (h.skip hread) (fun l hl => hnext l ?_) hi ?_
        · rwa [List.findSome?_cons, hread]
        · simpa [haveKey, hread] using hline

/-! ## Documents -/

theorem length_clarifiedLines (before lines : List (List Char)) :
    (clarifiedLines before lines).length = lines.length := by
  rw [clarifiedLines_eq_mapIdx, List.length_mapIdx]

/-- The value of a key that begins with the mark of a block is left for YAML. -/
theorem clarifiedBehind_header {before : List (List Char)} {header : List Char} {l : KeyedLine}
    (hread : KeyedLine.read? header = some l)
    (hmark : ∃ c ∈ (l.value.dropWhile Text.isBlank).head?, c = '|' ∨ c = '>') :
    clarifiedBehind before header
      = l.indentation ++ repeatName l.key (timesMet l.indent l.key before) ++ l.rest := by
  obtain ⟨c, hc, hmark⟩ := hmark
  obtain ⟨rest, hvalue⟩ := List.head?_eq_some_iff.mp hc
  have hnone : pattern? l.value = none := by
    refine pattern?_of_mark hvalue ?_
    rcases hmark with rfl | rfl <;> decide
  rw [clarifiedBehind, hread]
  simp [clarifiedKey, quoted?_eq, hnone]

/-- In a document in which the value of an instrument is a block scalar, the key of the instrument is
renamed like any other and its value stays.  Of the lines of the block, those stay whose key, if they
have one, is new in the block, and that are no items with something to put in quotes, or stand below a
line with a key.  What comes behind the block is clarified as if the block was not there, but for items
that no key comes before. -/
theorem clarify_block_scalar {text header : List Char} {lead block behind : List (List Char)}
    {l : KeyedLine} (hlines : Text.lines text = lead ++ header :: (block ++ behind))
    (hread : KeyedLine.read? header = some l)
    (hsection : isSection (around l.indent lead.reverse) = true)
    (hmark : ∃ c ∈ (l.value.dropWhile Text.isBlank).head?, c = '|' ∨ c = '>')
    (hblock : ∀ line ∈ block, IsWithin l.indent line)
    (hnext : ∀ m ∈ behind.findSome? KeyedLine.read?, m.indent ≤ l.indent) :
    ∃ start within rest alone,
      clarify text = ['\n'].intercalate (start ++ (within ++ rest)) ++ Text.finalFeed text
        ∧ clarifyLines (lead ++ header :: behind) = start ++ alone
        ∧ start = clarifyLines lead
          ++ [l.indentation ++ repeatName l.key (timesMet l.indent l.key lead.reverse) ++ l.rest]
        ∧ within.length = block.length ∧ rest.length = behind.length
        ∧ (∀ i line, block[i]? = some line →
          (within[i]? = some line ↔ staysInBlock (block.take i).reverse line = true))
        ∧ ∀ i line, behind[i]? = some line →
          isPatternItem line = false ∨ haveKey (behind.take i) = true → rest[i]? = alone[i]? := by
  have hheader := @clarifiedBehind_header lead.reverse header l hread hmark
  have halike : AlikeUpTo l.indent (block.reverse ++ header :: lead.reverse)
      (header :: lead.reverse) :=
    alikeUpTo_append (fun line hline m hm => (hblock line (List.mem_reverse.mp hline)).lt_indent hm) _
  have hstart (lines : List (List Char)) : clarifyLines (lead ++ header :: lines)
      = (clarifyLines lead
          ++ [l.indentation ++ repeatName l.key (timesMet l.indent l.key lead.reverse) ++ l.rest])
        ++ clarifiedLines (header :: lead.reverse) lines := by
    rw [clarifyLines_eq_clarifiedLines, clarifiedLines_append, List.append_nil, clarifiedLines, hheader,
      ← clarifyLines_eq_clarifiedLines]
    simp
  refine ⟨_, clarifiedLines (header :: lead.reverse) block,
    clarifiedLines (block.reverse ++ header :: lead.reverse) behind,
    clarifiedLines (header :: lead.reverse) behind, ?_, hstart behind, rfl,
    length_clarifiedLines _ _, length_clarifiedLines _ _, fun i line hi => ?_, fun i line hi hline => ?_⟩
  · rw [← clarifiedLines_append, ← hstart, ← hlines, clarify, Text.finalFeed]
    split
    · rfl
    · exact (List.append_nil _).symm
  · have hinner : ∀ other ∈ (block.take i).reverse, IsWithin l.indent other := fun other hother =>
      hblock other (List.mem_of_mem_take (List.mem_reverse.mp hother))
    rw [← clarifiedBehind_eq_self_iff hread hsection hinner (hblock line (List.mem_of_getElem? hi)),
      clarifiedLines_eq_mapIdx, List.getElem?_mapIdx, hi, Option.map_some, Option.some_inj]
  · exact halike.getElem?_clarifiedLines hnext hi hline

/-- A block with notes, with two keys and with an item below them stays as it is, and the instrument is
met again behind it. -/
theorem clarify_block_scalar_of_piano :
    let lead := ["sections:".toList, "  a:".toList]
    let block := ["      C4 D4".toList, "      loud: yes".toList, "".toList, "        soft: no".toList,
      "      - E4".toList]
    let behind := ["# more".toList, "    piano: [G4 B4]".toList]
    let text := ['\n'].intercalate (lead ++ "    piano: |".toList :: (block ++ behind))
    ∃ l, KeyedLine.read? "    piano: |".toList = some l
      ∧ isSection (around l.indent lead.reverse) = true
      ∧ (∃ c ∈ (l.value.dropWhile Text.isBlank).head?, c = '|' ∨ c = '>')
      ∧ (∀ line ∈ block, IsWithin l.indent line)
      ∧ (∀ m ∈ behind.findSome? KeyedLine.read?, m.indent ≤ l.indent)
      ∧ clarify text = ['\n'].intercalate
        (lead ++ "    piano: |".toList :: (block ++ ["# more".toList, "    piano#1: '[G4 B4]'".toList])) := by
  intro lead block behind text
  let l : KeyedLine := ⟨"    ".toList, "piano".toList, ": |".toList⟩
  have hlines : Text.lines text = lead ++ "    piano: |".toList :: (block ++ behind) := by
    decide +kernel
  have hread : KeyedLine.read? "    piano: |".toList = some l := rfl
  have hsection : isSection (around l.indent lead.reverse) = true := by decide +kernel
  have hmark : ∃ c ∈ (l.value.dropWhile Text.isBlank).head?, c = '|' ∨ c = '>' :=
    ⟨'|', rfl, .inl rfl⟩
  have hblock : ∀ line ∈ block, IsWithin l.indent line := by decide +kernel
  have hnext : ∀ m ∈ behind.findSome? KeyedLine.read?, m.indent ≤ l.indent := by
    intro m hm
    cases hm
    decide
  obtain ⟨start, within, rest, alone, htext, halone, hstart, hlength, hcount, hkept, hsame⟩ :=
    clarify_block_scalar hlines hread hsection hmark hblock hnext
  have hwithin : within = block := by
    have hstays : ∀ i < 5, staysInBlock (block.take i).reverse (block[i]?.getD []) = true := by
      decide +kernel
    refine List.ext_getElem?' fun i hi => ?_
    rw [hlength, max_self] at hi
    have hline : block[i]? = some block[i] := List.getElem?_eq_getElem hi
    have hstay := hstays i hi
    rw [hline] at hstay
    exact ((hkept i _ hline).mpr hstay).trans hline.symm
  have hfirst : start = lead ++ ["    piano: |".toList] := by
    rw [hstart]
    decide +kernel
  have hbehind : alone = ["# more".toList, "    piano#1: '[G4 B4]'".toList] := by
    refine List.append_cancel_left (halone.symm.trans ?_)
    rw [hfirst]
    decide +kernel
  have hrest : rest = alone := by
    have hitems : ∀ i < 2, isPatternItem (behind[i]?.getD []) = false := by decide +kernel
    have halike : alone.length = behind.length := by rw [hbehind]; rfl
    refine List.ext_getElem?' fun i hi => ?_
    rw [hcount, halike, max_self] at hi
    have hline : behind[i]? = some behind[i] := List.getElem?_eq_getElem hi
    have hitem := hitems i hi
    rw [hline] at hitem
    exact hsame i _ hline (.inl hitem)
  have hfeed : Text.finalFeed text = [] := by decide +kernel
  refine ⟨l, hread, hsection, hmark, hblock, hnext, ?_⟩
  rw [htext, hwithin, hrest, hbehind, hfirst, hfeed]
  simp

/-- The first item of a block scalar is put in quotes, although it is text. -/
theorem item_in_block_scalar_is_quoted :
    let lead := ["sections:".toList, "  a:".toList]
    let block := ["      - C4".toList]
    let text := ['\n'].intercalate (lead ++ "    piano: |".toList :: block) ++ ['\n']
    ∃ l, KeyedLine.read? "    piano: |".toList = some l
      ∧ isSection (around l.indent lead.reverse) = true
      ∧ (∃ c ∈ (l.value.dropWhile Text.isBlank).head?, c = '|' ∨ c = '>')
      ∧ (∀ line ∈ block, IsWithin l.indent line)
      ∧ Text.lines (clarify text) = lead ++ ["    piano: |".toList, "      - 'C4'".toList] :=
  ⟨⟨"    ".toList, "piano".toList, ": |".toList⟩, rfl, by decide +kernel, ⟨'|', rfl, .inl rfl⟩,
    by decide +kernel, by decide +kernel⟩

end Stave.Song
