import Stave.Proofs.Song.Patterns
import Stave.Proofs.Text.Bytes
import Stave.Proofs.Text.Lines
import Stave.Proofs.Yaml.Lines

/-!
# Clarifying a document in block style

Clarifying the text of a document in block style, with bare keys and none of them twice in a mapping,
gives the text of the same document with the patterns of its sections in quotes.  Behind each line it
is said which mapping the next key may go on with, and what is around that mapping.
-/

namespace Stave.Song

open Yaml

/-! ## Bare keys -/

/-- A key that can be told from its line without quotes. -/
def IsBare (key : List Char) : Prop := ∀ c ∈ key, KeyedLine.inKey c = true

/-- The keys of entries. -/
def keysOf : Entries → List (List Char)
  | .last key _ _ => [key]
  | .cons key _ _ rest => key :: keysOf rest

mutual

/-- Whether the keys in a value are bare, and none is twice in its mapping. -/
def HasKeysOnce : Body → Prop
  | .scalar _ => True
  | .items _ _ _ => True
  | .mapping _ entries => AreKeysOnce entries

/-- Whether the keys of entries, and those in their values, are bare and none is twice in its
mapping. -/
def AreKeysOnce : Entries → Prop
  | .last key _ body => IsBare key ∧ HasKeysOnce body
  | .cons key _ body rest =>
    IsBare key ∧ HasKeysOnce body ∧ key ∉ keysOf rest ∧ AreKeysOnce rest

end

instance (key : List Char) : Decidable (IsBare key) :=
  decidable_of_iff (key.all KeyedLine.inKey = true) List.all_eq_true

mutual

def decideHasKeysOnce : (body : Body) → Decidable (HasKeysOnce body)
  | .scalar _ => .isTrue trivial
  | .items _ _ _ => .isTrue trivial
  | .mapping _ entries => decideAreKeysOnce entries

def decideAreKeysOnce : (entries : Entries) → Decidable (AreKeysOnce entries)
  | .last key _ body =>
    have := decideHasKeysOnce body
    inferInstanceAs (Decidable (IsBare key ∧ HasKeysOnce body))
  | .cons key _ body rest =>
    have := decideHasKeysOnce body
    have := decideAreKeysOnce rest
    inferInstanceAs (Decidable (IsBare key ∧ HasKeysOnce body ∧ key ∉ keysOf rest ∧ AreKeysOnce rest))

end

instance (entries : Entries) : Decidable (AreKeysOnce entries) := decideAreKeysOnce entries

/-! ## Reading lines -/

theorem width_replicate (n : Nat) : Text.width (List.replicate n ' ') = n := by
  have hspace : ' '.utf8Size = 1 := rfl
  rw [Text.width_eq_sum, List.map_replicate, List.sum_replicate_nat, hspace, Nat.mul_one]

theorem isBlank_of_startsKey {c : Char} (h : KeyedLine.startsKey c = true) :
    Text.isBlank c = false := by
  rw [KeyedLine.startsKey, Bool.or_eq_true] at h
  rcases h with h | h
  · have hrange : (65 ≤ c.toNat ∧ c.toNat ≤ 90 ∨ 97 ≤ c.toNat ∧ c.toNat ≤ 122)
        ∨ 48 ≤ c.toNat ∧ c.toNat ≤ 57 :=
      (Bool.or_eq_true_iff.mp h).imp toNat_of_isAlpha Text.toNat_of_isDigit
    rw [Text.isBlank]
    simp only [Bool.or_eq_false_iff, Bool.and_eq_false_imp, decide_eq_true_eq, decide_eq_false_iff_not,
      beq_eq_false_iff_ne]
    omega
  · obtain rfl : c = '_' := by simpa using h
    rfl

/-- The content of a line that begins with spaces. -/
theorem dropWhile_replicate (n : Nat) {content : List Char}
    (h : ∀ c ∈ content.head?, Text.isBlank c = false) :
    (List.replicate n ' ' ++ content).dropWhile Text.isBlank = content
      ∧ (List.replicate n ' ' ++ content).takeWhile Text.isBlank = List.replicate n ' ' := by
  have hspaces : ∀ d ∈ List.replicate n ' ', Text.isBlank d = true := fun d hd => by
    rw [(List.mem_replicate.mp hd).2]
    rfl
  rw [List.dropWhile_append_of_pos hspaces, List.takeWhile_append_of_pos hspaces]
  cases content with
  | nil => simp
  | cons c rest =>
    have hc : Text.isBlank c = false := h c rfl
    simp [hc]

/-- The line of a bare key is read as it was written. -/
theorem read?_keyLine {key : List Char} (hkey : IsKey key) (hbare : IsBare key) (n : Nat)
    {value : List Char} (hvalue : value.head?.all Text.isBlank = true) :
    KeyedLine.read? (List.replicate n ' ' ++ (key ++ ':' :: value))
      = some ⟨List.replicate n ' ', key, ':' :: value⟩ := by
  obtain ⟨c, more, rfl⟩ := List.exists_cons_of_ne_nil hkey.ne_nil
  have hstarts : KeyedLine.startsKey c = true := by
    rcases hkey.first c rfl with halnum | hunderscore
    · simp [KeyedLine.startsKey, halnum]
    · simp [KeyedLine.startsKey, hunderscore]
  have hfirst : ∀ d ∈ ((c :: more) ++ ':' :: value).head?, Text.isBlank d = false := fun d hd => by
    obtain rfl : c = d := by simpa using hd
    exact isBlank_of_startsKey hstarts
  obtain ⟨hdrop, htake⟩ := dropWhile_replicate n hfirst
  have hword : ((c :: more) ++ ':' :: value).takeWhile KeyedLine.inKey = c :: more := by
    rw [List.takeWhile_append_of_pos hbare, List.takeWhile_cons_of_neg (by decide), List.append_nil]
  have hlast : ((c :: more).reverse.dropWhile (· == ' ')).reverse = c :: more := by
    cases hreverse : (c :: more).reverse with
    | nil => simp at hreverse
    | cons d rest =>
      have hd : d ≠ ' ' := by
        rintro rfl
        have hlast := hkey.last ' ' (by rw [← List.head?_reverse, hreverse]; rfl)
        cases hlast
      rw [List.dropWhile_cons_of_neg (by simpa using hd), ← hreverse, List.reverse_reverse]
  rw [KeyedLine.read?, htake, hdrop]
  simp only [hword, hlast]
  rw [List.drop_left]
  simp [hstarts, hvalue, show Text.isBlank ':' = false from rfl]

/-- A line is read as one with a key only if its content begins neither a comment nor an item. -/
theorem read?_eq_none {line : List Char}
    (h : ∀ c ∈ (line.dropWhile Text.isBlank).head?, c = '#' ∨ c = '-') :
    KeyedLine.read? line = none := by
  cases hread : KeyedLine.read? line with
  | none => rfl
  | some l =>
    obtain ⟨c, rest, hcontent, hcomment, hitem⟩ := KeyedLine.exists_cons_of_read? hread
    rcases h c (by rw [hcontent]; rfl) with hc | hc
    · exact absurd hc hcomment
    · exact absurd hc hitem

theorem dropWhile_remark (r : Remark) :
    ∀ c ∈ (r.text.dropWhile Text.isBlank).head?, c = '#' := by
  rw [Remark.text, (dropWhile_replicate r.blanks ?_).1]
  · intro c hc
    cases hbody : r.comment with
    | none => simp [hbody] at hc
    | some body => simpa [hbody, eq_comm] using hc
  · intro c hc
    cases hbody : r.comment with
    | none => simp [hbody] at hc
    | some body =>
      obtain rfl : '#' = c := by simpa [hbody] using hc
      rfl

theorem read?_remark (r : Remark) : KeyedLine.read? r.text = none :=
  read?_eq_none fun c hc => .inl (dropWhile_remark r c hc)

theorem dropWhile_item (n : Nat) (i : Item) :
    (i.line n).dropWhile Text.isBlank = '-' :: ' ' :: (i.value.written ++ i.gap.ending.text)
      ∧ (i.line n).takeWhile Text.isBlank = List.replicate n ' ' :=
  dropWhile_replicate n fun c hc => by
    obtain rfl : '-' = c := by simpa using hc
    rfl

theorem read?_item (n : Nat) (i : Item) : KeyedLine.read? (i.line n) = none :=
  read?_eq_none fun c hc => .inr (by
    rw [(dropWhile_item n i).1] at hc
    simpa [eq_comm] using hc)

/-! ## Where a line stands -/

/-- The next line that is indented so may go on with a mapping that has the keys seen, each as often as
it was seen, and the keys around that mapping are those of the path. -/
structure Stands (indent : Nat) (path seen before : List (List Char)) : Prop where
  timesMet_eq : ∀ key, timesMet indent key before = seen.count key
  around_eq : around indent before = path

theorem stands_nil (indent : Nat) : Stands indent [] [] [] := ⟨fun _ => rfl, rfl⟩

/-- A key that was not seen is new. -/
theorem Stands.timesMet_eq_zero {indent : Nat} {path seen before : List (List Char)}
    (h : Stands indent path seen before) {key : List Char} (hnew : key ∉ seen) :
    timesMet indent key before = 0 := by
  rw [h.timesMet_eq, List.count_eq_zero_of_not_mem hnew]

/-- Lines without a key, or with one that is indented more, change nothing. -/
theorem Stands.skips {indent : Nat} {path seen before : List (List Char)}
    (h : Stands indent path seen before) {between : List (List Char)}
    (hbetween : ∀ line ∈ between, ∀ l ∈ KeyedLine.read? line, indent < l.indent) :
    Stands indent path seen (between ++ before) := by
  have halike := alikeUpTo_append hbetween before
  constructor
  · intro key
    rw [halike.timesMet_eq indent (Nat.le_refl _), h.timesMet_eq]
  · rw [halike.around_eq indent (Nat.le_refl _), h.around_eq]

/-- A key of the mapping has been seen. -/
theorem Stands.key {indent : Nat} {path seen before : List (List Char)}
    (h : Stands indent path seen before) {line : List Char} {l : KeyedLine}
    (hread : KeyedLine.read? line = some l) (hindent : l.indent = indent) :
    Stands indent path (l.key :: seen) (line :: before) := by
  constructor
  · intro key
    simp only [timesMet, hread, hindent, Nat.lt_irrefl, if_false, true_and]
    rw [h.timesMet_eq, List.count_cons, Nat.add_comm]
    simp only [beq_iff_eq]
  · simp only [around, hread]
    rw [if_neg (by omega)]
    exact h.around_eq

/-- A mapping begins below a key. -/
theorem stands_within {indent : Nat} {line : List Char} {l : KeyedLine}
    (hread : KeyedLine.read? line = some l) (hindent : l.indent < indent)
    (before : List (List Char)) :
    Stands indent (l.key :: around l.indent before) [] (line :: before) := by
  constructor
  · intro key
    simp only [timesMet, hread]
    rw [if_pos hindent, List.count_nil]
  · simp only [around, hread]
    rw [if_pos hindent]

/-- Lines without a key are looked over. -/
theorem inPatterns_of_forall {indent : Nat} {between before : List (List Char)}
    (h : ∀ other ∈ between, KeyedLine.read? other = none) :
    inPatterns indent (between ++ before) = inPatterns indent before := by
  induction between with
  | nil => rfl
  | cons other rest ih =>
    simp only [List.cons_append, inPatterns, h other List.mem_cons_self]
    exact ih fun x hx => h x (List.mem_cons_of_mem _ hx)

/-- An item belongs to the key right before it. -/
theorem inPatterns_key {indent : Nat} {before : List (List Char)} {line : List Char} {l : KeyedLine}
    (hread : KeyedLine.read? line = some l) (hindent : l.indent ≤ indent) :
    inPatterns indent (line :: before) = isSection (around l.indent before) := by
  simp [inPatterns, hread, hindent]

/-! ## Clarifying line by line -/

theorem clarifiedLines_append (before a b : List (List Char)) :
    clarifiedLines before (a ++ b)
      = clarifiedLines before a ++ clarifiedLines (a.reverse ++ before) b := by
  induction a generalizing before with
  | nil => rfl
  | cons line rest ih =>
    rw [List.cons_append, clarifiedLines, clarifiedLines, ih]
    simp

/-- Empty lines and comments are left alone. -/
theorem clarifiedLines_remarks (before : List (List Char)) (remarks : List Remark) :
    clarifiedLines before (remarks.map Remark.text) = remarks.map Remark.text := by
  induction remarks generalizing before with
  | nil => rfl
  | cons r rest ih =>
    have hline : clarifiedBehind before r.text = r.text := by
      have hmark := dropWhile_remark r
      simp only [clarifiedBehind, read?_remark]
      split
      · next line hitem =>
        have hwrong := hmark '-' (by rw [hitem]; rfl)
        cases hwrong
      · rfl
    rw [List.map_cons, clarifiedLines, hline, ih]

theorem head?_ending {gap : Gap} (h : gap.IsValid) :
    gap.ending.text.head?.all Text.isBlank = true := by
  rw [Remark.text]
  cases hblanks : gap.ending.blanks with
  | zero =>
    have hnone : gap.ending.comment = none := by
      by_contra hsome
      exact h.apart hsome hblanks
    rw [hnone]
    rfl
  | succ n => rfl

/-- What stands behind a colon or a dash, clarified. -/
def clarifiedValue (inSection : Bool) (value : List Char) : List Char :=
  match if inSection then pattern? value else none with
  | some pattern => ' ' :: quote pattern
  | none => value

theorem clarifiedValue_scalar (inSection : Bool) (v : Inline) (gap : Gap) :
    clarifiedValue inSection (' ' :: (v.written ++ gap.ending.text))
      = ' ' :: ((requoted inSection v gap).1.written ++ (requoted inSection v gap).2.ending.text) := by
  rw [clarifiedValue, requoted]
  cases if inSection then pattern? (' ' :: (v.written ++ gap.ending.text)) else none with
  | none => rfl
  | some pattern => simp [quote_eq_written, Remark.text]

theorem clarifiedValue_remark (inSection : Bool) (r : Remark) :
    clarifiedValue inSection r.text = r.text := by
  rw [clarifiedValue, pattern?_remark]
  cases inSection <;> rfl

theorem clarifiedValue_body (path : List (List Char)) (key : List Char) (gap : Gap) :
    ∀ body : Body, clarifiedValue (isSection path) (body.inline ++ gap.ending.text)
      = (clarifiedBody path key gap body).inline
        ++ (clarifiedGap (isSection path) gap body).ending.text := by
  intro body
  cases body with
  | scalar value =>
    cases value with
    | none => exact clarifiedValue_remark _ _
    | some v => exact clarifiedValue_scalar _ v gap
  | items width first rest => exact clarifiedValue_remark _ _
  | mapping width entries => exact clarifiedValue_remark _ _

/-- A line with a key: the key is renamed if it was met before, and a pattern is put in quotes. -/
theorem clarifiedKey_eq (n : Nat) (key value : List Char) (before : List (List Char)) :
    clarifiedKey before ⟨List.replicate n ' ', key, ':' :: value⟩
      = List.replicate n ' ' ++ (repeatName key (timesMet n key before)
        ++ ':' :: clarifiedValue (isSection (around n before)) value) := by
  have hindent : (⟨List.replicate n ' ', key, ':' :: value⟩ : KeyedLine).indent = n := width_replicate n
  have hvalue : (⟨List.replicate n ' ', key, ':' :: value⟩ : KeyedLine).value = value := by
    simp [KeyedLine.value]
  simp only [clarifiedKey, hindent, hvalue, quoted?_eq, clarifiedValue]
  cases isSection (around n before) with
  | false => simp
  | true => cases pattern? value <;> simp

/-- The line of a key is read as one with this key. -/
theorem keyLine_read? {key : List Char} (hkey : IsKey key) (hbare : IsBare key) {gap : Gap}
    (hgap : gap.IsValid) (body : Body) (n : Nat) :
    KeyedLine.read? (keyLine n key gap body)
      = some ⟨List.replicate n ' ', key, ':' :: (body.inline ++ gap.ending.text)⟩ := by
  refine read?_keyLine hkey hbare n ?_
  rcases body.inline_cases with ⟨v, rfl⟩ | hnone
  · rfl
  · rw [hnone]
    exact head?_ending hgap

/-- The line of a key, clarified. -/
theorem clarifiedBehind_keyLine {n : Nat} {path before : List (List Char)} {key : List Char}
    (hkey : IsKey key) (hbare : IsBare key) {gap : Gap} (hgap : gap.IsValid) (body : Body)
    (hnew : timesMet n key before = 0) (haround : around n before = path) :
    clarifiedBehind before (keyLine n key gap body)
      = keyLine n key (clarifiedGap (isSection path) gap body) (clarifiedBody path key gap body) := by
  have hname : repeatName key 0 = key := rfl
  simp only [clarifiedBehind, keyLine_read? hkey hbare hgap body n, clarifiedKey_eq, hnew, hname]
  rw [haround, clarifiedValue_body path key, keyLine]

theorem clarifiedBehind_item {n : Nat} {inSection : Bool} {before : List (List Char)}
    (hbefore : inPatterns n before = inSection) (i : Item) :
    clarifiedBehind before (i.line n) = (clarifiedItemOf inSection i).line n := by
  obtain ⟨hcontent, hspaces⟩ := dropWhile_item n i
  have hvalue := clarifiedValue_scalar inSection i.value i.gap
  simp only [clarifiedBehind, read?_item, hcontent, hspaces, clarifiedItem, width_replicate, hbefore]
  show _ = List.replicate n ' ' ++ '-' :: ' ' :: _
  rw [clarifiedItemOf, ← hvalue, clarifiedValue, quoted?_eq]
  cases inSection with
  | false => rfl
  | true => cases pattern? (' ' :: (i.value.written ++ i.gap.ending.text)) <;> rfl

theorem below_requoted (inSection : Bool) (v : Inline) (gap : Gap) :
    (requoted inSection v gap).2.below = gap.below := by
  rw [requoted]
  split <;> rfl

theorem below_clarifiedGap (inSection : Bool) (gap : Gap) :
    ∀ body : Body, (clarifiedGap inSection gap body).below = gap.below := by
  intro body
  cases body with
  | scalar value =>
    cases value with
    | none => rfl
    | some v => exact below_requoted inSection v gap
  | items width first rest => rfl
  | mapping width entries => rfl

/-- The lines of items, clarified. -/
theorem clarifiedLines_items {n : Nat} {inSection : Bool} {before : List (List Char)}
    (hbefore : inPatterns n before = inSection) (items : List Item) :
    clarifiedLines before (items.flatMap (Item.lines n))
      = (items.map (clarifiedItemOf inSection)).flatMap (Item.lines n) := by
  induction items generalizing before with
  | nil => rfl
  | cons i items ih =>
    have hbelow : (clarifiedItemOf inSection i).gap.below = i.gap.below :=
      below_requoted inSection i.value i.gap
    have hnext : inPatterns n (i.gap.below.reverse ++ i.line n :: before) = inSection := by
      rw [← List.singleton_append, ← List.append_assoc, inPatterns_of_forall, hbefore]
      intro other hother
      rcases List.mem_append.mp hother with hother | hother
      · obtain ⟨r, -, rfl⟩ := List.mem_map.mp (List.mem_reverse.mp hother)
        exact read?_remark r
      · rw [List.mem_singleton.mp hother]
        exact read?_item n i
    rw [List.flatMap_cons, List.map_cons, List.flatMap_cons, clarifiedLines_append, Item.lines,
      clarifiedLines, clarifiedBehind_item hbefore, Item.lines, hbelow, Gap.below,
      clarifiedLines_remarks, ← Gap.below, List.reverse_cons, List.append_assoc, List.singleton_append,
      ih hnext]

/-! ## The lines below a key are indented more -/

theorem le_indent {n : Nat} {content : List Char} {l : KeyedLine}
    (h : KeyedLine.read? (List.replicate n ' ' ++ content) = some l) : n ≤ l.indent := by
  have hspaces : ∀ d ∈ List.replicate n ' ', Text.isBlank d = true := fun d hd => by
    rw [(List.mem_replicate.mp hd).2]
    rfl
  rw [KeyedLine.indent, (KeyedLine.read?_eq_some h).1, List.takeWhile_append_of_pos hspaces,
    Text.width_append, width_replicate n]
  exact Nat.le_add_right _ _

theorem read?_below (gap : Gap) : ∀ line ∈ gap.below, KeyedLine.read? line = none := by
  intro line hline
  obtain ⟨r, -, rfl⟩ := List.mem_map.mp hline
  exact read?_remark r

mutual

theorem lt_indent_body (n : Nat) : ∀ (body : Body), ∀ line ∈ body.lines n,
    ∀ l ∈ KeyedLine.read? line, n < l.indent
  | .scalar _ => by simp [Body.lines]
  | .items step first rest => by
    intro line hline l hl
    obtain ⟨i, -, hline⟩ := List.mem_flatMap.mp hline
    rcases List.mem_cons.mp hline with rfl | hline
    · rw [read?_item] at hl
      cases hl
    · rw [read?_below i.gap line hline] at hl
      cases hl
  | .mapping step entries => by
    intro line hline l hl
    have hle := le_indent_entries (n + step + 1) entries line hline l hl
    omega

theorem le_indent_entries (n : Nat) : ∀ (entries : Entries), ∀ line ∈ entries.lines n,
    ∀ l ∈ KeyedLine.read? line, n ≤ l.indent
  | .last key gap body => by
    intro line hline l hl
    rw [Entries.lines, List.mem_cons, List.mem_append] at hline
    rcases hline with rfl | hline | hline
    · exact le_indent hl
    · rw [read?_below gap line hline] at hl
      cases hl
    · exact (lt_indent_body n body line hline l hl).le
  | .cons key gap body rest => by
    intro line hline l hl
    rw [Entries.lines, List.mem_cons, List.mem_append, List.mem_append] at hline
    rcases hline with rfl | hline | hline | hline
    · exact le_indent hl
    · rw [read?_below gap line hline] at hl
      cases hl
    · exact (lt_indent_body n body line hline l hl).le
    · exact le_indent_entries n rest line hline l hl

end

/-! ## The whole document -/

mutual

theorem clarifiedLines_body {n : Nat} {path before between : List (List Char)} {line : List Char}
    {l : KeyedLine} (hread : KeyedLine.read? line = some l) (hindent : l.indent = n)
    (haround : around n before = path) (hbetween : ∀ other ∈ between, KeyedLine.read? other = none)
    (gap : Gap) :
    ∀ {body : Body}, body.IsValid → HasKeysOnce body →
      clarifiedLines (between ++ line :: before) (body.lines n)
        = (clarifiedBody path l.key gap body).lines n
  | .scalar none, _, _ => rfl
  | .scalar (some v), _, _ => rfl
  | .items step first rest, hvalid, _ => by
    have hbefore : inPatterns (n + step) (between ++ line :: before) = isSection path := by
      rw [inPatterns_of_forall hbetween, inPatterns_key hread (by omega), hindent, haround]
    exact clarifiedLines_items hbefore (first :: rest)
  | .mapping step entries, hvalid, honce => by
    have hstands : Stands (n + step + 1) (l.key :: path) [] (line :: before) := by
      have hwithin := stands_within hread (show l.indent < n + step + 1 by omega) before
      rwa [hindent, haround] at hwithin
    have hskipped := hstands.skips fun other hother m hm => by
      rw [hbetween other hother] at hm
      cases hm
    exact clarifiedLines_entries hskipped hvalid honce fun key _ => List.not_mem_nil

theorem clarifiedLines_entries {n : Nat} {path : List (List Char)} :
    ∀ {seen before : List (List Char)}, Stands n path seen before →
      ∀ {entries : Entries}, entries.IsValid → AreKeysOnce entries →
        (∀ key ∈ keysOf entries, key ∉ seen) →
        clarifiedLines before (entries.lines n) = (clarifiedEntries path entries).lines n
  | seen, before, h, .last key gap body, ⟨hkey, hgap, hbody⟩, ⟨hbare, honce⟩, hnew => by
    have hread := keyLine_read? hkey hbare hgap body n
    have hline := clarifiedBehind_keyLine hkey hbare hgap body
      (h.timesMet_eq_zero (hnew key List.mem_cons_self)) h.around_eq
    have hbelow := clarifiedLines_body hread (width_replicate n) h.around_eq
      (fun other hother => read?_below gap other (List.mem_reverse.mp hother)) gap hbody honce
    rw [Entries.lines, clarifiedLines, hline, clarifiedLines_append, Gap.below, clarifiedLines_remarks,
      ← Gap.below, hbelow, clarifiedEntries, Entries.lines, below_clarifiedGap]
  | seen, before, h, .cons key gap body rest, ⟨hkey, hgap, hbody, hrest⟩, ⟨hbare, honce, hother, hmore⟩,
      hnew => by
    have hread := keyLine_read? hkey hbare hgap body n
    have hline := clarifiedBehind_keyLine hkey hbare hgap body
      (h.timesMet_eq_zero (hnew key List.mem_cons_self)) h.around_eq
    have hbelow := clarifiedLines_body hread (width_replicate n) h.around_eq
      (fun other hother => read?_below gap other (List.mem_reverse.mp hother)) gap hbody honce
    -- the next key of the mapping
    have hstands : Stands n path (key :: seen) ((body.lines n).reverse
        ++ (gap.below.reverse ++ keyLine n key gap body :: before)) := by
      refine ((h.key hread (width_replicate n)).skips fun other hother l hl => ?_).skips
        fun other hother => lt_indent_body n body other (List.mem_reverse.mp hother)
      rw [read?_below gap other (List.mem_reverse.mp hother)] at hl
      cases hl
    have hnext : ∀ next ∈ keysOf rest, next ∉ key :: seen := by
      intro next hmem hseen
      rcases List.mem_cons.mp hseen with rfl | hseen
      · exact hother hmem
      · exact hnew next (List.mem_cons_of_mem _ hmem) hseen
    have hlast := clarifiedLines_entries hstands hrest hmore hnext
    rw [Entries.lines, clarifiedLines, hline, clarifiedLines_append, Gap.below, clarifiedLines_remarks,
      ← Gap.below, clarifiedLines_append, hbelow, hlast, clarifiedEntries, Entries.lines,
      below_clarifiedGap]

end

/-! ## The text -/

/-- The lines of a document, clarified. -/
theorem clarifyLines_lines {d : BlockDocument} (hvalid : d.IsValid) (honce : AreKeysOnce d.root) :
    clarifyLines d.lines = (clarifiedDocument d).lines := by
  have hlead : Stands 0 [] [] ((d.lead.map Remark.text).reverse ++ []) := by
    refine (stands_nil 0).skips fun line hline l hl => ?_
    obtain ⟨r, -, rfl⟩ := List.mem_map.mp (List.mem_reverse.mp hline)
    rw [read?_remark r] at hl
    cases hl
  have hroot := clarifiedLines_entries hlead hvalid.root honce fun key _ => List.not_mem_nil
  rw [clarifyLines_eq_clarifiedLines, BlockDocument.lines, clarifiedLines_append,
    clarifiedLines_remarks, hroot, BlockDocument.lines, clarifiedDocument]

theorem map_dropReturn {lines : List (List Char)} (h : ∀ line ∈ lines, ∀ c ∈ line, isBreak c = false) :
    lines.map Text.dropReturn = lines := by
  have hkept : ∀ line ∈ lines, Text.dropReturn line = line := fun line hline =>
    Text.dropReturn_of_notMem fun hmem => by cases h line hline _ hmem
  rw [List.map_congr_left hkept, List.map_id']

theorem lines_unlines {lines : List (List Char)} (h : ∀ line ∈ lines, ∀ c ∈ line, isBreak c = false) :
    Text.lines (unlines lines) = lines := by
  have hshort : ∀ line ∈ lines, '\n' ∉ line := fun line hline hmem => by cases h line hline _ hmem
  have hlines := lines_unlines_append hshort []
  rwa [List.append_nil, Text.lines_nil, List.append_nil, map_dropReturn h] at hlines

theorem intercalate_feed {lines : List (List Char)} (h : lines ≠ []) :
    ['\n'].intercalate lines ++ ['\n'] = unlines lines := by
  rcases List.eq_nil_or_concat lines with rfl | ⟨first, last, rfl⟩
  · exact absurd rfl h
  · rw [List.concat_eq_append, intercalate_concat, unlines_append, List.append_assoc]
    simp [unlines]

/-- Lines that are ended by line feeds are clarified one by one, each without its carriage return. -/
theorem clarify_ended {lines : List (List Char)} (h : ∀ line ∈ lines, '\n' ∉ line) :
    clarify (unlines lines) = unlines (clarifyLines (lines.map Text.dropReturn)) := by
  by_cases hnil : lines = []
  · rw [hnil, clarify, show unlines [] = [] from rfl, Text.lines_nil]
    rfl
  · have hlines := lines_unlines_append h []
    have hfeed := (getLast?_unlines_append List.not_mem_nil lines).mpr ⟨hnil, rfl⟩
    rw [List.append_nil, Text.lines_nil, List.append_nil] at hlines
    rw [List.append_nil] at hfeed
    have hsome : clarifyLines (lines.map Text.dropReturn) ≠ [] := by
      rw [clarifyLines_eq]
      simpa using hnil
    rw [clarify, hlines, hfeed]
    exact intercalate_feed hsome

/-- A last line that is not ended stays so. -/
theorem clarify_open {lines : List (List Char)} (h : ∀ line ∈ lines, '\n' ∉ line) {last : List Char}
    (hlast : '\n' ∉ last) (hne : last ≠ []) :
    clarify (unlines lines ++ last) = unlines (clarifyLines (lines.map Text.dropReturn))
      ++ clarifiedBehind (lines.map Text.dropReturn).reverse last := by
  have hlines := lines_unlines_append h last
  have hfeed : (unlines lines ++ last).getLast? ≠ some '\n' := fun hend =>
    hne ((getLast?_unlines_append hlast lines).mp hend).2
  rw [Text.lines_of_notMem hne hlast] at hlines
  rw [clarify, hlines, clarifyLines_eq_clarifiedLines, clarifiedLines_append, List.append_nil,
    ← clarifyLines_eq_clarifiedLines, clarifiedLines, clarifiedLines, intercalate_concat]
  exact if_neg (by simpa using hfeed)

/-- A text of whole lines is clarified line by line. -/
theorem clarify_unlines {lines : List (List Char)} (h : ∀ line ∈ lines, ∀ c ∈ line, isBreak c = false) :
    clarify (unlines lines) = unlines (clarifyLines lines) := by
  have hshort : ∀ line ∈ lines, '\n' ∉ line := fun line hline hmem => by cases h line hline _ hmem
  rw [clarify_ended hshort, map_dropReturn h]

/-- The text of a document, clarified. -/
theorem clarify_text {d : BlockDocument} (hvalid : d.IsValid) (honce : AreKeysOnce d.root) :
    clarify d.text = (clarifiedDocument d).text := by
  rw [← d.unlines_lines, clarify_unlines hvalid.isBreak_lines, clarifyLines_lines hvalid honce,
    (clarifiedDocument d).unlines_lines]

end Stave.Song
