import Stave.Proofs.Yaml.Lines
import Stave.Proofs.Yaml.Values

/-!
# Mappings as lists

A mapping can be written as a list of keys, each with what it has, without comments between them.  Its
lines, its validity and its value are then said of the list.  A key that begins with a letter is text,
unless it is one of the words for null and the truth values.
-/

namespace Stave.Yaml

/-! ## Text that begins with a letter -/

section Letter

variable {c : Char} (hletter : c.isAlpha = true)

include hletter

theorem toNat_of_isAlpha : 65 ≤ c.toNat ∧ c.toNat ≤ 90 ∨ 97 ≤ c.toNat ∧ c.toNat ≤ 122 := by
  rcases Bool.or_eq_true_iff.mp hletter with hupper | hlower
  · obtain ⟨hlow, hhigh⟩ := of_decide_eq_true hupper
    exact .inl ⟨UInt32.le_iff_toNat_le.mp hlow, UInt32.le_iff_toNat_le.mp hhigh⟩
  · obtain ⟨hlow, hhigh⟩ := Bool.and_eq_true_iff.mp hlower
    exact .inr ⟨UInt32.le_iff_toNat_le.mp (of_decide_eq_true hlow),
      UInt32.le_iff_toNat_le.mp (of_decide_eq_true hhigh)⟩

theorem ne_of_isAlpha {mark : Char} (hmark : mark.isAlpha = false) : c ≠ mark := by
  rintro rfl
  rw [hletter] at hmark
  cases hmark

theorem isDigit_of_isAlpha : c.isDigit = false := by
  have hrange := toNat_of_isAlpha hletter
  rw [Bool.eq_false_iff]
  intro hdigit
  have hbounds := Text.toNat_of_isDigit hdigit
  omega

/-- No run of decimal digits begins with a letter. -/
theorem natural?_of_isAlpha (rest : List Char) : Number.natural? 10 (c :: rest) = none := by
  have hdigit : (Number.digit? c).bind
      (fun d => if d < 10 then some (10 * 0 + d) else none) = none := by
    rw [Number.digit?, if_neg (by simp [isDigit_of_isAlpha hletter])]
    split
    · rw [Option.bind_some, if_neg (by omega)]
    · split
      · rw [Option.bind_some, if_neg (by omega)]
      · rfl
  rw [Number.natural?, if_neg (by simp), List.foldlM_cons]
  show Option.bind _ _ = none
  rw [hdigit]
  rfl

theorem whole?_of_isAlpha (above below : Nat) (rest : List Char) :
    Number.whole? above below (c :: rest) = none := by
  have hminus := ne_of_isAlpha hletter (show '-'.isAlpha = false from rfl)
  have hplus := ne_of_isAlpha hletter (show '+'.isAlpha = false from rfl)
  have hzero := ne_of_isAlpha hletter (show '0'.isAlpha = false from rfl)
  rw [Number.whole?]
  · rw [Number.magnitude?, natural?_of_isAlpha hletter]
    simp [Number.bases, Number.behind?, hzero.symm]
  · simp [hminus]
  · simp [hplus]

theorem float?_of_isAlpha (rest : List Char) : Number.float? (c :: rest) = none := by
  have hpoint := ne_of_isAlpha hletter (show '.'.isAlpha = false from rfl)
  have hminus := ne_of_isAlpha hletter (show '-'.isAlpha = false from rfl)
  have hplus := ne_of_isAlpha hletter (show '+'.isAlpha = false from rfl)
  have hdigit := isDigit_of_isAlpha hletter
  have hread : Decimal.Scientific.read? (c :: rest) = none := by
    simp [Decimal.Scientific.read?, hdigit, hpoint]
  simp [Number.float?, Number.isInfinityWord, hpoint, hminus, hplus, hread]

/-- A key that begins with a letter is the text that it is written as. -/
theorem keyValue?_of_isAlpha {rest : List Char}
    (hnull : isNullText (String.ofList (c :: rest)) = false)
    (hbool : bool? (String.ofList (c :: rest)) = none) :
    keyValue? (c :: rest) = some (.text (String.ofList (c :: rest))) := by
  have hminus := ne_of_isAlpha hletter (show '-'.isAlpha = false from rfl)
  have hplus := ne_of_isAlpha hletter (show '+'.isAlpha = false from rfl)
  have hzero := ne_of_isAlpha hletter (show '0'.isAlpha = false from rfl)
  have hneedless : Number.hasNeedlessZero (c :: rest) = false := by
    simp [Number.hasNeedlessZero, Decimal.splitSign, hminus, hplus, hzero]
  have hword : Number.word? (c :: rest) = none := whole?_of_isAlpha hletter _ _ rest
  have hlong : Number.isOverlong (c :: rest) = false := by
    rw [Number.isOverlong, whole?_of_isAlpha hletter]
    simp
  rw [keyValue?, Value.ofPlain?, String.toList_ofList, hnull, hbool, hword, hlong, hneedless,
    float?_of_isAlpha hletter]
  rfl

end Letter

/-! ## Entries of a list -/

/-- The end of a line behind which the next one stands. -/
def Gap.bare : Gap := ⟨⟨0, none⟩, []⟩

theorem Gap.isValid_bare : bare.IsValid := by decide

section Entries

variable {α : Type} (key : α → List Char) (body : α → Body)

/-- The entries of a mapping, one behind the other. -/
def entriesOf (first : α) : List α → Entries
  | [] => .last (key first) .bare (body first)
  | next :: rest => .cons (key first) .bare (body first) (entriesOf next rest)

/-- The lines of a key and of what it has. -/
def entryLines (indent : Nat) (a : α) : List (List Char) :=
  keyLine indent (key a) .bare (body a) :: (body a).lines indent

theorem lines_entriesOf (indent : Nat) (first : α) (rest : List α) :
    (entriesOf key body first rest).lines indent
      = (first :: rest).flatMap (entryLines key body indent) := by
  induction rest generalizing first with
  | nil =>
    rw [entriesOf, Entries.lines]
    simp [entryLines, Gap.below, Gap.bare]
  | cons next rest ih =>
    rw [entriesOf, Entries.lines, ih, List.flatMap_cons]
    simp [entryLines, Gap.below, Gap.bare]

variable {key body}

theorem isValid_entriesOf {first : α} {rest : List α}
    (h : ∀ a ∈ first :: rest, IsKey (key a) ∧ (body a).IsValid) :
    (entriesOf key body first rest).IsValid := by
  induction rest generalizing first with
  | nil =>
    obtain ⟨hkey, hbody⟩ := h first List.mem_cons_self
    exact ⟨hkey, Gap.isValid_bare, hbody⟩
  | cons next rest ih =>
    obtain ⟨hkey, hbody⟩ := h first List.mem_cons_self
    exact ⟨hkey, Gap.isValid_bare, hbody, ih fun a ha => h a (List.mem_cons_of_mem _ ha)⟩

/-- An entry whose key is text. -/
def textEntry (key : α → List Char) (value : α → Value) (a : α) : Value × Value :=
  (.text (String.ofList (key a)), value a)

/-- A key that was not written before is not among the entries. -/
theorem hasKey_textEntry_eq_false {value : α → Value} {a : α} {done : List α}
    (h : key a ∉ done.map key) :
    Value.hasKey (.text (String.ofList (key a))) (done.map (textEntry key value)) = false := by
  rw [Value.hasKey, List.any_eq_false]
  intro entry hentry
  obtain ⟨other, hother, rfl⟩ := List.mem_map.mp hentry
  rw [textEntry, Value.same, beq_iff_eq]
  intro hsame
  rw [String.ofList_injective hsame] at h
  exact h (List.mem_map_of_mem hother)

theorem extended?_textEntry {depth : Nat} {value : α → Value} {a : α} {done : List α}
    (hkey : keyValue? (key a) = some (.text (String.ofList (key a))))
    (hvalue : (body a).value? depth = some (value a)) (hnew : key a ∉ done.map key) :
    extended? (done.map (textEntry key value)) (keyValue? (key a)) ((body a).value? depth)
      = some ((done ++ [a]).map (textEntry key value)) := by
  rw [extended?, hkey, hvalue, Option.bind_some, hasKey_textEntry_eq_false hnew, List.map_append]
  rfl

/-- The values of entries whose keys are text, each written once, behind others. -/
theorem values?_entriesOf_append {depth : Nat} {value : α → Value} {done : List α} {first : α}
    {rest : List α}
    (hkey : ∀ a ∈ first :: rest, keyValue? (key a) = some (.text (String.ofList (key a))))
    (hvalue : ∀ a ∈ first :: rest, (body a).value? depth = some (value a))
    (hdistinct : ((done ++ first :: rest).map key).Nodup) :
    (entriesOf key body first rest).values? depth (done.map (textEntry key value))
      = some ((done ++ first :: rest).map (textEntry key value)) := by
  induction rest generalizing first done with
  | nil =>
    have hnew := (List.nodup_append.mp (List.map_append ▸ hdistinct)).2.2
    rw [entriesOf, Entries.values?]
    exact extended?_textEntry (hkey first List.mem_cons_self) (hvalue first List.mem_cons_self)
      fun hmem => hnew _ hmem _ List.mem_cons_self rfl
  | cons next rest ih =>
    have hnew := (List.nodup_append.mp (List.map_append ▸ hdistinct)).2.2
    have hfirst := extended?_textEntry (hkey first List.mem_cons_self)
      (hvalue first List.mem_cons_self) fun hmem => hnew _ hmem _ List.mem_cons_self rfl
    have hsplit : done ++ first :: next :: rest = (done ++ [first]) ++ next :: rest := by simp
    rw [entriesOf, Entries.values?, hfirst, Option.bind_some,
      ih (fun a ha => hkey a (List.mem_cons_of_mem _ ha))
        (fun a ha => hvalue a (List.mem_cons_of_mem _ ha)) (hsplit ▸ hdistinct),
      hsplit]

/-- The values of entries whose keys are text, each written once. -/
theorem values?_entriesOf {depth : Nat} {value : α → Value} {first : α} {rest : List α}
    (hkey : ∀ a ∈ first :: rest, keyValue? (key a) = some (.text (String.ofList (key a))))
    (hvalue : ∀ a ∈ first :: rest, (body a).value? depth = some (value a))
    (hdistinct : ((first :: rest).map key).Nodup) :
    (entriesOf key body first rest).values? depth []
      = some ((first :: rest).map (textEntry key value)) :=
  @values?_entriesOf_append _ _ _ _ value [] _ _ hkey hvalue hdistinct

end Entries

end Stave.Yaml
