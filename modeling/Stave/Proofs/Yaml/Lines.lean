import Stave.Proofs.Text.Lines
import Stave.Proofs.Yaml.Scanning

/-!
# The lines of a document in block style

The text of a document in block style line by line: a line for each key, a line for each item, and the
lines without content between them.
-/

namespace Stave.Yaml

/-- The text of lines, each with a line feed behind it. -/
def unlines (lines : List (List Char)) : List Char := lines.flatMap fun line => line ++ ['\n']

theorem unlines_cons (line : List Char) (rest : List (List Char)) :
    unlines (line :: rest) = line ++ '\n' :: unlines rest := by
  simp [unlines]

theorem unlines_append (a b : List (List Char)) : unlines (a ++ b) = unlines a ++ unlines b :=
  List.flatMap_append

/-- Lines that are ended by line feeds, and the lines of what stands behind them. -/
theorem lines_unlines_append {lines : List (List Char)} (h : ∀ line ∈ lines, '\n' ∉ line)
    (behind : List Char) :
    Text.lines (unlines lines ++ behind) = lines.map Text.dropReturn ++ Text.lines behind := by
  induction lines with
  | nil => rfl
  | cons line rest ih =>
    obtain ⟨hline, hrest⟩ := List.forall_mem_cons.mp h
    rw [unlines_cons, List.append_assoc, List.cons_append, Text.lines_append_cons hline, ih hrest,
      List.map_cons, List.cons_append]

/-- A text is lines that are ended by line feeds, and what stands behind the last of these. -/
theorem exists_unlines (text : List Char) :
    ∃ lines last, text = unlines lines ++ last ∧ (∀ line ∈ lines, '\n' ∉ line) ∧ '\n' ∉ last := by
  induction hlength : text.length using Nat.strong_induction_on generalizing text with
  | _ length ih =>
    by_cases hmem : '\n' ∈ text
    · obtain ⟨line, behind, rfl, hline⟩ := List.eq_append_cons_of_mem hmem
      have hshorter : behind.length < length := by
        rw [← hlength, List.length_append, List.length_cons]
        omega
      obtain ⟨lines, last, rfl, hlines, hlast⟩ := ih _ hshorter behind rfl
      refine ⟨line :: lines, last, ?_, List.forall_mem_cons.mpr ⟨hline, hlines⟩, hlast⟩
      rw [unlines_cons, List.append_assoc, List.cons_append]
    · exact ⟨[], text, rfl, by simp, hmem⟩

/-- Lines with line feeds between them are lines that are ended by line feeds, but for the last. -/
theorem intercalate_concat (lines : List (List Char)) (last : List Char) :
    ['\n'].intercalate (lines ++ [last]) = unlines lines ++ last := by
  induction lines with
  | nil => simp [unlines]
  | cons line rest ih =>
    rw [List.cons_append, List.intercalate_cons_of_ne_nil (by simp), ih, unlines_cons]
    simp

theorem getLast?_unlines_append {last : List Char} (h : '\n' ∉ last) (lines : List (List Char)) :
    (unlines lines ++ last).getLast? = some '\n' ↔ lines ≠ [] ∧ last = [] := by
  rcases List.eq_nil_or_concat last with rfl | ⟨front, c, rfl⟩
  · rcases List.eq_nil_or_concat lines with rfl | ⟨first, line, rfl⟩
    · simp [unlines]
    · rw [List.concat_eq_append, unlines_append]
      simp [unlines]
  · rw [List.concat_eq_append] at h ⊢
    have hlast : c ≠ '\n' := by
      rintro rfl
      exact h (by simp)
    rw [← List.append_assoc, List.getLast?_concat]
    simp [hlast]

/-! ## The lines -/

/-- The lines without content that a gap holds. -/
def Gap.below (g : Gap) : List (List Char) := g.lines.map Remark.text

/-- The line of a key. -/
def keyLine (indent : Nat) (key : List Char) (gap : Gap) (body : Body) : List Char :=
  List.replicate indent ' ' ++ (key ++ ':' :: (body.inline ++ gap.ending.text))

/-- The line of an item. -/
def Item.line (indent : Nat) (i : Item) : List Char :=
  List.replicate indent ' ' ++ '-' :: ' ' :: (i.value.written ++ i.gap.ending.text)

/-- The lines of an item. -/
def Item.lines (indent : Nat) (i : Item) : List (List Char) := i.line indent :: i.gap.below

mutual

/-- The lines below a key that is indented by `indent`. -/
def Body.lines (indent : Nat) : Body → List (List Char)
  | .scalar _ => []
  | .items step first rest => (first :: rest).flatMap (Item.lines (indent + step))
  | .mapping step entries => entries.lines (indent + step + 1)

/-- The lines of entries. -/
def Entries.lines (indent : Nat) : Entries → List (List Char)
  | .last key gap body => keyLine indent key gap body :: (gap.below ++ body.lines indent)
  | .cons key gap body rest =>
    keyLine indent key gap body :: (gap.below ++ (body.lines indent ++ rest.lines indent))

end

/-- The lines of a document. -/
def BlockDocument.lines (d : BlockDocument) : List (List Char) :=
  d.lead.map Remark.text ++ d.root.lines 0

/-! ## The text line by line -/

theorem unlines_map_text (remarks : List Remark) :
    unlines (remarks.map Remark.text) = remarkLines remarks := by
  rw [unlines, List.flatMap_map, remarkLines]

theorem Gap.text_eq (g : Gap) : g.text = g.ending.text ++ '\n' :: unlines g.below := by
  rw [text, below, unlines_map_text]
  simp [remarkLines]

theorem unlines_keyLine (indent : Nat) (key : List Char) (gap : Gap) (body : Body)
    (rest : List (List Char)) :
    unlines (keyLine indent key gap body :: (gap.below ++ rest))
      = List.replicate indent ' ' ++ (key ++ ':' :: (body.inline ++ (gap.text ++ unlines rest))) := by
  rw [unlines_cons, unlines_append, gap.text_eq, keyLine]
  simp

theorem Item.unlines_lines (indent : Nat) (i : Item) : unlines (i.lines indent) = i.text indent := by
  rw [lines, unlines_cons, text, content, i.gap.text_eq, line]
  simp

mutual

theorem Body.unlines_lines (indent : Nat) : ∀ body : Body,
    unlines (body.lines indent) = body.nested indent
  | .scalar _ => rfl
  | .items step first rest => by
    rw [Body.lines, Body.nested, unlines, List.flatMap_assoc]
    exact congrArg (fun f => (first :: rest).flatMap f) (funext fun i => i.unlines_lines _)
  | .mapping step entries => by
    rw [Body.lines, Body.nested, Entries.unlines_lines]

theorem Entries.unlines_lines (indent : Nat) : ∀ entries : Entries,
    unlines (entries.lines indent) = List.replicate indent ' ' ++ entries.content indent
  | .last key gap body => by
    rw [Entries.lines, unlines_keyLine, Body.unlines_lines, Entries.content]
  | .cons key gap body rest => by
    rw [Entries.lines, unlines_keyLine, unlines_append, Body.unlines_lines, Entries.unlines_lines,
      Entries.content]

end

theorem BlockDocument.unlines_lines (d : BlockDocument) : unlines d.lines = d.text := by
  rw [lines, unlines_append, unlines_map_text, Entries.unlines_lines, text]
  rfl

/-! ## No line has a break -/

theorem isBreak_append {a b : List Char} (ha : ∀ c ∈ a, isBreak c = false)
    (hb : ∀ c ∈ b, isBreak c = false) : ∀ c ∈ a ++ b, isBreak c = false := fun c hc =>
  (List.mem_append.mp hc).elim (ha c) (hb c)

theorem isBreak_replicate (n : Nat) : ∀ c ∈ List.replicate n ' ', isBreak c = false := by
  simp +contextual [isBreak]

theorem Inline.IsValid.isBreak_written {v : Inline} (h : v.IsValid) :
    ∀ c ∈ v.written, isBreak c = false := by
  cases v with
  | plain text => exact isBreak_of_staysPlain (show IsPlain text from h).stays
  | quoted double text =>
    have hquotable : IsQuotable double text := h
    have hmark : isBreak (quoteMark double) = false := by cases double <;> rfl
    have hin : ∀ c ∈ text.flatMap (inQuotes double), isBreak c = false := by
      intro c hc
      obtain ⟨d, hd, hc⟩ := List.mem_flatMap.mp hc
      rw [inQuotes] at hc
      split at hc
      · obtain rfl : c = '\'' := by simpa using hc
        rfl
      · obtain rfl : c = d := by simpa using hc
        exact hquotable.oneLine c hd
    intro c hc
    rw [written, List.mem_cons] at hc
    rcases hc with rfl | hc
    · exact hmark
    · refine isBreak_append hin (fun d hd => ?_) c hc
      rwa [List.mem_singleton.mp hd]

theorem Body.IsValid.isBreak_inline {body : Body} (h : body.IsValid) :
    ∀ c ∈ body.inline, isBreak c = false := by
  rcases body.inline_cases with ⟨v, rfl⟩ | hnone
  · have hvalue : v.IsValid := h v rfl
    intro c hc
    rcases List.mem_cons.mp hc with rfl | hc
    · rfl
    · exact hvalue.isBreak_written c hc
  · simp [hnone]

theorem Gap.IsValid.isBreak_below {g : Gap} (h : g.IsValid) :
    ∀ line ∈ g.below, ∀ c ∈ line, isBreak c = false := by
  intro line hline
  obtain ⟨r, hr, rfl⟩ := List.mem_map.mp hline
  exact Remark.isBreak_text (h.remarks r (List.mem_cons_of_mem _ hr))

theorem isBreak_keyLine {key : List Char} {gap : Gap} {body : Body} (hkey : IsKey key)
    (hgap : gap.IsValid) (hbody : body.IsValid) (indent : Nat) :
    ∀ c ∈ keyLine indent key gap body, isBreak c = false := by
  refine isBreak_append (isBreak_replicate indent)
    (isBreak_append (isBreak_of_staysPlain hkey.stays) fun c hc => ?_)
  rcases List.mem_cons.mp hc with rfl | hc
  · rfl
  · exact isBreak_append hbody.isBreak_inline
      (Remark.isBreak_text (hgap.remarks _ List.mem_cons_self)) c hc

theorem Item.IsValid.isBreak_lines {i : Item} (h : i.IsValid) (indent : Nat) :
    ∀ line ∈ i.lines indent, ∀ c ∈ line, isBreak c = false := by
  intro line hline
  rcases List.mem_cons.mp hline with rfl | hline
  · refine isBreak_append (isBreak_replicate indent) fun c hc => ?_
    rcases List.mem_cons.mp hc with rfl | hc
    · rfl
    rcases List.mem_cons.mp hc with rfl | hc
    · rfl
    · exact isBreak_append h.value.isBreak_written
        (Remark.isBreak_text (h.gap.remarks _ List.mem_cons_self)) c hc
  · exact h.gap.isBreak_below line hline

mutual

theorem Body.IsValid.isBreak_lines (indent : Nat) : ∀ {body : Body}, body.IsValid →
    ∀ line ∈ body.lines indent, ∀ c ∈ line, isBreak c = false
  | .scalar _, _ => by simp [Body.lines]
  | .items step first rest, h => by
    intro line hline
    obtain ⟨i, hi, hline⟩ := List.mem_flatMap.mp hline
    exact (h i hi).isBreak_lines _ line hline
  | .mapping step entries, h => by
    exact Entries.IsValid.isBreak_lines (indent + step + 1) h

theorem Entries.IsValid.isBreak_lines (indent : Nat) : ∀ {entries : Entries}, entries.IsValid →
    ∀ line ∈ entries.lines indent, ∀ c ∈ line, isBreak c = false
  | .last key gap body, ⟨hkey, hgap, hbody⟩ => by
    intro line hline
    rw [Entries.lines, List.mem_cons, List.mem_append] at hline
    rcases hline with rfl | hline | hline
    · exact isBreak_keyLine hkey hgap hbody indent
    · exact hgap.isBreak_below line hline
    · exact hbody.isBreak_lines indent line hline
  | .cons key gap body rest, ⟨hkey, hgap, hbody, hrest⟩ => by
    intro line hline
    rw [Entries.lines, List.mem_cons, List.mem_append, List.mem_append] at hline
    rcases hline with rfl | hline | hline | hline
    · exact isBreak_keyLine hkey hgap hbody indent
    · exact hgap.isBreak_below line hline
    · exact hbody.isBreak_lines indent line hline
    · exact hrest.isBreak_lines indent line hline

end

theorem BlockDocument.IsValid.isBreak_lines {d : BlockDocument} (h : d.IsValid) :
    ∀ line ∈ d.lines, ∀ c ∈ line, isBreak c = false := by
  intro line hline
  rcases List.mem_append.mp hline with hline | hline
  · obtain ⟨r, hr, rfl⟩ := List.mem_map.mp hline
    exact Remark.isBreak_text (h.lead r hr)
  · exact h.root.isBreak_lines 0 line hline

end Stave.Yaml
