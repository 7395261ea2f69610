import Stave.Proofs.Song.Clarified
import Stave.Song.Arrangement

/-!
# What clarifying a document leaves as it was

A document in block style with bare keys keeps its values outside of the sections.  A key in quotes is
no bare key: it is looked over, and the settings below it can be taken for repeats of those before it.
-/

namespace Stave.Song

open Yaml

/-! ## Documents in block style -/

/-- What is decided of the root of a given text holds of it, with the text read only once. -/
theorem exists_mapping {text : List Char} {P : List (Value × Value) → Prop} [DecidablePred P]
    (h : (match Value.ofText? text with
      | some (.mapping root) => decide (P root)
      | _ => false) = true) :
    ∃ root, Value.ofText? text = some (.mapping root) ∧ P root := by
  split at h
  · next root hroot => exact ⟨root, hroot, of_decide_eq_true h⟩
  · cases h

/-- Every line is clarified as a look back over the lines before it says: its key is renamed by the
number of lines that have it at the same indentation, as far back as no key is indented less.  A
document in block style with bare keys, none of them twice in its mapping, keeps its value under every
key of the root but that of the sections. -/
theorem clarify_keeps_meaning (text : List Char) :
    clarifyLines (Text.lines text)
        = (Text.lines text).mapIdx (fun i line =>
            clarifiedBehind ((Text.lines text).take i).reverse line)
      ∧ ∀ d : BlockDocument, d.text = text → d.IsValid → AreKeysOnce d.root →
        ∀ root, Value.ofText? text = some (.mapping root) →
          ∃ clarified, Value.ofText? (clarify text) = some (.mapping clarified)
            ∧ List.Forall₂ (fun a b => a.1 = b.1 ∧ (a.1 ≠ .text "sections" → a.2 = b.2)) root
              clarified := by
  refine ⟨clarifyLines_eq _, ?_⟩
  rintro d rfl hvalid honce root hroot
  rw [clarify_text hvalid honce]
  exact exists_value_clarifiedDocument hvalid hroot

/-- A document with a tempo and a section. -/
def oneSection : BlockDocument :=
  let gap : Gap := ⟨⟨0, none⟩, []⟩
  { lead := [⟨0, some " a song".toList⟩]
    root := .cons "tempo".toList gap (.scalar (some (.plain "90".toList))) <|
      .last "sections".toList gap <| .mapping 1 <|
        .last "verse".toList gap <| .mapping 1 <|
          .last "bass".toList gap <| .scalar (some (.plain "C2 - E2".toList)) }

/-- The pattern of a section is put in quotes, and the tempo stays. -/
theorem clarify_keeps_meaning_of_section :
    oneSection.IsValid ∧ AreKeysOnce oneSection.root
      ∧ ∃ root clarified, Value.ofText? oneSection.text = some (.mapping root)
        ∧ Value.ofText? (clarify oneSection.text) = some (.mapping clarified)
        ∧ List.Forall₂ (fun a b => a.1 = b.1 ∧ (a.1 ≠ .text "sections" → a.2 = b.2)) root
          clarified := by
  have hvalid : oneSection.IsValid := by decide +kernel
  have honce : AreKeysOnce oneSection.root := by decide +kernel
  obtain ⟨root, hroot, -⟩ : ∃ root, Value.ofText? oneSection.text = some (.mapping root) ∧ True :=
    exists_mapping (by decide +kernel)
  obtain ⟨clarified, hclarified, hagree⟩ :=
    (clarify_keeps_meaning oneSection.text).2 oneSection rfl hvalid honce root hroot
  exact ⟨hvalid, honce, root, clarified, hroot, hclarified, hagree⟩

/-! ## Keys in quotes -/

/-- Whether a document sets the attack of the bass. -/
def setsAttackOfBass (root : List (Value × Value)) : Bool :=
  let settings := ((Value.lookup "instruments" root).bind Value.entries?).bind (Value.lookup "bass")
  ((settings.bind Value.entries?).bind (Value.lookup "attack")).isSome

/-- A quoted key closes no scope. -/
theorem clarify_drops_setting_behind_quoted_key :
    let text := ['\n'].intercalate <| List.map String.toList
      ["instruments:", "  lead:", "    attack: 0.1", "  \"bass\":", "    attack: 0.2", ""]
    ∃ root clarified, Value.ofText? text = some (.mapping root)
      ∧ Value.ofText? (clarify text) = some (.mapping clarified)
      ∧ Value.lookup "instruments" clarified ≠ Value.lookup "instruments" root := by
  intro text
  obtain ⟨root, hroot, hset⟩ : ∃ root, Value.ofText? text = some (.mapping root)
      ∧ setsAttackOfBass root = true := exists_mapping (by decide +kernel)
  obtain ⟨clarified, hclarified, hunset⟩ : ∃ clarified,
      Value.ofText? (clarify text) = some (.mapping clarified) ∧ setsAttackOfBass clarified = false :=
    exists_mapping (by decide +kernel)
  refine ⟨root, clarified, hroot, hclarified, fun hsame => ?_⟩
  rw [setsAttackOfBass, hsame] at hunset
  rw [setsAttackOfBass, hunset] at hset
  cases hset

end Stave.Song
