import Mathlib.Data.List.Forall2
import Stave.Proofs.Song.Keys
import Stave.Proofs.Yaml.Listed

/-!
# Documents with their patterns in quotes

What clarifying makes of a document in block style: the patterns of its sections are put in quotes,
each with its comment cut off.  Everything else stays, so the document has a value if it had one, with
the same value under every key of its root other than that of the sections.
-/

namespace Stave.Song

open Yaml

/-! ## Patterns -/

/-- The pattern that is put in quotes. -/
def pattern? (value : List Char) : Option (List Char) :=
  match Text.trim (beforeComment value) with
  | [] => none
  | c :: rest => if "\"'|>".toList.contains c then none else some (c :: rest)

theorem quoted?_eq (value : List Char) : quoted? value = (pattern? value).map quote := by
  rw [quoted?, pattern?]
  cases Text.trim (beforeComment value) with
  | nil => rfl
  | cons c rest =>
    show (if "\"'|>".toList.contains c = true then none else some (quote (c :: rest)))
      = Option.map quote (if "\"'|>".toList.contains c = true then none else some (c :: rest))
    split <;> rfl

theorem quote_eq_written (text : List Char) : quote text = (Inline.quoted false text).written := by
  rw [quote, Inline.written]
  congr 2

theorem mem_of_mem_go {value : List Char} {afterBlank : Bool} {done : List Char} {c : Char}
    (h : c ∈ beforeComment.go afterBlank done value) : c ∈ done ∨ c ∈ value := by
  induction value generalizing afterBlank done with
  | nil =>
    rw [beforeComment.go, List.mem_reverse] at h
    exact .inl h
  | cons d rest ih =>
    rw [beforeComment.go] at h
    split at h
    · rw [List.mem_reverse] at h
      exact .inl h
    · rcases ih h with hdone | hrest
      · rcases List.mem_cons.mp hdone with rfl | hdone
        · exact .inr List.mem_cons_self
        · exact .inl hdone
      · exact .inr (List.mem_cons_of_mem d hrest)

/-- A pattern holds no other characters than its line. -/
theorem mem_of_mem_pattern {value pattern : List Char} (h : pattern? value = some pattern) {c : Char}
    (hc : c ∈ pattern) : c ∈ value := by
  have htrim : pattern = Text.trim (beforeComment value) := by
    rw [pattern?] at h
    split at h
    · cases h
    · next heq =>
      split at h
      · cases h
      · rw [heq]
        exact (Option.some.inj h).symm
  rw [htrim, Text.trim, Text.trimEnd, List.mem_reverse] at hc
  have hstart := (List.dropWhile_suffix _).subset hc
  rw [List.mem_reverse] at hstart
  exact (mem_of_mem_go ((List.dropWhile_suffix _).subset hstart)).resolve_left List.not_mem_nil

theorem go_replicate (n : Nat) (done rest : List Char) :
    beforeComment.go true done (List.replicate n ' ' ++ rest)
      = beforeComment.go true (List.replicate n ' ' ++ done) rest := by
  induction n generalizing done with
  | zero => rfl
  | succ n ih =>
    have hspace : Text.isBlank ' ' = true := rfl
    rw [List.replicate_succ, List.cons_append, beforeComment.go, if_neg (by simp), hspace, ih,
      ← List.replicate_succ, List.replicate_succ', List.append_assoc, List.singleton_append]

/-- A comment alone is no pattern. -/
theorem pattern?_remark (r : Remark) : pattern? r.text = none := by
  have hbefore : beforeComment r.text = List.replicate r.blanks ' ' := by
    rw [beforeComment, Remark.text, go_replicate]
    cases r.comment <;> simp [beforeComment.go]
  have htrim : Text.trim (List.replicate r.blanks ' ') = [] := by
    have hstart : Text.trimStart (List.replicate r.blanks ' ') = [] :=
      List.dropWhile_eq_nil_iff.mpr fun c hc => by rw [(List.mem_replicate.mp hc).2]; rfl
    rw [Text.trim, hstart]
    rfl
  rw [pattern?, hbefore, htrim]

/-! ## Clarified documents -/

/-- A scalar and the gap behind it, with the pattern of the line in quotes if it is one of a
section. -/
def requoted (inSection : Bool) (value : Inline) (gap : Gap) : Inline × Gap :=
  match if inSection then pattern? (' ' :: (value.written ++ gap.ending.text)) else none with
  | some pattern => (.quoted false pattern, { gap with ending := ⟨0, none⟩ })
  | none => (value, gap)

/-- An item, clarified. -/
def clarifiedItemOf (inSection : Bool) (i : Item) : Item :=
  ⟨(requoted inSection i.value i.gap).1, (requoted inSection i.value i.gap).2⟩

/-- The gap behind the line of a key, clarified. -/
def clarifiedGap (inSection : Bool) (gap : Gap) : Body → Gap
  | .scalar (some v) => (requoted inSection v gap).2
  | _ => gap

mutual

/-- What a key has for a value, clarified, where the key stands within others. -/
def clarifiedBody (path : List (List Char)) (key : List Char) (gap : Gap) : Body → Body
  | .scalar none => .scalar none
  | .scalar (some v) => .scalar (some (requoted (isSection path) v gap).1)
  | .items step first rest =>
    .items step (clarifiedItemOf (isSection path) first) (rest.map (clarifiedItemOf (isSection path)))
  | .mapping step entries => .mapping step (clarifiedEntries (key :: path) entries)

/-- Entries that stand within keys, clarified. -/
def clarifiedEntries (path : List (List Char)) : Entries → Entries
  | .last key gap body =>
    .last key (clarifiedGap (isSection path) gap body) (clarifiedBody path key gap body)
  | .cons key gap body rest =>
    .cons key (clarifiedGap (isSection path) gap body) (clarifiedBody path key gap body)
      (clarifiedEntries path rest)

end

/-- A document with the patterns of its sections in quotes. -/
def clarifiedDocument (d : BlockDocument) : BlockDocument := ⟨d.lead, clarifiedEntries [] d.root⟩

/-! ## Validity -/

theorem isValid_requoted {v : Inline} {gap : Gap} (hv : v.IsValid) (hgap : gap.IsValid)
    (inSection : Bool) :
    (requoted inSection v gap).1.IsValid ∧ (requoted inSection v gap).2.IsValid := by
  rw [requoted]
  split
  · next pattern hpattern =>
    have hending : gap.ending.IsValid := hgap.remarks _ List.mem_cons_self
    have hfound : pattern? (' ' :: (v.written ++ gap.ending.text)) = some pattern := by
      split at hpattern
      · exact hpattern
      · cases hpattern
    have hmem : ∀ c ∈ pattern, c = ' ' ∨ c ∈ v.written ∨ c ∈ gap.ending.text := fun c hc => by
      simpa using mem_of_mem_pattern hfound hc
    refine ⟨⟨fun c hc => ?_, fun c hc => ?_, fun h => by cases h⟩, fun h => absurd rfl h, ?_⟩
    · rcases hmem c hc with rfl | hc | hc
      · rfl
      · exact hv.isBreak_written c hc
      · exact Remark.isBreak_text hending c hc
    · rcases hmem c hc with rfl | hc | hc
      · rfl
      · exact List.all_eq_true.mp hv.all_isAllowed c hc
      · exact List.all_eq_true.mp hending.all_isAllowed c hc
    · intro r hr
      rcases List.mem_cons.mp hr with rfl | hr
      · exact fun body hbody => by cases hbody
      · exact hgap.remarks r (List.mem_cons_of_mem _ hr)
  · exact ⟨hv, hgap⟩

theorem isValid_clarifiedItemOf {i : Item} (h : i.IsValid) (inSection : Bool) :
    (clarifiedItemOf inSection i).IsValid :=
  ⟨(isValid_requoted h.value h.gap inSection).1, (isValid_requoted h.value h.gap inSection).2⟩

theorem isValid_clarifiedGap {gap : Gap} (hgap : gap.IsValid) (inSection : Bool) :
    ∀ {body : Body}, body.IsValid → (clarifiedGap inSection gap body).IsValid
  | .scalar none, _ => hgap
  | .scalar (some v), h => (isValid_requoted (h v rfl) hgap inSection).2
  | .items _ _ _, _ => hgap
  | .mapping _ _, _ => hgap

mutual

theorem isValid_clarifiedBody {gap : Gap} (hgap : gap.IsValid) (path : List (List Char))
    (key : List Char) : ∀ {body : Body}, body.IsValid → (clarifiedBody path key gap body).IsValid
  | .scalar none, h => h
  | .scalar (some v), h => fun w hw => by
    obtain rfl : (requoted (isSection path) v gap).1 = w := by simpa using hw
    exact (isValid_requoted (h v rfl) hgap (isSection path)).1
  | .items step first rest, h => fun i hi => by
    rw [← List.map_cons, List.mem_map] at hi
    obtain ⟨j, hj, rfl⟩ := hi
    exact isValid_clarifiedItemOf (h j hj) (isSection path)
  | .mapping step entries, h => isValid_clarifiedEntries (key :: path) h

theorem isValid_clarifiedEntries (path : List (List Char)) :
    ∀ {entries : Entries}, entries.IsValid → (clarifiedEntries path entries).IsValid
  | .last key _ _, ⟨hkey, hgap, hbody⟩ =>
    ⟨hkey, isValid_clarifiedGap hgap (isSection path) hbody, isValid_clarifiedBody hgap path key hbody⟩
  | .cons key _ _ _, ⟨hkey, hgap, hbody, hrest⟩ =>
    ⟨hkey, isValid_clarifiedGap hgap (isSection path) hbody, isValid_clarifiedBody hgap path key hbody,
      isValid_clarifiedEntries path hrest⟩

end

theorem isValid_clarifiedDocument {d : BlockDocument} (h : d.IsValid) :
    (clarifiedDocument d).IsValid := ⟨h.lead, isValid_clarifiedEntries [] h.root⟩

/-! ## Outside of the sections -/

/-- Whether what stands within these keys is no part of the sections. -/
def IsElsewhere (path : List (List Char)) : Prop :=
  ∃ outermost, path.getLast? = some outermost ∧ outermost ≠ sectionsKey

theorem IsElsewhere.isSection_eq {path : List (List Char)} (h : IsElsewhere path) :
    isSection path = false := by
  obtain ⟨outermost, hlast, hother⟩ := h
  match path with
  | [] => rfl
  | [_] => rfl
  | [_, outer] =>
    obtain rfl : outer = outermost := by simpa using hlast
    simpa [isSection] using hother
  | _ :: _ :: _ :: _ => rfl

theorem IsElsewhere.within {path : List (List Char)} (h : IsElsewhere path) (key : List Char) :
    IsElsewhere (key :: path) := by
  obtain ⟨outermost, hlast, hother⟩ := h
  refine ⟨outermost, ?_, hother⟩
  rw [List.getLast?_cons, hlast]
  rfl

theorem map_clarifiedItemOf_false (items : List Item) : items.map (clarifiedItemOf false) = items :=
  List.map_id items

theorem clarifiedGap_false (gap : Gap) : ∀ body : Body, clarifiedGap false gap body = gap
  | .scalar none => rfl
  | .scalar (some _) => rfl
  | .items _ _ _ => rfl
  | .mapping _ _ => rfl

mutual

theorem clarifiedBody_eq_self {path : List (List Char)} (h : IsElsewhere path) (key : List Char)
    (gap : Gap) : ∀ body : Body, clarifiedBody path key gap body = body
  | .scalar none => rfl
  | .scalar (some v) => by
    rw [clarifiedBody, h.isSection_eq]
    rfl
  | .items step first rest => by
    rw [clarifiedBody, h.isSection_eq, map_clarifiedItemOf_false]
    rfl
  | .mapping step entries => by
    rw [clarifiedBody, clarifiedEntries_eq_self (h.within key)]

theorem clarifiedEntries_eq_self {path : List (List Char)} (h : IsElsewhere path) :
    ∀ entries : Entries, clarifiedEntries path entries = entries
  | .last key gap body => by
    rw [clarifiedEntries, h.isSection_eq, clarifiedGap_false, clarifiedBody_eq_self h]
  | .cons key gap body rest => by
    rw [clarifiedEntries, h.isSection_eq, clarifiedGap_false, clarifiedBody_eq_self h,
      clarifiedEntries_eq_self h]

end

/-- At the root only the value of one key changes. -/
theorem clarifiedBody_root {key : List Char} (h : key ≠ sectionsKey) (gap : Gap) :
    ∀ body : Body, clarifiedBody [] key gap body = body
  | .scalar none => rfl
  | .scalar (some v) => rfl
  | .items step first rest =>
    congrArg (Body.items step first) (map_clarifiedItemOf_false rest)
  | .mapping step entries => by
    rw [clarifiedBody, clarifiedEntries_eq_self ⟨key, rfl, h⟩]

/-! ## Values -/

/-- Whether two entries have the same key and, for some keys, the same value. -/
def Agree (same : Value → Prop) (a b : Value × Value) : Prop := a.1 = b.1 ∧ (same a.1 → a.2 = b.2)

theorem hasKey_of_agree {same : Value → Prop} {done clarified : List (Value × Value)}
    (h : List.Forall₂ (Agree same) done clarified) (key : Value) :
    Value.hasKey key clarified = Value.hasKey key done := by
  induction h with
  | nil => rfl
  | cons hfirst hrest ih =>
    rw [Value.hasKey, Value.hasKey] at ih ⊢
    rw [List.any_cons, List.any_cons, ih, hfirst.1]

/-- What an entry adds to those before it. -/
theorem extended?_eq_some {done entries : List (Value × Value)} {key value : Option Value}
    (h : extended? done key value = some entries) :
    ∃ k v, key = some k ∧ value = some v ∧ Value.hasKey k done = false ∧ entries = done ++ [(k, v)] := by
  rw [extended?, Option.bind_eq_some_iff] at h
  obtain ⟨k, hk, h⟩ := h
  split at h
  · cases h
  · next hnew =>
    obtain ⟨v, hv, rfl⟩ := Option.map_eq_some_iff.mp h
    exact ⟨k, v, hk, hv, by simpa using hnew, rfl⟩

/-- An entry that is added to entries that agree, with the same value where it matters. -/
theorem exists_extended? {same : Value → Prop} {done clarified entries : List (Value × Value)}
    (hdone : List.Forall₂ (Agree same) done clarified) {key value other : Option Value}
    (h : extended? done key value = some entries) (hother : value.isSome → other.isSome)
    (hsame : ∀ k ∈ key, same k → other = value) :
    ∃ more, extended? clarified key other = some more ∧ List.Forall₂ (Agree same) entries more := by
  obtain ⟨k, v, rfl, rfl, hnew, rfl⟩ := extended?_eq_some h
  obtain ⟨w, rfl⟩ := Option.isSome_iff_exists.mp (hother rfl)
  have hkey : Value.hasKey k clarified = false := by rw [hasKey_of_agree hdone, hnew]
  refine ⟨clarified ++ [(k, w)], by simp [extended?, hkey], ?_⟩
  refine List.rel_append hdone (.cons ⟨rfl, fun hk => ?_⟩ .nil)
  exact (Option.some.inj (hsame k rfl hk)).symm

theorem isSome_value?_requoted {v : Inline} (h : v.value?.isSome) (inSection : Bool) (gap : Gap) :
    (requoted inSection v gap).1.value?.isSome := by
  rw [requoted]
  split
  · rfl
  · exact h

theorem isSome_mapM {items : List Item} :
    (items.mapM fun i : Item => i.value.value?).isSome = items.all fun i => i.value.value?.isSome := by
  induction items with
  | nil => rfl
  | cons i items ih =>
    rw [List.mapM_cons, List.all_cons, ← ih]
    cases i.value.value? with
    | none => rfl
    | some value => cases items.mapM fun i : Item => i.value.value? <;> rfl

theorem isSome_mapM_clarified {items : List Item}
    (h : (items.mapM fun i : Item => i.value.value?).isSome) (inSection : Bool) :
    ((items.map (clarifiedItemOf inSection)).mapM fun i : Item => i.value.value?).isSome := by
  rw [isSome_mapM, List.all_eq_true] at h ⊢
  intro i hi
  obtain ⟨j, hj, rfl⟩ := List.mem_map.mp hi
  exact isSome_value?_requoted (h j hj) inSection j.gap

mutual

/-- What has a value has one when it is clarified. -/
theorem isSome_value?_clarifiedBody (path : List (List Char)) (key : List Char) (gap : Gap) :
    ∀ (depth : Nat) {body : Body}, (body.value? depth).isSome →
      ((clarifiedBody path key gap body).value? depth).isSome
  | _, .scalar none, _ => rfl
  | _, .scalar (some v), h => isSome_value?_requoted h (isSection path) gap
  | 0, .items _ _ _, h => by cases h
  | 0, .mapping _ _, h => by cases h
  | depth + 1, .items step first rest, h => by
    rw [Body.value?, Option.isSome_map] at h
    rw [clarifiedBody, Body.value?, Option.isSome_map, ← List.map_cons]
    exact isSome_mapM_clarified h (isSection path)
  | depth + 1, .mapping step entries, h => by
    rw [Body.value?, Option.isSome_map] at h
    obtain ⟨found, hfound⟩ := Option.isSome_iff_exists.mp h
    obtain ⟨clarified, hclarified, -⟩ := exists_values?_clarifiedEntries (key :: path)
      (fun _ => False) (fun _ _ _ hno => hno.elim) depth .nil hfound
    rw [clarifiedBody, Body.value?, hclarified]
    rfl

/-- Entries that are clarified agree with those that were written. -/
theorem exists_values?_clarifiedEntries (path : List (List Char)) (same : Value → Prop)
    (hsame : ∀ key, ∀ k ∈ keyValue? key, same k →
      ∀ gap body, clarifiedBody path key gap body = body) :
    ∀ (depth : Nat) {done clarified : List (Value × Value)},
      List.Forall₂ (Agree same) done clarified → ∀ {entries : Entries} {found : List (Value × Value)},
      entries.values? depth done = some found →
      ∃ more, (clarifiedEntries path entries).values? depth clarified = some more
        ∧ List.Forall₂ (Agree same) found more
  | depth, _, _, hdone, .last key gap body, _, h => by
    rw [Entries.values?] at h
    exact exists_extended? hdone h (isSome_value?_clarifiedBody path key gap depth) fun k hk hwhere => by
      rw [hsame key k hk hwhere gap body]
  | depth, _, _, hdone, .cons key gap body rest, _, h => by
    rw [Entries.values?, Option.bind_eq_some_iff] at h
    obtain ⟨next, hfirst, hrest⟩ := h
    obtain ⟨more, hmore, hagree⟩ := exists_extended? hdone hfirst
      (isSome_value?_clarifiedBody path key gap depth) fun k hk hwhere => by
        rw [hsame key k hk hwhere gap body]
    rw [clarifiedEntries, Entries.values?, hmore, Option.bind_some]
    exact exists_values?_clarifiedEntries path same hsame depth hagree hrest

end

theorem keyValue?_sectionsKey : keyValue? sectionsKey = some (.text "sections") :=
  keyValue?_of_isAlpha (show 's'.isAlpha = true from rfl) (by decide +kernel) (by decide +kernel)

/-- A document that is clarified has a value if the document has one, and under every key of the root
but that of the sections the same. -/
theorem exists_value_clarifiedDocument {d : BlockDocument} (h : d.IsValid)
    {root : List (Value × Value)} (hroot : Value.ofText? d.text = some (.mapping root)) :
    ∃ clarified, Value.ofText? (clarifiedDocument d).text = some (.mapping clarified)
      ∧ List.Forall₂ (Agree (· ≠ .text "sections")) root clarified := by
  rw [d.value_text h, Option.map_eq_some_iff] at hroot
  obtain ⟨found, hfound, heq⟩ := hroot
  obtain rfl := Value.mapping.inj heq
  have hsame : ∀ key, ∀ k ∈ keyValue? key, k ≠ .text "sections" →
      ∀ gap body, clarifiedBody [] key gap body = body := by
    intro key k hk hother gap body
    refine clarifiedBody_root ?_ gap body
    rintro rfl
    rw [keyValue?_sectionsKey] at hk
    exact hother (Option.some.inj hk).symm
  obtain ⟨clarified, hclarified, hagree⟩ :=
    exists_values?_clarifiedEntries [] _ hsame 127 .nil hfound
  refine ⟨clarified, ?_, hagree⟩
  rw [BlockDocument.value_text (isValid_clarifiedDocument h)]
  exact congrArg (Option.map Value.mapping) hclarified

end Stave.Song
