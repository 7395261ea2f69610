import Mathlib.Data.List.Basic
import Stave.Proofs.Text.Lines
import Stave.Song.Section

/-!
# Repeats in the order of a song

An entry of the song is the name of a section with a number of repeats behind it.  The name ends at the
first place behind which there is nothing but a repeat, and may itself look like one: in front of the
last mark of the entry, what follows a place has another mark or a character that is none in it.  The
digits can be those of any script, but only those of ASCII have a value; all others count as too many.
-/

namespace Stave

/-! ## Digits -/

namespace Text

/-- The number that a decimal digit of any script stands for. -/
def digitValue (c : Char) : Nat :=
  ((digitZeros.find? fun z => z ≤ c.toNat && c.toNat < z + 10).map fun z => c.toNat - z).getD 0

/-- The number that decimal digits of any script write, in base ten. -/
def decimalValue (digits : List Char) : Nat := digits.foldl (fun n c => 10 * n + digitValue c) 0

theorem digitValue_of_isDigit {c : Char} (h : c.isDigit = true) :
    digitValue c = c.toNat - '0'.toNat := by
  obtain ⟨hle, hge⟩ := Text.toNat_of_isDigit h
  have hfirst : (decide (0x30 ≤ c.toNat) && decide (c.toNat < 0x30 + 10)) = true := by
    simp only [Bool.and_eq_true, decide_eq_true_eq]
    omega
  have hfind : (digitZeros.find? fun z => z ≤ c.toNat && c.toNat < z + 10) = some 0x30 :=
    List.find?_cons_of_pos hfirst
  rw [digitValue, hfind]
  rfl

/-- Digits of ASCII write the number that they are read as. -/
theorem decimalValue_of_isDigit {digits : List Char} (h : ∀ c ∈ digits, c.isDigit = true) :
    decimalValue digits = natOfDigits digits := by
  rw [decimalValue, natOfDigits]
  refine List.foldl_ext _ _ 0 fun n c hc => ?_
  rw [digitValue_of_isDigit (h c hc)]

/-- A blank is no digit. -/
theorem isDecimalDigit_of_isBlank {c : Char} (h : isBlank c = true) : isDecimalDigit c = false := by
  have hnone : ∀ n ∈ [0x1680, 0x2000, 0x2001, 0x2002, 0x2003, 0x2004, 0x2005, 0x2006, 0x2007, 0x2008,
      0x2009, 0x200A, 0x2028, 0x2029, 0x202F, 0x205F, 0x3000],
      (digitZeros.any fun z => z ≤ n && n < z + 10) = false := by
    decide
  rw [isDecimalDigit, Bool.or_eq_false_iff]
  simp only [isBlank, Bool.or_eq_true, Bool.and_eq_true, decide_eq_true_eq, beq_iff_eq] at h
  constructor
  · rw [Bool.eq_false_iff]
    intro hdigit
    have := Text.toNat_of_isDigit hdigit
    omega
  · by_cases hlow : c.toNat ≥ 0x660
    · rw [decide_eq_true hlow, Bool.true_and]
      refine hnone c.toNat ?_
      simp only [List.mem_cons, List.not_mem_nil, or_false]
      omega
    · rw [decide_eq_false hlow, Bool.false_and]

theorem isBlank_of_isDecimalDigit {c : Char} (h : isDecimalDigit c = true) : isBlank c = false := by
  rw [Bool.eq_false_iff]
  intro hblank
  rw [isDecimalDigit_of_isBlank hblank] at h
  cases h

end Text

namespace Song

open Yaml

/-! ## Links -/

/-- What is written between a name and the number of its repeats. -/
def repeatLinks : List (List Char) := [" x", " X", " x ", " *", "*"].map String.toList

variable {name link digits text : List Char}

/-- Where a repeat is found, there is a mark behind blanks, and behind the mark nothing but blanks and
digits. -/
theorem exists_of_repeatDigits? (h : repeatDigits? text = some digits) :
    ∃ blanks mark rest, text = blanks ++ mark :: rest ∧ (∀ c ∈ blanks, Text.isBlank c = true)
      ∧ ∀ c ∈ rest, Text.isBlank c = true ∨ Text.isDecimalDigit c = true := by
  have hparts := List.takeWhile_append_dropWhile (p := Text.isBlank) (l := text)
  have hdrop : text.drop (text.takeWhile Text.isBlank).length = text.dropWhile Text.isBlank :=
    (congrArg (List.drop _) hparts.symm).trans List.drop_left
  rw [repeatDigits?, hdrop] at h
  cases hbehind : text.dropWhile Text.isBlank with
  | nil =>
    rw [hbehind] at h
    cases h
  | cons mark rest =>
    simp only [hbehind, Option.ite_none_right_eq_some] at h
    obtain ⟨-, hdigits, -⟩ := h
    refine ⟨text.takeWhile Text.isBlank, mark, rest, ?_, fun c hc => List.mem_takeWhile_imp hc, ?_⟩
    · rw [← hbehind, hparts]
    · intro c hc
      rw [← List.takeWhile_append_dropWhile (p := Text.isBlank) (l := rest), List.mem_append] at hc
      rw [Bool.and_eq_true, List.all_eq_true] at hdigits
      exact hc.imp List.mem_takeWhile_imp (hdigits.2 c)

/-- A link and digits are a repeat. -/
theorem repeatDigits?_link (hlink : link ∈ repeatLinks) (hne : digits ≠ [])
    (hdigits : ∀ c ∈ digits, Text.isDecimalDigit c = true) :
    repeatDigits? (link ++ digits) = some digits := by
  obtain ⟨d, rest, rfl⟩ := List.exists_cons_of_ne_nil hne
  have hblank : Text.isBlank d = false :=
    Text.isBlank_of_isDecimalDigit (hdigits d List.mem_cons_self)
  have hall : (d :: rest).all Text.isDecimalDigit = true := List.all_eq_true.mpr hdigits
  have hspace : Text.isBlank ' ' = true := rfl
  have hmarks : Text.isBlank 'x' = false ∧ Text.isBlank 'X' = false ∧ Text.isBlank '*' = false :=
    ⟨rfl, rfl, rfl⟩
  simp only [repeatLinks, List.map_cons, List.map_nil, List.mem_cons, List.not_mem_nil,
    or_false] at hlink
  rcases hlink with rfl | rfl | rfl | rfl | rfl <;>
    simp [repeatDigits?, hspace, hmarks, hblank, hall]

/-- Every link has a mark, which is neither a blank nor a digit. -/
theorem exists_mark (hlink : link ∈ repeatLinks) :
    ∃ mark ∈ link, Text.isBlank mark = false ∧ Text.isDecimalDigit mark = false := by
  simp only [repeatLinks, List.map_cons, List.map_nil, List.mem_cons, List.not_mem_nil,
    or_false] at hlink
  rcases hlink with rfl | rfl | rfl | rfl | rfl
  · exact ⟨'x', by decide, rfl, rfl⟩
  · exact ⟨'X', by decide, rfl, rfl⟩
  · exact ⟨'x', by decide, rfl, rfl⟩
  · exact ⟨'*', by decide, rfl, rfl⟩
  · exact ⟨'*', by decide, rfl, rfl⟩

/-! ## Where a name ends -/

/-- Behind what is no blank and in front of a link, nothing is found but what the link begins. -/
theorem repeatDigits?_eq_none {front tail : List Char} (hne : front ≠ [])
    (hlast : ∀ c ∈ front.getLast?, Text.isBlank c = false)
    (hmark : ∃ mark ∈ tail, Text.isBlank mark = false ∧ Text.isDecimalDigit mark = false) :
    repeatDigits? (front ++ tail) = none := by
  obtain ⟨mark, hmem, hblank, hdigit⟩ := hmark
  by_contra hfound
  obtain ⟨digits, hdigits⟩ := Option.ne_none_iff_exists'.mp hfound
  obtain ⟨blanks, first, rest, htext, hblanks, hrest⟩ := exists_of_repeatDigits? hdigits
  -- the last character in front is no blank, so that the first mark is in front as well
  obtain ⟨c, hc⟩ := Option.isSome_iff_exists.mp (List.getLast?_isSome.mpr hne)
  have hinside : ∀ behind, blanks ≠ front ++ behind := by
    rintro behind rfl
    have hcblank := hblanks c (List.mem_append_left _ (List.mem_of_mem_getLast? hc))
    rw [hlast c hc] at hcblank
    cases hcblank
  rcases List.append_eq_append_iff.mp htext with ⟨behind, hbehind, -⟩ | ⟨behind, hfront, hbehind⟩
  · exact hinside behind hbehind
  · cases behind with
    | nil => exact hinside [] (by rw [hfront, List.append_nil, List.append_nil])
    | cons d behind =>
      -- behind the first mark stands the one of the tail
      obtain ⟨rfl, rfl⟩ := List.cons.inj hbehind
      rcases hrest mark (List.mem_append_right _ hmem) with h | h
      · rw [hblank] at h
        cases h
      · rw [hdigit] at h
        cases h

/-- An entry is split behind the whole of its name. -/
theorem nameAndRepeat?_append (hlink : link ∈ repeatLinks) (hne : digits ≠ [])
    (hdigits : ∀ c ∈ digits, Text.isDecimalDigit c = true) {read unread : List Char}
    (hname : read ≠ [] ∨ unread ≠ []) (hline : '\n' ∉ unread)
    (hlast : ∀ c ∈ unread.getLast?, Text.isBlank c = false) :
    nameAndRepeat? read (unread ++ (link ++ digits)) = some (read.reverse ++ unread, some digits) := by
  induction unread generalizing read with
  | nil =>
    have hread : read.isEmpty = false := List.isEmpty_eq_false_iff.mpr (hname.resolve_right (· rfl))
    have hfound := repeatDigits?_link hlink hne hdigits
    obtain ⟨mark, hmark, -⟩ := exists_mark hlink
    obtain ⟨c, rest, htail⟩ := List.exists_cons_of_ne_nil
      (List.append_ne_nil_of_left_ne_nil (List.ne_nil_of_mem hmark) digits)
    rw [htail] at hfound
    rw [List.nil_append, htail, nameAndRepeat?, hread, List.append_nil]
    simp only [Bool.false_eq_true, if_false, hfound]
  | cons c rest ih =>
    obtain ⟨mark, hmark, hkind⟩ := exists_mark hlink
    have hnone : repeatDigits? (c :: rest ++ (link ++ digits)) = none :=
      repeatDigits?_eq_none (List.cons_ne_nil c rest) hlast
        ⟨mark, List.mem_append_left _ hmark, hkind⟩
    obtain ⟨hc, hrest⟩ := not_or.mp fun h => hline (List.mem_cons.mpr h)
    have hsplit : (if read.isEmpty = true then none else repeatDigits? (c :: rest ++ (link ++ digits)))
        = none := by
      rw [hnone, ite_self]
    have hgoes := ih (Or.inl (List.cons_ne_nil c read)) hrest fun d hd => hlast d (by
      rw [List.getLast?_cons, Option.mem_some_iff]
      rw [Option.mem_def] at hd
      rw [hd]
      rfl)
    rw [List.cons_append] at hsplit ⊢
    rw [nameAndRepeat?, hsplit]
    simp only [beq_iff_eq, if_neg (Ne.symm hc), hgoes, List.reverse_cons, List.append_assoc,
      List.singleton_append]

/-! ## Entries -/

/-- How often an entry with given digits plays its section: digits that are not all of ASCII count as
too many. -/
theorem songItem?_append (hne : name ≠ []) (hname : Text.IsTrimmed name) (hline : '\n' ∉ name)
    (hlink : link ∈ repeatLinks) (hsome : digits ≠ [])
    (hdigits : ∀ c ∈ digits, Text.isDecimalDigit c = true) :
    songItem? (name ++ (link ++ digits))
      = some (name, if digits.all Char.isDigit then min (Text.decimalValue digits) mostRepeats
          else mostRepeats) := by
  have htrimmed : Text.IsTrimmed (name ++ (link ++ digits)) := by
    refine ⟨fun c hc => hname.head c ?_, fun c hc => ?_⟩
    · rwa [List.head?_append_of_ne_nil _ hne] at hc
    · rw [← List.append_assoc, List.getLast?_append_of_ne_nil _ hsome] at hc
      exact Text.isBlank_of_isDecimalDigit (hdigits c (List.mem_of_mem_getLast? hc))
  have hsplit : nameAndRepeat? [] (name ++ (link ++ digits)) = some (name, some digits) :=
    nameAndRepeat?_append hlink hsome hdigits (Or.inr hne) hline hname.last
  simp only [songItem?, htrimmed.trim_eq, hsplit, Option.map_some, hname.trim_eq, Option.getD_some,
    repeatCount]
  split
  · next hall => rw [Text.decimalValue_of_isDigit (List.all_eq_true.mp hall)]
  · rfl

/-! ## Orders -/

/-- A list of entries. -/
def listed (entries : List String) : Option Value := some (.sequence (entries.map Value.text))

theorem entriesOf?_listed (entries : List String) : entriesOf? (listed entries) = some entries := by
  have hscalar : (entries.map Value.text).filterMap Value.scalarText? = entries := by
    rw [List.filterMap_map]
    exact List.filterMap_some
  rw [listed, entriesOf?, hscalar]

/-- What an entry plays. -/
def playedBy (sections : List Section) (entry : String) : List Section :=
  match songItem? entry.toList with
  | none => []
  | some (name, count) =>
    match sections.find? fun s => s.name == String.ofList name with
    | none => []
    | some found => List.replicate count found

theorem order_of_entriesOf? {value : Option Value} {entries : List String}
    (h : entriesOf? value = some entries) (sections : List Section) :
    order value sections = entries.flatMap (playedBy sections) := by
  rw [order, h]
  rfl

theorem playedBy_of_songItem? {entry : String} {count : Nat}
    (h : songItem? entry.toList = some (name, count)) (sections : List Section) :
    playedBy sections entry
      = ((sections.find? fun s => s.name == String.ofList name).map (List.replicate count)).getD [] := by
  rw [playedBy, h]
  dsimp only
  cases sections.find? fun s => s.name == String.ofList name <;> rfl

/-- An entry plays what as many entries play that each play the section once. -/
theorem playedBy_eq_flatMap_replicate {entry plain : String} {count : Nat}
    (h : songItem? entry.toList = some (name, count)) (hplain : songItem? plain.toList = some (name, 1))
    (sections : List Section) :
    playedBy sections entry = (List.replicate count plain).flatMap (playedBy sections) := by
  rw [List.flatMap_replicate, playedBy_of_songItem? h, playedBy_of_songItem? hplain]
  cases sections.find? fun s => s.name == String.ofList name with
  | none => simp
  | some found => simp

/-- A section whose name is on one line, with a number of repeats behind it, is played that often, though
no more often than there can be repeats, as long as the digits are those of ASCII.  Digits of other
scripts are read as the most repeats, which is right only where the number is at least as large.  The
entry then stands for as many entries, in its place, that play the section once. -/
theorem order_of_repeated (hne : name ≠ []) (hname : Text.IsTrimmed name) (hline : '\n' ∉ name)
    (hlink : link ∈ repeatLinks) (hsome : digits ≠ [])
    (hdigits : ∀ c ∈ digits, Text.isDecimalDigit c = true) :
    let entry := name ++ (link ++ digits)
    let number := Text.decimalValue digits
    let count := if digits.all Char.isDigit then min number mostRepeats else mostRepeats
    songItem? entry = some (name, count)
      ∧ (count = min number mostRepeats
        ↔ (∀ c ∈ digits, c.isDigit = true) ∨ mostRepeats ≤ number)
      ∧ ∀ value sections before behind,
        entriesOf? value = some (before ++ String.ofList entry :: behind) →
          (∀ found, (sections.find? fun s => s.name == String.ofList name) = some found →
            order value sections = order (listed before) sections ++ List.replicate count found
              ++ order (listed behind) sections)
          ∧ ∀ plain : String, songItem? plain.toList = some (name, 1) →
            order value sections
              = order (listed (before ++ List.replicate count plain ++ behind)) sections := by
  intro entry number count
  have hitem : songItem? entry = some (name, count) :=
    songItem?_append hne hname hline hlink hsome hdigits
  refine ⟨hitem, ?_, fun value sections before behind hvalue => ?_⟩
  · show (if digits.all Char.isDigit then min number mostRepeats else mostRepeats) = _ ↔ _
    rw [← List.all_eq_true]
    split
    · next hall => exact iff_of_true rfl (Or.inl hall)
    · next hother =>
      rw [or_iff_right hother]
      omega
  · have hentry : songItem? (String.ofList entry).toList = some (name, count) := by
      rw [String.toList_ofList]
      exact hitem
    rw [order_of_entriesOf? hvalue, List.flatMap_append, List.flatMap_cons]
    refine ⟨fun found hfound => ?_, fun plain hplain => ?_⟩
    · rw [order_of_entriesOf? (entriesOf?_listed before),
        order_of_entriesOf? (entriesOf?_listed behind), playedBy_of_songItem? hentry, hfound,
        List.append_assoc]
      rfl
    · rw [order_of_entriesOf? (entriesOf?_listed _), List.flatMap_append, List.flatMap_append,
        playedBy_eq_flatMap_replicate hentry hplain, List.append_assoc]

/-- A section with a name that looks like two repeats, played twelve times between two others. -/
theorem order_of_repeated_of_misleading_name :
    let name := "b x 2*3 x".toList
    let entry := name ++ (" x ".toList ++ "12".toList)
    let sections : List Section := [⟨"a", []⟩, ⟨"b", []⟩, ⟨"b x 2*3 x", []⟩]
    name ≠ [] ∧ Text.IsTrimmed name ∧ '\n' ∉ name ∧ " x ".toList ∈ repeatLinks
      ∧ (∀ c ∈ "12".toList, Text.isDecimalDigit c = true)
      ∧ String.ofList entry = "b x 2*3 x x 12"
      ∧ songItem? entry = some (name, 12)
      ∧ order (listed ["a", "b x 2*3 x x 12", "b*2"]) sections
        = [⟨"a", []⟩] ++ List.replicate 12 ⟨"b x 2*3 x", []⟩ ++ [⟨"b", []⟩, ⟨"b", []⟩]
      ∧ order (listed ["a", "b x 2*3 x x 12", "b*2"]) sections
        = order (listed (["a"] ++ List.replicate 12 "b x 2*3 x*1" ++ ["b*2"])) sections := by
  intro name entry sections
  have hname : name ≠ [] ∧ Text.IsTrimmed name ∧ '\n' ∉ name ∧ " x ".toList ∈ repeatLinks := by
    decide
  have hdigits : ∀ c ∈ "12".toList, Text.isDecimalDigit c = true := fun c hc =>
    Text.isDecimalDigit_of_isDigit c (List.all_eq_true.mp (by decide : "12".toList.all Char.isDigit) c hc)
  have hentry : String.ofList entry = "b x 2*3 x x 12" := by decide
  obtain ⟨hne, htrimmed, hline, hlink⟩ := hname
  obtain ⟨hitem, -, horder⟩ :=
    order_of_repeated hne htrimmed hline hlink (by decide : "12".toList ≠ []) hdigits
  obtain ⟨hfound, hplain⟩ := horder (listed ["a", "b x 2*3 x x 12", "b*2"]) sections ["a"] ["b*2"]
    (by rw [entriesOf?_listed]; rfl)
  exact ⟨hne, htrimmed, hline, hlink, hdigits, hentry, hitem, hfound ⟨"b x 2*3 x", []⟩ (by decide),
    hplain "b x 2*3 x*1" (by decide)⟩

/-- Three repeats in Arabic digits are read as ten thousand. -/
theorem repeats_in_arabic_digits_are_too_many :
    let name := "a".toList
    let entry := name ++ (" x".toList ++ ['٣'])
    name ≠ [] ∧ Text.IsTrimmed name ∧ '\n' ∉ name ∧ " x".toList ∈ repeatLinks
      ∧ (∀ c ∈ ['٣'], Text.isDecimalDigit c = true)
      ∧ Text.decimalValue ['٣'] = 3
      ∧ songItem? entry = some (name, 10000)
      ∧ songItem? entry ≠ some (name, min (Text.decimalValue ['٣']) mostRepeats)
      ∧ order (listed [String.ofList entry]) [⟨"a", []⟩] ≠ List.replicate 3 ⟨"a", []⟩ := by
  intro name entry
  have hitem : songItem? entry = some (name, 10000) := by decide
  have hname : name ≠ [] ∧ Text.IsTrimmed name ∧ '\n' ∉ name ∧ " x".toList ∈ repeatLinks := by
    decide
  have hthree : Text.isDecimalDigit '٣' = true ∧ Text.decimalValue ['٣'] = 3 := by decide
  obtain ⟨hne, htrimmed, hline, hlink⟩ := hname
  refine ⟨hne, htrimmed, hline, hlink, List.forall_mem_singleton.mpr hthree.1, hthree.2, hitem, ?_,
    fun horder => ?_⟩
  · rw [hitem, hthree.2]
    decide
  · have hentry : songItem? (String.ofList entry).toList = some (name, 10000) := by
      rw [String.toList_ofList]
      exact hitem
    have hlength := congrArg List.length horder
    rw [order_of_entriesOf? (entriesOf?_listed _), List.flatMap_singleton,
      playedBy_of_songItem? hentry] at hlength
    have hfind : ([⟨"a", []⟩] : List Section).find? (fun s => s.name == String.ofList name)
        = some ⟨"a", []⟩ := by
      decide
    rw [hfind, Option.map_some, Option.getD_some, List.length_replicate,
      List.length_replicate] at hlength
    exact absurd hlength (by decide)

end Song

end Stave
