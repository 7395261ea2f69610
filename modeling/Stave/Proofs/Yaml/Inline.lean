import Mathlib.Data.List.TakeWhile
import Stave.Yaml.Scalar

/-!
# Scalars within a line

What the readers of scalars give for a scalar that stands on one line, whatever comes behind it: for a
plain scalar a colon, a comment, or a line that is indented less; for a quoted one anything but a
second quote.
-/

namespace Stave.Yaml

/-! ## Spacing within a line -/

theorem breaksOf_cons {c : Char} (h : isBreak c = false) (rest : List Char) :
    breaksOf (c :: rest) = breaksOf rest := by
  have hreturn : c ≠ '\r' := by
    rintro rfl
    cases h
  rw [breaksOf, if_neg, if_neg (by simp [h])]
  · intro hbreak
    rw [isBreak] at h
    simp_all
  · intro rest' hc
    exact absurd hc hreturn

theorem breaksOf_eq_nil {gap : List Char} (h : ∀ c ∈ gap, isBreak c = false) : breaksOf gap = [] := by
  induction gap with
  | nil => rw [breaksOf]
  | cons c rest ih =>
    rw [breaksOf_cons (h c List.mem_cons_self)]
    exact ih fun d hd => h d (List.mem_cons_of_mem c hd)

theorem foldGap_eq_self {gap : List Char} (h : ∀ c ∈ gap, isBreak c = false) : foldGap gap = gap := by
  rw [foldGap, breaksOf_eq_nil h]

/-- Only a tab behind a break can be stray. -/
theorem hasStrayTab_eq_false {indent : Nat} {gap : List Char}
    (h : '\t' ∉ gap ∨ ∀ c ∈ gap, isBreak c = false) : hasStrayTab indent gap = false := by
  rcases h with htab | hbreak
  · rw [hasStrayTab]
    generalize (none : Option Nat) = column
    induction gap generalizing column with
    | nil => rfl
    | cons c rest ih =>
      have hc : (c == '\t') = false := by
        simpa using fun heq : c = '\t' => htab (heq ▸ List.mem_cons_self)
      have hrest := ih fun hmem => htab (List.mem_cons_of_mem c hmem)
      rw [List.foldl_cons]
      by_cases hbreak : isBreak c = true
      · simpa [hbreak] using hrest (some 0)
      · simpa [hbreak, hc] using hrest (column.map (· + 1))
  · rw [hasStrayTab]
    induction gap with
    | nil => rfl
    | cons c rest ih =>
      have hc : isBreak c = false := hbreak c List.mem_cons_self
      rw [List.foldl_cons]
      simpa [hc] using ih fun d hd => hbreak d (List.mem_cons_of_mem c hd)

/-- The first part of a text, the gap behind it, and the rest. -/
theorem exists_parts (text : List Char) :
    ∃ word gap next, text = word ++ (gap ++ next) ∧ (∀ c ∈ word, isSpacing c = false)
      ∧ (∀ c ∈ gap, isSpacing c = true) ∧ (∀ c ∈ next.head?, isSpacing c = false)
      ∧ (gap = [] → next = []) := by
  have hparts := List.takeWhile_append_dropWhile (p := fun c => !isSpacing c) (l := text)
  have hword : ∀ c ∈ text.takeWhile (fun c => !isSpacing c), isSpacing c = false := fun c hc => by
    simpa using List.mem_takeWhile_imp hc
  have hfirst := List.head?_dropWhile_not (fun c => !isSpacing c) text
  generalize text.dropWhile (fun c => !isSpacing c) = behind at hparts hfirst
  have hbehind := List.takeWhile_append_dropWhile (p := isSpacing) (l := behind)
  have hnext := List.head?_dropWhile_not isSpacing behind
  refine ⟨_, _, _, by rw [hbehind, hparts], hword, fun c hc => List.mem_takeWhile_imp hc,
    fun c hc => ?_, fun hgap => ?_⟩
  · rw [Option.mem_def.mp hc] at hnext
    exact hnext
  · -- what is behind the first part begins with spacing
    cases behind with
    | nil => rfl
    | cons c rest =>
      have hc : isSpacing c = true := by simpa using hfirst
      rw [List.takeWhile_cons_of_pos hc] at hgap
      cases hgap

/-! ## Plain scalars -/

/-- Whether a text goes on as a plain scalar to its end, without a break. -/
def staysPlain : (afterSpacing : Bool) → List Char → Bool
  | _, [] => true
  | afterSpacing, c :: rest =>
    !isBreak c && !(c == ':' && startsBlank rest) && !(afterSpacing && c == '#')
      && staysPlain (isSpacing c) rest

/-- Whether a text begins a plain scalar. -/
def beginsPlain : List Char → Bool
  | [] => false
  | c :: rest =>
    !isSpacing c && c != byteOrderMark
      && (!isIndicator c || (['-', '?', ':'].contains c && !startsBlank rest))

/-- A text that can be written as a plain scalar within a line. -/
structure IsPlain (text : List Char) : Prop where
  begins : beginsPlain text = true
  stays : staysPlain false text = true
  last : ∀ c ∈ text.getLast?, isSpacing c = false
  allowed : ∀ c ∈ text, isAllowed c = true

theorem IsPlain.ne_nil {text : List Char} (h : IsPlain text) : text ≠ [] := by
  rintro rfl
  cases h.begins

theorem IsPlain.head {text : List Char} (h : IsPlain text) :
    ∀ c ∈ text.head?, isSpacing c = false ∧ c ≠ '#' ∧ c ≠ byteOrderMark := by
  intro c hc
  obtain ⟨rest, rfl⟩ := List.head?_eq_some_iff.mp hc
  have hbegins := h.begins
  simp only [beginsPlain, Bool.and_eq_true, Bool.not_eq_true', bne_iff_ne] at hbegins
  refine ⟨hbegins.1.1, ?_, hbegins.1.2⟩
  rintro rfl
  exact absurd hbegins.2 (by simp [isIndicator])

theorem staysPlain_append {afterSpacing : Bool} {a b : List Char}
    (h : staysPlain afterSpacing (a ++ b) = true) (hne : a ≠ []) :
    staysPlain (a.getLast?.any isSpacing) b = true := by
  induction a generalizing afterSpacing with
  | nil => exact absurd rfl hne
  | cons c rest ih =>
    rw [List.cons_append, staysPlain, Bool.and_eq_true] at h
    cases rest with
    | nil => simpa using h.2
    | cons d more =>
      rw [List.getLast?_cons_cons]
      exact ih h.2 (List.cons_ne_nil d more)

theorem isBreak_of_staysPlain {afterSpacing : Bool} {text : List Char}
    (h : staysPlain afterSpacing text = true) : ∀ c ∈ text, isBreak c = false := by
  induction text generalizing afterSpacing with
  | nil => exact fun c hc => absurd hc List.not_mem_nil
  | cons d rest ih =>
    rw [staysPlain] at h
    simp only [Bool.and_eq_true, Bool.not_eq_true'] at h
    intro c hc
    rcases List.mem_cons.mp hc with rfl | hc
    · exact h.1.1.1
    · exact ih h.2 c hc

namespace PlainScalar

/-- What a part of a plain scalar ends before. -/
def EndsPart (tail : List Char) : Prop :=
  ∀ c rest, tail = c :: rest → isSpacing c = true ∨ c = ':' ∧ startsBlank rest = true

theorem startsBlank_append {a : List Char} (hne : a ≠ []) (b : List Char) :
    startsBlank (a ++ b) = startsBlank a := by
  cases a with
  | nil => exact absurd rfl hne
  | cons c rest => rfl

theorem chunk_append {afterSpacing : Bool} {word behind tail : List Char}
    (hword : ∀ c ∈ word, isSpacing c = false) (hbehind : ∀ c ∈ behind.head?, isSpacing c = true)
    (h : staysPlain afterSpacing (word ++ behind) = true) (htail : EndsPart tail)
    (done : List Char) :
    chunk false done (word ++ (behind ++ tail)) = some (done.reverse ++ word, behind ++ tail) := by
  induction word generalizing afterSpacing done with
  | nil =>
    cases behind with
    | nil =>
      cases tail with
      | nil => simp [chunk]
      | cons c rest =>
        rcases htail c rest rfl with hspacing | ⟨rfl, hblank⟩
        · simp [chunk, hspacing]
        · simp [chunk, hblank, show isSpacing ':' = false from rfl]
    | cons c rest => simp [chunk, hbehind c rfl]
  | cons c rest ih =>
    have hc : isSpacing c = false := hword c List.mem_cons_self
    rw [List.cons_append, staysPlain] at h
    simp only [Bool.and_eq_true, Bool.not_eq_true'] at h
    obtain ⟨⟨⟨-, hcolon⟩, -⟩, hrest⟩ := h
    -- a colon within the text is followed by something else than a blank
    have hgoes : (c == ':' && startsBlank (rest ++ (behind ++ tail))) = false := by
      rw [← List.append_assoc]
      generalize rest ++ behind = more at hcolon
      cases more with
      | nil =>
        have hnot : (c == ':') = false := by simpa [startsBlank] using hcolon
        rw [hnot, Bool.false_and]
      | cons d more => rwa [startsBlank_append (List.cons_ne_nil d more)]
    rw [List.cons_append, chunk, if_neg (by simp [hc])]
    simp only [Bool.false_and, Bool.false_eq_true, if_false, hgoes]
    rw [ih (fun d hd => hword d (List.mem_cons_of_mem c hd)) hrest]
    simp

/-- What a plain scalar ends before, when its lines are indented by `indent`: a colon, a comment or a
line that is indented less. -/
structure Stops (indent : Nat) (tail : List Char) : Prop where
  endsPart : EndsPart tail
  noTab : '\t' ∉ tail.takeWhile isSpacing
  behind : tail.takeWhile isSpacing ≠ [] → (tail.dropWhile isSpacing).head? = some '#'
    ∨ breaksOf (tail.takeWhile isSpacing) ≠ []
      ∧ columnAfterBreak (tail.takeWhile isSpacing) < indent

/-- A part of a scalar, and how it goes on behind the part. -/
theorem read_part {indent fuel : Nat} {gap done text found rest : List Char}
    (hgap : ∀ c ∈ gap, isBreak c = false) (hcomment : text.head? ≠ some '#')
    (hchunk : chunk false [] text = some (found, rest)) (hfound : found ≠ []) :
    read false indent (fuel + 1) gap done text
      = if (rest.takeWhile isSpacing).isEmpty then some ⟨done ++ gap ++ found, rest, false⟩
        else if hasStrayTab indent (rest.takeWhile isSpacing) then none
        else if !(breaksOf (rest.takeWhile isSpacing)).isEmpty
            && columnAfterBreak (rest.takeWhile isSpacing) < indent then
          some ⟨done ++ gap ++ found, rest.dropWhile isSpacing, true⟩
        else
          read false indent fuel (rest.takeWhile isSpacing) (done ++ gap ++ found)
            (rest.dropWhile isSpacing) := by
  have hempty : found.isEmpty = false := by simpa using hfound
  rw [read]
  simp only [breaksOf_eq_nil hgap, foldGap_eq_self hgap]
  rw [if_neg (by simp [hcomment]), hchunk, Option.bind_some]
  simp only [hempty]
  rfl

/-- What comes behind the last part of a scalar ends it. -/
theorem read_last {indent fuel : Nat} {gap done text found tail : List Char}
    (h : Stops indent tail) (hgap : ∀ c ∈ gap, isBreak c = false) (hcomment : text.head? ≠ some '#')
    (hchunk : chunk false [] text = some (found, tail)) (hfound : found ≠ []) :
    read false indent (fuel + 2) gap done text
      = some ⟨done ++ gap ++ found, tail.dropWhile isSpacing,
          !(breaksOf (tail.takeWhile isSpacing)).isEmpty⟩ := by
  rw [read_part hgap hcomment hchunk hfound]
  split
  · next hnone =>
    rw [List.isEmpty_iff] at hnone
    have hall : tail.dropWhile isSpacing = tail := by
      simpa [hnone] using List.takeWhile_append_dropWhile (p := isSpacing) (l := tail)
    rw [hnone, hall]
    rfl
  · next hsome =>
    rw [List.isEmpty_iff] at hsome
    rw [if_neg (by simp [hasStrayTab_eq_false (.inl h.noTab)])]
    split
    · next hless =>
      rw [Bool.and_eq_true] at hless
      rw [hless.1]
    · next hmore =>
      -- the line goes on, so it must be a comment
      have hmark : (tail.dropWhile isSpacing).head? = some '#' := by
        refine (h.behind hsome).resolve_right fun hless => hmore ?_
        simp [hless.1, hless.2]
      rw [read, if_pos (by simp [hmark])]

/-- Text with no spacing around it begins with a part, and behind the spacing after this part the text
goes on. -/
theorem exists_first_part {text : List Char} (hne : text ≠ [])
    (hfirst : ∀ c ∈ text.head?, isSpacing c = false) (hlast : ∀ c ∈ text.getLast?, isSpacing c = false) :
    ∃ c part between next, text = (c :: part) ++ (between ++ next)
      ∧ (∀ d ∈ c :: part, isSpacing d = false) ∧ (∀ d ∈ between, isSpacing d = true)
      ∧ (∀ d ∈ (between ++ next).head?, isSpacing d = true)
      ∧ (between = [] ∧ next = [] ∨ between ≠ [] ∧ ∃ d more, next = d :: more ∧ isSpacing d = false) := by
  obtain ⟨word, between, next, rfl, hword, hspacing, hnext, hnone⟩ := exists_parts text
  have hbehind : ∀ d ∈ (between ++ next).head?, isSpacing d = true := by
    cases between with
    | nil => simp [hnone rfl]
    | cons d rest => exact fun c hc => hspacing c (List.mem_of_mem_head? hc)
  obtain ⟨c, part, rfl⟩ : ∃ c part, word = c :: part := by
    cases word with
    | cons c part => exact ⟨c, part, rfl⟩
    | nil =>
      obtain ⟨c, rest, hcons⟩ := List.exists_cons_of_ne_nil hne
      have hc := hbehind c (by rw [← List.nil_append (between ++ next), hcons]; rfl)
      rw [hfirst c (by rw [hcons]; rfl)] at hc
      cases hc
  refine ⟨c, part, between, next, rfl, hword, hspacing, hbehind, ?_⟩
  by_cases hgapless : between = []
  · exact .inl ⟨hgapless, hnone hgapless⟩
  · refine .inr ⟨hgapless, ?_⟩
    cases next with
    | cons d more => exact ⟨d, more, rfl, hnext d rfl⟩
    | nil =>
      obtain ⟨e, he⟩ := Option.isSome_iff_exists.mp (List.getLast?_isSome.mpr hgapless)
      have hend := hlast e (by rw [List.append_nil, List.getLast?_append, he]; rfl)
      rw [hspacing e (List.mem_of_getLast? he)] at hend
      cases hend

/-- A plain scalar is read part by part up to its end. -/
theorem read_append {indent : Nat} {tail : List Char} (h : Stops indent tail) {fuel : Nat}
    {gap done text : List Char} {afterSpacing : Bool} (hfuel : text.length < fuel)
    (hgap : ∀ c ∈ gap, isBreak c = false) (hfirst : ∀ c ∈ text.head?, isSpacing c = false ∧ c ≠ '#')
    (hne : text ≠ []) (hstays : staysPlain afterSpacing text = true)
    (hlast : ∀ c ∈ text.getLast?, isSpacing c = false) :
    read false indent fuel gap done (text ++ tail)
      = some ⟨done ++ gap ++ text, tail.dropWhile isSpacing,
          !(breaksOf (tail.takeWhile isSpacing)).isEmpty⟩ := by
  induction fuel generalizing gap done text afterSpacing with
  | zero => omega
  | succ fuel ih =>
    obtain ⟨c, part, between, next, rfl, hword, hspacing, hbehind, hnext⟩ :=
      exists_first_part hne (fun c hc => (hfirst c hc).1) hlast
    have hchunk := chunk_append hword hbehind hstays h.endsPart []
    have hc : c ≠ '#' := (hfirst c rfl).2
    have hcomment : ((c :: part) ++ (between ++ next) ++ tail).head? ≠ some '#' := by simpa using hc
    rw [← List.append_assoc, List.reverse_nil, List.nil_append] at hchunk
    rcases hnext with ⟨rfl, rfl⟩ | ⟨hgapless, d, more, rfl, hd⟩
    · -- the last part
      rw [List.append_nil, List.append_nil] at hcomment hchunk hfuel ⊢
      rw [List.nil_append] at hchunk
      obtain ⟨fuel, rfl⟩ : ∃ n, fuel = n + 1 := ⟨fuel - 1, by rw [List.length_cons] at hfuel; omega⟩
      exact read_last h hgap hcomment hchunk (List.cons_ne_nil c part)
    · -- the gap is within the line, and something follows it
      have hline : ∀ d ∈ between, isBreak d = false := fun d hd =>
        isBreak_of_staysPlain hstays d (by simp [hd])
      have htake : (between ++ d :: more ++ tail).takeWhile isSpacing = between := by
        rw [List.append_assoc, List.takeWhile_append_of_pos hspacing]
        simp [hd]
      have hdrop : (between ++ d :: more ++ tail).dropWhile isSpacing = d :: more ++ tail := by
        rw [List.append_assoc, List.dropWhile_append_of_pos hspacing]
        simp [hd]
      have hstaysNext : staysPlain true (d :: more) = true := by
        rw [← List.append_assoc] at hstays
        have hsplit := staysPlain_append hstays (by simp)
        obtain ⟨e, he⟩ := Option.isSome_iff_exists.mp (List.getLast?_isSome.mpr hgapless)
        rw [List.getLast?_append, he] at hsplit
        simpa [hspacing e (List.mem_of_getLast? he)] using hsplit
      have hmark : d ≠ '#' := by
        rintro rfl
        simp [staysPlain] at hstaysNext
      have hshorter : (d :: more).length < fuel := by
        simp only [List.length_append, List.length_cons] at hfuel ⊢
        omega
      rw [read_part hgap hcomment hchunk (List.cons_ne_nil c part), htake, hdrop,
        if_neg (by simpa using hgapless), if_neg (by simp [hasStrayTab_eq_false (.inr hline)]),
        if_neg (by simp [breaksOf_eq_nil hline]),
        ih hshorter hline (by simp [hd, hmark]) (List.cons_ne_nil d more) hstaysNext ?_]
      · simp
      · intro f hf
        refine hlast f ?_
        rw [← List.append_assoc, List.getLast?_append, Option.mem_def.mp hf]
        rfl

/-- A plain scalar within a line, read up to what ends it. -/
theorem ofText?_append {indent : Nat} {text tail : List Char} (htext : IsPlain text)
    (h : Stops indent tail) :
    ofText? false indent (text ++ tail)
      = some ⟨text, tail.dropWhile isSpacing, !(breaksOf (tail.takeWhile isSpacing)).isEmpty⟩ := by
  have hfuel : text.length < (text ++ tail).length + 1 := by
    rw [List.length_append]
    omega
  have hfirst : ∀ c ∈ text.head?, isSpacing c = false ∧ c ≠ '#' := fun c hc =>
    ⟨(htext.head c hc).1, (htext.head c hc).2.1⟩
  rw [ofText?, read_append h hfuel (by simp) hfirst htext.ne_nil htext.stays htext.last]
  simp

end PlainScalar

/-! ## Quoted scalars -/

/-- The mark around a quoted scalar. -/
def quoteMark (double : Bool) : Char := if double then '"' else '\''

/-- A character as it is written in quotes: a single quote in single quotes is written twice. -/
def inQuotes (double : Bool) (c : Char) : List Char :=
  if !double && c == '\'' then ['\'', '\''] else [c]

/-- A text that can be written in quotes within a line. -/
structure IsQuotable (double : Bool) (text : List Char) : Prop where
  oneLine : ∀ c ∈ text, isBreak c = false
  allowed : ∀ c ∈ text, isAllowed c = true
  unescaped : double = true → ∀ c ∈ text, c ≠ '"' ∧ c ≠ '\\'

theorem inQuotes_of_isSpacing {c : Char} (h : isSpacing c = true) (double : Bool) :
    inQuotes double c = [c] := by
  rw [inQuotes, if_neg]
  rintro hquote
  rw [Bool.and_eq_true, beq_iff_eq] at hquote
  rw [hquote.2] at h
  cases h

theorem flatMap_inQuotes_of_isSpacing {gap : List Char} (h : ∀ c ∈ gap, isSpacing c = true)
    (double : Bool) : gap.flatMap (inQuotes double) = gap := by
  induction gap with
  | nil => rfl
  | cons c rest ih =>
    rw [List.flatMap_cons, inQuotes_of_isSpacing (h c List.mem_cons_self),
      ih fun d hd => h d (List.mem_cons_of_mem c hd), List.singleton_append]

/-- What a part of a quoted scalar ends before: spacing, or the closing quote. -/
def EndsQuotedPart (double : Bool) (tail : List Char) : Prop :=
  ∃ c rest, tail = c :: rest
    ∧ (isSpacing c = true ∨ c = quoteMark double ∧ (double = false → rest.head? ≠ some '\''))

theorem quotedPart_append {double : Bool} {word tail : List Char}
    (hword : ∀ c ∈ word, isSpacing c = false)
    (hplain : double = true → ∀ c ∈ word, c ≠ '"' ∧ c ≠ '\\') (htail : EndsQuotedPart double tail)
    {fuel : Nat} (hfuel : word.length < fuel) (done : List Char) :
    quotedPart double fuel done (word.flatMap (inQuotes double) ++ tail)
      = some ⟨done.reverse ++ word, tail, false⟩ := by
  induction word generalizing fuel done with
  | nil =>
    obtain ⟨fuel, rfl⟩ : ∃ n, fuel = n + 1 := ⟨fuel - 1, by rw [List.length_nil] at hfuel; omega⟩
    obtain ⟨c, rest, rfl, hspacing | ⟨rfl, hrest⟩⟩ := htail
    · simp [quotedPart, hspacing]
    · cases double with
      | false => simp [quotedPart, quoteMark, hrest rfl, show isSpacing '\'' = false from rfl]
      | true => simp [quotedPart, quoteMark, show isSpacing '"' = false from rfl]
  | cons c rest ih =>
    obtain ⟨fuel, rfl⟩ : ∃ n, fuel = n + 1 := ⟨fuel - 1, by rw [List.length_cons] at hfuel; omega⟩
    have hc : isSpacing c = false := hword c List.mem_cons_self
    have hshorter : rest.length < fuel := by
      rw [List.length_cons] at hfuel
      omega
    have hrest := ih (fun d hd => hword d (List.mem_cons_of_mem c hd))
      (fun hdouble d hd => hplain hdouble d (List.mem_cons_of_mem c hd)) hshorter (c :: done)
    rw [List.flatMap_cons, List.append_assoc]
    cases double with
    | true =>
      obtain ⟨hquote, hescape⟩ := hplain rfl c List.mem_cons_self
      simpa [inQuotes, quotedPart, hc, hquote, hescape] using hrest
    | false =>
      by_cases hquote : c = '\''
      · subst hquote
        simpa [inQuotes, quotedPart, hc] using hrest
      · simpa [inQuotes, quotedPart, hc, hquote] using hrest

theorem isSpacing_quoteMark (double : Bool) : isSpacing (quoteMark double) = false := by
  cases double <;> rfl

/-- What is written of a quoted scalar behind a gap begins with no spacing. -/
theorem takeWhile_gap {gap next : List Char} (hgap : ∀ c ∈ gap, isSpacing c = true)
    (hnext : ∀ c ∈ next.head?, isSpacing c = false) (double : Bool) (tail : List Char) :
    (gap ++ (next.flatMap (inQuotes double) ++ quoteMark double :: tail)).takeWhile isSpacing = gap
      ∧ (gap ++ (next.flatMap (inQuotes double) ++ quoteMark double :: tail)).dropWhile isSpacing
        = next.flatMap (inQuotes double) ++ quoteMark double :: tail := by
  have hmark := isSpacing_quoteMark double
  have hhead : ∀ c ∈ (next.flatMap (inQuotes double) ++ quoteMark double :: tail).head?,
      isSpacing c = false := by
    intro c hc
    cases next with
    | nil =>
      have heq : quoteMark double = c := by simpa using hc
      rw [← heq, hmark]
    | cons d more =>
      have hd : isSpacing d = false := hnext d rfl
      rw [List.flatMap_cons, inQuotes] at hc
      split at hc
      · have heq : '\'' = c := by simpa using hc
        rw [← heq]
        rfl
      · have heq : d = c := by simpa using hc
        rw [← heq, hd]
  rw [List.takeWhile_append_of_pos hgap, List.dropWhile_append_of_pos hgap]
  generalize next.flatMap (inQuotes double) ++ quoteMark double :: tail = written at hhead
  cases written with
  | nil => simp
  | cons c rest => simp [hhead c rfl]

theorem length_le_flatMap_inQuotes (double : Bool) (text : List Char) :
    text.length ≤ (text.flatMap (inQuotes double)).length := by
  induction text with
  | nil => exact Nat.le_refl 0
  | cons c rest ih =>
    have hc : 1 ≤ (inQuotes double c).length := by
      rw [inQuotes]
      split <;> simp
    rw [List.flatMap_cons, List.length_append, List.length_cons]
    omega

theorem readQuoted_append {double : Bool} {text tail : List Char} (h : IsQuotable double text)
    (htail : double = false → tail.head? ≠ some '\'') {fuel : Nat} (hfuel : text.length < fuel)
    (done : List Char) :
    readQuoted double fuel false done (text.flatMap (inQuotes double) ++ quoteMark double :: tail)
      = some (done ++ text, tail) := by
  induction fuel generalizing text done with
  | zero => omega
  | succ fuel ih =>
    obtain ⟨word, gap, next, rfl, hword, hgap, hnext, hlast⟩ := exists_parts text
    have hplain : double = true → ∀ c ∈ word, c ≠ '"' ∧ c ≠ '\\' := fun hdouble c hc =>
      h.unescaped hdouble c (List.mem_append_left _ hc)
    have hlength := length_le_flatMap_inQuotes double word
    rw [List.flatMap_append, List.flatMap_append, flatMap_inQuotes_of_isSpacing hgap, readQuoted,
      if_neg (by simp)]
    by_cases hnone : gap = []
    · -- the closing quote stands behind the part
      rw [hlast hnone, hnone, List.flatMap_nil, List.append_nil, List.append_nil,
        quotedPart_append hword hplain ⟨_, tail, rfl, .inr ⟨rfl, htail⟩⟩
          (by rw [List.length_append]; omega)]
      simp [quoteMark]
    · obtain ⟨hbetween, hbehind⟩ := takeWhile_gap hgap hnext double tail
      obtain ⟨c, rest, rfl⟩ := List.exists_cons_of_ne_nil hnone
      have hc : isSpacing c = true := hgap c List.mem_cons_self
      have hmark : ¬c = quoteMark double := fun heq => by simp [heq, isSpacing_quoteMark] at hc
      have hline : ∀ d ∈ c :: rest, isBreak d = false := fun d hd =>
        h.oneLine d (List.mem_append_right _ (List.mem_append_left _ hd))
      have hrest : IsQuotable double next :=
        ⟨fun d hd => h.oneLine d (by simp [hd]), fun d hd => h.allowed d (by simp [hd]),
          fun hdouble d hd => h.unescaped hdouble d (by simp [hd])⟩
      have hshorter : next.length < fuel := by
        simp only [List.length_append, List.length_cons] at hfuel
        omega
      have hends : EndsQuotedPart double
          (c :: rest ++ (next.flatMap (inQuotes double) ++ quoteMark double :: tail)) :=
        ⟨c, _, rfl, .inl hc⟩
      rw [List.append_assoc, List.append_assoc,
        quotedPart_append hword hplain hends (by rw [List.length_append]; omega), Option.bind_some,
        hbetween, hbehind]
      simp only [breaksOf_eq_nil hline, foldGap_eq_self hline]
      rw [if_neg (by simpa [quoteMark] using hmark)]
      simp only [List.isEmpty_nil, Bool.not_true, Bool.or_self, Bool.false_and, Bool.false_eq_true,
        if_false]
      rw [ih hrest hshorter]
      simp

/-- A quoted scalar within a line, read up to its closing quote. -/
theorem quoted?_append {double : Bool} {text tail : List Char} (h : IsQuotable double text)
    (htail : double = false → tail.head? ≠ some '\'') :
    quoted? double (text.flatMap (inQuotes double) ++ quoteMark double :: tail)
      = some (text, tail) := by
  have hlength := length_le_flatMap_inQuotes double text
  rw [quoted?, readQuoted_append h htail (by rw [List.length_append]; omega), List.nil_append]

end Stave.Yaml
