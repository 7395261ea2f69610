import Mathlib.Data.List.DropRight
import Mathlib.Data.List.Infix
import Stave.Proofs.Text.Lines
import Stave.Song.Repeats

/-!
# Which keys are renamed

The scopes that are kept while the lines of a document are clarified hold no more than a look back
over the lines says.  A key is renamed by the number of lines that have it at the same indentation,
as far back as no line has a key that is indented less; a pattern is quoted where two keys stand
around its own, the outer of them that of the sections.  Lines that begin otherwise, with a quoted
key for instance, are looked over.
-/

namespace Stave.Song

/-! ## Looking back -/

/-- The bytes that a line with a key is indented by. -/
def KeyedLine.indent (l : KeyedLine) : Nat := Text.width l.indentation

/-- How many of the lines before, the nearest first, have the key at the indentation, as far back as
no line has a key that is indented less. -/
def timesMet (indent : Nat) (key : List Char) : (before : List (List Char)) → Nat
  | [] => 0
  | line :: earlier =>
    match KeyedLine.read? line with
    | none => timesMet indent key earlier
    | some l =>
      if l.indent < indent then 0
      else (if l.indent = indent ∧ l.key = key then 1 else 0) + timesMet indent key earlier

/-- The keys around a place, the innermost first: the nearest key before that is indented less, and
what is around that. -/
def around (indent : Nat) : (before : List (List Char)) → List (List Char)
  | [] => []
  | line :: earlier =>
    match KeyedLine.read? line with
    | none => around indent earlier
    | some l => if l.indent < indent then l.key :: around l.indent earlier else around indent earlier

/-- Whether what stands within these keys are the instruments of a section. -/
def isSection : List (List Char) → Bool
  | [_, outer] => outer == sectionsKey
  | _ => false

/-- Whether an item of a list belongs to the instrument before it. -/
def inPatterns (indent : Nat) : (before : List (List Char)) → Bool
  | [] => false
  | line :: earlier =>
    match KeyedLine.read? line with
    | none => inPatterns indent earlier
    | some l => isSection (around l.indent earlier) && decide (l.indent ≤ indent)

/-- A line with a key, clarified in view of the lines before it. -/
def clarifiedKey (before : List (List Char)) (l : KeyedLine) : List Char :=
  let name := l.indentation ++ repeatName l.key (timesMet l.indent l.key before)
  match if isSection (around l.indent before) then quoted? l.value else none with
  | some pattern => name ++ ':' :: ' ' :: pattern
  | none => name ++ l.rest

/-- An item of a list, clarified in view of the lines before it. -/
def clarifiedItem (before : List (List Char)) (indentation rest : List Char) : List Char :=
  let line := indentation ++ '-' :: rest
  if inPatterns (Text.width indentation) before && rest.head?.any fun c => c == ' ' || c == '\t' then
    match quoted? rest with
    | some pattern => indentation ++ '-' :: ' ' :: pattern
    | none => line
  else line

/-- A line, clarified in view of the lines before it. -/
def clarifiedBehind (before : List (List Char)) (line : List Char) : List Char :=
  match KeyedLine.read? line with
  | some l => clarifiedKey before l
  | none =>
    match line.dropWhile Text.isBlank with
    | '-' :: rest => clarifiedItem before (line.takeWhile Text.isBlank) rest
    | _ => line

/-! ## The scopes -/

/-- How often the scope of an indentation has met a key. -/
def countIn (scopes : List Scope) (indent : Nat) (key : List Char) : Nat :=
  (scopes.find? fun s => s.indent == indent).elim 0 fun s => s.seen.count key

/-- The scopes around an indentation. -/
def outside (scopes : List Scope) (indent : Nat) : List Scope :=
  scopes.filter fun s => decide (s.indent < indent)

/-- The scopes that are kept hold what a look back finds. -/
structure Recalls (scopes : List Scope) (before : List (List Char)) : Prop where
  descending : scopes.Pairwise fun s t => t.indent < s.indent
  countIn_eq : ∀ indent key, countIn scopes indent key = timesMet indent key before
  outside_eq : ∀ indent, (outside scopes indent).map Scope.current = around indent before
  atInstruments_eq : ∀ indent,
    (atInstruments scopes && scopes.head?.any fun s => decide (s.indent ≤ indent))
      = inPatterns indent before

theorem recalls_nil : Recalls [] [] where
  descending := .nil
  countIn_eq _ _ := rfl
  outside_eq _ := rfl
  atInstruments_eq _ := rfl

/-- Scopes that are all indented less than that. -/
theorem outside_of_forall_lt {scopes : List Scope} {indent : Nat}
    (h : ∀ s ∈ scopes, s.indent < indent) : outside scopes indent = scopes :=
  List.filter_eq_self.mpr fun s hs => decide_eq_true (h s hs)

theorem countIn_of_forall_lt {scopes : List Scope} {indent : Nat}
    (h : ∀ s ∈ scopes, s.indent < indent) (key : List Char) : countIn scopes indent key = 0 := by
  have hnone : (scopes.find? fun s => s.indent == indent) = none := by
    simp only [List.find?_eq_none, beq_iff_eq]
    intro s hs heq
    have := h s hs
    omega
  rw [countIn, hnone]
  rfl

theorem countIn_cons_of_ne {s : Scope} {indent : Nat} (h : ¬s.indent = indent) (outer : List Scope)
    (key : List Char) : countIn (s :: outer) indent key = countIn outer indent key := by
  rw [countIn, List.find?_cons_of_neg (by simpa using h), countIn]

theorem enter_of_lt {s : Scope} {indent : Nat} (h : indent < s.indent) (outer : List Scope) :
    enter indent (s :: outer) = enter indent outer := by
  rw [enter, List.dropWhile_cons_of_pos (by simpa using h), enter]

theorem enter_of_eq {s : Scope} {indent : Nat} (h : s.indent = indent) (outer : List Scope) :
    enter indent (s :: outer) = s :: outer := by
  rw [enter, List.dropWhile_cons_of_neg (by simp [h])]
  simp [h]

theorem enter_of_gt {s : Scope} {indent : Nat} (h : s.indent < indent) (outer : List Scope) :
    enter indent (s :: outer) = ⟨indent, [], []⟩ :: s :: outer := by
  rw [enter, List.dropWhile_cons_of_neg (by simpa using Nat.le_of_lt h)]
  simp [Nat.ne_of_lt h]

/-- A key enters the scope of its indentation, within the scopes that are indented less. -/
theorem enter_eq {scopes : List Scope} (h : scopes.Pairwise fun s t => t.indent < s.indent)
    (indent : Nat) :
    ∃ scope, enter indent scopes = scope :: outside scopes indent ∧ scope.indent = indent
      ∧ ∀ key, scope.seen.count key = countIn scopes indent key := by
  induction scopes with
  | nil => exact ⟨⟨indent, [], []⟩, rfl, rfl, fun key => rfl⟩
  | cons s outer ih =>
    obtain ⟨hfirst, houter⟩ := List.pairwise_cons.mp h
    rcases Nat.lt_trichotomy s.indent indent with hless | hsame | hmore
    · -- a new scope opens
      have hall : ∀ t ∈ s :: outer, t.indent < indent := by
        intro t ht
        rcases List.mem_cons.mp ht with rfl | ht
        · exact hless
        · exact (hfirst t ht).trans hless
      refine ⟨⟨indent, [], []⟩, ?_, rfl, fun key => (countIn_of_forall_lt hall key).symm⟩
      rw [outside_of_forall_lt hall, enter_of_gt hless]
    · -- the scope goes on
      have houtside : outside (s :: outer) indent = outer := by
        rw [outside, List.filter_cons_of_neg (by simp [hsame])]
        exact outside_of_forall_lt fun t ht => hsame ▸ hfirst t ht
      refine ⟨s, ?_, hsame, fun key => ?_⟩
      · rw [houtside, enter_of_eq hsame]
      · simp [countIn, hsame]
    · -- the scope closes
      obtain ⟨scope, henter, hindent, hcount⟩ := ih houter
      have hne : ¬s.indent = indent := by omega
      refine ⟨scope, ?_, hindent, fun key => ?_⟩
      · rw [outside, List.filter_cons_of_neg (by simp; omega), ← outside, ← henter,
          enter_of_lt hmore]
      · rw [hcount, countIn_cons_of_ne hne]

theorem outside_outside {scopes : List Scope} {inner outer : Nat} (h : outer ≤ inner) :
    outside (outside scopes inner) outer = outside scopes outer := by
  rw [outside, outside, outside, List.filter_filter]
  congr 1
  funext s
  have : s.indent < outer → s.indent < inner := fun hlt => by omega
  by_cases hs : s.indent < outer <;> simp [hs, this]

theorem countIn_outside {scopes : List Scope} {inner outer : Nat} (h : outer < inner)
    (key : List Char) : countIn (outside scopes inner) outer key = countIn scopes outer key := by
  have hfind : ((outside scopes inner).find? fun s => s.indent == outer)
      = scopes.find? fun s => s.indent == outer := by
    rw [outside, List.find?_filter]
    congr 1
    funext s
    by_cases hs : s.indent = outer
    · simp [hs, h]
    · simp [hs]
  rw [countIn, hfind, countIn]

/-! ## The invariant -/

/-- The scopes behind a line with a key. -/
theorem snd_clarifyKey {scopes : List Scope} (h : scopes.Pairwise fun s t => t.indent < s.indent)
    (l : KeyedLine) :
    ∃ seen, (clarifyKey scopes l).2 = ⟨l.indent, l.key :: seen, l.key⟩ :: outside scopes l.indent
      ∧ ∀ key, seen.count key = countIn scopes l.indent key := by
  obtain ⟨scope, henter, hindent, hcount⟩ := enter_eq h l.indent
  refine ⟨scope.seen, ?_, hcount⟩
  rw [KeyedLine.indent] at henter
  rw [clarifyKey, henter]
  simp [hindent]
  rfl

theorem atInstruments_cons (s : Scope) (outer : List Scope) :
    atInstruments (s :: outer) = isSection (outer.map Scope.current) := by
  match outer with
  | [] => rfl
  | [_] => rfl
  | [_, _] => rfl
  | _ :: _ :: _ :: _ => rfl

theorem Recalls.key {scopes : List Scope} {before : List (List Char)} (h : Recalls scopes before)
    {line : List Char} {l : KeyedLine} (hl : KeyedLine.read? line = some l) :
    Recalls (clarifyKey scopes l).2 (line :: before) := by
  obtain ⟨seen, hscopes, hcount⟩ := snd_clarifyKey h.descending l
  rw [hscopes]
  constructor
  case descending =>
    refine List.pairwise_cons.mpr ⟨fun s hs => ?_, h.descending.filter _⟩
    exact of_decide_eq_true (List.mem_filter.mp hs).2
  case countIn_eq =>
    intro indent key
    simp only [timesMet, hl]
    rcases Nat.lt_trichotomy l.indent indent with hless | hsame | hmore
    · -- a key that is indented less closes the scope
      rw [if_pos hless]
      refine countIn_of_forall_lt (fun s hs => ?_) key
      rcases List.mem_cons.mp hs with rfl | hs
      · exact hless
      · exact (of_decide_eq_true (List.mem_filter.mp hs).2).trans hless
    · subst hsame
      simp only [Nat.lt_irrefl, if_false, true_and]
      rw [← h.countIn_eq, ← hcount]
      simp only [countIn, List.find?_cons, beq_self_eq_true, Option.elim_some, List.count_cons,
        beq_iff_eq]
      omega
    · have hne : ¬l.indent = indent := by omega
      rw [if_neg (by omega), if_neg (by simp [hne]), Nat.zero_add, ← h.countIn_eq,
        countIn_cons_of_ne hne, countIn_outside hmore]
  case outside_eq =>
    intro indent
    rw [around, hl]
    by_cases hless : l.indent < indent
    · have hall : ∀ s ∈ outside scopes l.indent, s.indent < indent := fun s hs =>
        (of_decide_eq_true (List.mem_filter.mp hs).2).trans hless
      simp only [if_pos hless]
      rw [outside, List.filter_cons_of_pos (by simpa using hless), ← outside,
        outside_of_forall_lt hall, List.map_cons, h.outside_eq]
    · simp only [if_neg hless]
      rw [outside, List.filter_cons_of_neg (by simpa using hless), ← outside,
        outside_outside (Nat.not_lt.mp hless), h.outside_eq]
  case atInstruments_eq =>
    intro indent
    rw [inPatterns, hl, atInstruments_cons, h.outside_eq]
    rfl

/-- A line that begins with a key, put together again. -/
theorem KeyedLine.read?_eq_some {line : List Char} {l : KeyedLine} (h : read? line = some l) :
    l.indentation = line.takeWhile Text.isBlank
      ∧ line.dropWhile Text.isBlank = l.key ++ l.rest
      ∧ ∃ c ∈ l.key.head?, startsKey c = true := by
  rw [read?] at h
  split at h
  · next c value hhead hvalue =>
    split at h
    · next hstarts =>
      cases h
      refine ⟨rfl, ?_, c, hhead, (Bool.and_eq_true_iff.mp hstarts).1⟩
      -- the key is cut from the front of the content
      have hcut := List.rdropWhile_prefix (· == ' ') (l := (line.dropWhile Text.isBlank).takeWhile inKey)
      exact (List.prefix_append_drop (hcut.trans (List.takeWhile_prefix _)))
    · cases h
  · cases h

/-- A line that begins with a key begins neither with a comment nor with an item. -/
theorem KeyedLine.exists_cons_of_read? {line : List Char} {l : KeyedLine}
    (h : read? line = some l) :
    ∃ c rest, line.dropWhile Text.isBlank = c :: rest ∧ c ≠ '#' ∧ c ≠ '-' := by
  obtain ⟨-, hcontent, c, hc, hstarts⟩ := read?_eq_some h
  obtain ⟨key, hkey⟩ := List.head?_eq_some_iff.mp hc
  refine ⟨c, key ++ l.rest, by rw [hcontent, hkey, List.cons_append], ?_, ?_⟩
  · rintro rfl
    cases hstarts
  · rintro rfl
    cases hstarts

theorem clarifyLine_of_read? {scopes : List Scope} {line : List Char} {l : KeyedLine}
    (hl : KeyedLine.read? line = some l) : clarifyLine scopes line = clarifyKey scopes l := by
  obtain ⟨c, rest, hcontent, hcomment, hitem⟩ := KeyedLine.exists_cons_of_read? hl
  rw [clarifyLine, hcontent]
  split <;> simp_all

theorem snd_clarifyLine_of_read?_eq_none {scopes : List Scope} {line : List Char}
    (hl : KeyedLine.read? line = none) : (clarifyLine scopes line).2 = scopes := by
  rw [clarifyLine, hl]
  split <;> rfl

theorem Recalls.line {scopes : List Scope} {before : List (List Char)} (h : Recalls scopes before)
    (line : List Char) : Recalls (clarifyLine scopes line).2 (line :: before) := by
  cases hl : KeyedLine.read? line with
  | some l =>
    rw [clarifyLine_of_read? hl]
    exact h.key hl
  | none =>
    rw [snd_clarifyLine_of_read?_eq_none hl]
    constructor
    case descending => exact h.descending
    case countIn_eq =>
      intro indent key
      simp only [timesMet, hl, h.countIn_eq]
    case outside_eq =>
      intro indent
      simp only [around, hl, h.outside_eq]
    case atInstruments_eq =>
      intro indent
      simp only [inPatterns, hl, h.atInstruments_eq]

theorem fst_clarifyKey {scopes : List Scope} {before : List (List Char)} (h : Recalls scopes before)
    (l : KeyedLine) : (clarifyKey scopes l).1 = clarifiedKey before l := by
  obtain ⟨scope, henter, hindent, hcount⟩ := enter_eq h.descending l.indent
  have hat : atInstruments (scope :: outside scopes l.indent) = isSection (around l.indent before) := by
    rw [atInstruments_cons, h.outside_eq]
  have hscopes : enter (Text.width l.indentation) scopes = scope :: outside scopes l.indent := henter
  rw [clarifyKey, hscopes]
  simp only [hat, hcount, h.countIn_eq]
  rfl

theorem clarifyItem_eq {scopes : List Scope} {before : List (List Char)} (h : Recalls scopes before)
    (indentation rest : List Char) :
    clarifyItem scopes indentation rest = clarifiedItem before indentation rest := by
  rw [clarifiedItem, ← h.atInstruments_eq]
  rfl

/-- A line is clarified as a look back says. -/
theorem fst_clarifyLine {scopes : List Scope} {before : List (List Char)}
    (h : Recalls scopes before) (line : List Char) :
    (clarifyLine scopes line).1 = clarifiedBehind before line := by
  cases hl : KeyedLine.read? line with
  | some l =>
    rw [clarifyLine_of_read? hl, fst_clarifyKey h, clarifiedBehind, hl]
  | none =>
    simp only [clarifyLine, clarifiedBehind, hl]
    cases hcontent : line.dropWhile Text.isBlank with
    | nil => rfl
    | cons c rest =>
      by_cases hcomment : c = '#'
      · rw [hcomment]
        rfl
      · by_cases hitem : c = '-'
        · rw [hitem]
          exact clarifyItem_eq h _ rest
        · simp [hcomment, hitem]

/-! ## All lines -/

/-- The lines, each clarified in view of those before it. -/
def clarifiedLines (before : List (List Char)) : List (List Char) → List (List Char)
  | [] => []
  | line :: rest => clarifiedBehind before line :: clarifiedLines (line :: before) rest

theorem clarifiedLines_eq_mapIdx (before lines : List (List Char)) :
    clarifiedLines before lines
      = lines.mapIdx fun i line => clarifiedBehind ((lines.take i).reverse ++ before) line := by
  induction lines generalizing before with
  | nil => rfl
  | cons line rest ih =>
    rw [clarifiedLines, ih, List.mapIdx_cons]
    simp

theorem toList_foldl_clarifyLine (lines : List (List Char)) (done : Array (List Char))
    {scopes : List Scope} {before : List (List Char)} (h : Recalls scopes before) :
    (lines.foldl (fun (done, scopes) line =>
        let (line, scopes) := clarifyLine scopes line
        (done.push line, scopes)) (done, scopes)).1.toList
      = done.toList ++ clarifiedLines before lines := by
  induction lines generalizing done scopes before with
  | nil => simp [clarifiedLines]
  | cons line rest ih =>
    rw [List.foldl_cons, ih _ (h.line line), clarifiedLines, fst_clarifyLine h]
    simp

theorem clarifyLines_eq_clarifiedLines (lines : List (List Char)) :
    clarifyLines lines = clarifiedLines [] lines := by
  rw [clarifyLines, toList_foldl_clarifyLine lines #[] recalls_nil]
  simp

/-- The lines of a text are clarified one by one, each in view of those before it. -/
theorem clarifyLines_eq (lines : List (List Char)) :
    clarifyLines lines
      = lines.mapIdx fun i line => clarifiedBehind (lines.take i).reverse line := by
  rw [clarifyLines_eq_clarifiedLines, clarifiedLines_eq_mapIdx]
  simp

/-! ## Look backs that find the same -/

/-- Whether two look backs find the same up to an indentation. -/
structure AlikeUpTo (indent : Nat) (a b : List (List Char)) : Prop where
  timesMet_eq : ∀ n ≤ indent, ∀ key, timesMet n key a = timesMet n key b
  around_eq : ∀ n ≤ indent, around n a = around n b

/-- Whether two look backs find the same. -/
structure Alike (a b : List (List Char)) : Prop where
  timesMet_eq : ∀ n key, timesMet n key a = timesMet n key b
  around_eq : ∀ n, around n a = around n b
  inPatterns_eq : ∀ n, inPatterns n a = inPatterns n b

/-- Lines without a key, or with one that is indented more, leave no trace up to an indentation. -/
theorem alikeUpTo_append {indent : Nat} {between : List (List Char)}
    (h : ∀ line ∈ between, ∀ l ∈ KeyedLine.read? line, indent < l.indent)
    (before : List (List Char)) : AlikeUpTo indent (between ++ before) before := by
  induction between with
  | nil => exact ⟨fun _ _ _ => rfl, fun _ _ => rfl⟩
  | cons line rest ih =>
    have hrest := ih fun other hother => h other (List.mem_cons_of_mem _ hother)
    cases hread : KeyedLine.read? line with
    | none =>
      constructor
      · intro n hn key
        simpa only [List.cons_append, timesMet, hread] using hrest.timesMet_eq n hn key
      · intro n hn
        simpa only [List.cons_append, around, hread] using hrest.around_eq n hn
    | some l =>
      have hdeeper : indent < l.indent := h line List.mem_cons_self l hread
      constructor
      · intro n hn key
        have hne : ¬(l.indent = n ∧ l.key = key) := by omega
        simp only [List.cons_append, timesMet, hread]
        rw [if_neg (by omega), if_neg hne, Nat.zero_add, hrest.timesMet_eq n hn]
      · intro n hn
        simp only [List.cons_append, around, hread]
        rw [if_neg (by omega), hrest.around_eq n hn]

/-- A line without a key leaves what is found up to an indentation. -/
theorem AlikeUpTo.skip {indent : Nat} {a b : List (List Char)} (h : AlikeUpTo indent a b)
    {line : List Char} (hread : KeyedLine.read? line = none) :
    AlikeUpTo indent (line :: a) (line :: b) := by
  constructor
  · intro n hn key
    simpa only [timesMet, hread] using h.timesMet_eq n hn key
  · intro n hn
    simpa only [around, hread] using h.around_eq n hn

/-- Behind a key that is indented no more than that the same is found everywhere. -/
theorem AlikeUpTo.key {indent : Nat} {a b : List (List Char)} (h : AlikeUpTo indent a b)
    {line : List Char} {l : KeyedLine} (hread : KeyedLine.read? line = some l)
    (hindent : l.indent ≤ indent) : Alike (line :: a) (line :: b) := by
  have haround := h.around_eq l.indent hindent
  constructor
  · intro n key
    simp only [timesMet, hread]
    split
    · rfl
    · rw [h.timesMet_eq n (by omega)]
  · intro n
    simp only [around, hread, haround]
    split
    · rfl
    · rw [h.around_eq n (by omega)]
  · intro n
    simp only [inPatterns, hread, haround]

theorem Alike.line {a b : List (List Char)} (h : Alike a b) (line : List Char) :
    Alike (line :: a) (line :: b) := by
  cases hread : KeyedLine.read? line with
  | none =>
    constructor
    · intro n key
      simpa only [timesMet, hread] using h.timesMet_eq n key
    · intro n
      simpa only [around, hread] using h.around_eq n
    · intro n
      simpa only [inPatterns, hread] using h.inPatterns_eq n
  | some l =>
    constructor
    · intro n key
      simp only [timesMet, hread, h.timesMet_eq]
    · intro n
      simp only [around, hread, h.around_eq]
    · intro n
      simp only [inPatterns, hread, h.around_eq]

theorem Alike.clarifiedBehind_eq {a b : List (List Char)} (h : Alike a b) (line : List Char) :
    clarifiedBehind a line = clarifiedBehind b line := by
  simp only [clarifiedBehind, clarifiedKey, clarifiedItem, h.timesMet_eq, h.around_eq,
    h.inPatterns_eq]

theorem Alike.clarifiedLines_eq {a b : List (List Char)} (h : Alike a b) (lines : List (List Char)) :
    clarifiedLines a lines = clarifiedLines b lines := by
  induction lines generalizing a b with
  | nil => rfl
  | cons line rest ih => rw [clarifiedLines, clarifiedLines, h.clarifiedBehind_eq, ih (h.line line)]

end Stave.Song
