import Stave.Proofs.Score.Positions
import Stave.Proofs.Text.Lines

/-!
# Reprinted notation

Notation can be printed from its tokens: a note with its octave, a chord as such notes within brackets,
anything else as it stands, and one space between two tokens.  What is printed has the tokens that it
is printed from, so that it says the same and leaves the same events.
-/

namespace Stave

/-! ## Notes -/

namespace Note

theorem splitAccidental_append (accidental : Option Accidental) (octave : Fin 10)
    (rest : List Char) :
    splitAccidental ((accidental.map Accidental.toChar).toList ++ Pitch.octaveDigit octave :: rest)
      = (accidental, Pitch.octaveDigit octave :: rest) := by
  cases accidental with
  | none =>
    have hdigit : ∀ o : Fin 10, Pitch.octaveDigit o ≠ '#' ∧ Pitch.octaveDigit o ≠ 'b' := by decide
    simp [splitAccidental, hdigit octave]
  | some a => cases a <;> rfl

theorem splitOctave_cons (octave : Fin 10) (rest : List Char) :
    splitOctave (Pitch.octaveDigit octave :: rest) = (octave, rest) := by
  have hdigit : ∀ o : Fin 10, (Pitch.octaveDigit o).isDigit = true
      ∧ Fin.ofNat 10 ((Pitch.octaveDigit o).toNat - '0'.toNat) = o := by decide
  rw [splitOctave, if_pos (hdigit octave).1, (hdigit octave).2]

theorem splitMark_append (mark : Char) (marked : Bool) {rest : List Char}
    (h : ∀ c ∈ rest.head?, c ≠ mark) :
    splitMark mark ((if marked then [mark] else []) ++ rest) = (marked, rest) := by
  cases marked with
  | true => simp [splitMark]
  | false =>
    cases rest with
    | nil => rfl
    | cons c rest => simp [splitMark, h c rfl]

/-- The first character of a written note gives its letter, and is in lower case if the note is soft. -/
theorem ofChar?_first (letter : Letter) (soft : Bool) :
    Letter.ofChar? (if soft then letter.toChar.toLower else letter.toChar).toUpper = some letter
      ∧ (if soft then letter.toChar.toLower else letter.toChar).isLower = soft := by
  cases letter <;> cases soft <;> decide

/-- A note is read back from its written form. -/
theorem read?_written (n : Note) : read? n.written = some n := by
  obtain ⟨⟨letter, accidental, octave⟩, dotted, tied, soft⟩ := n
  obtain ⟨hletter, hsoft⟩ := ofChar?_first letter soft
  have htie : splitMark '~' (if tied then ['~'] else []) = (tied, []) := by
    cases tied <;> simp [splitMark]
  have hdot : splitMark '.' ((if dotted then ['.'] else []) ++ (if tied then ['~'] else []))
      = (dotted, if tied then ['~'] else []) :=
    splitMark_append '.' dotted (by cases tied <;> simp)
  simp only [written, List.cons_append, List.append_assoc, List.nil_append, read?, hletter,
    Option.bind_some, splitAccidental_append, splitOctave_cons, hdot, htie, List.isEmpty_nil,
    if_true, hsoft]

theorem two_le_length_written (n : Note) : 2 ≤ n.written.length := by
  simp [written]
  omega

theorem written_ne_nil (n : Note) : n.written ≠ [] :=
  List.ne_nil_of_length_pos (Nat.lt_of_lt_of_le Nat.two_pos n.two_le_length_written)

/-- A written note is one word and has no bracket in it. -/
theorem isPlain_of_mem_written {n : Note} {c : Char} (h : c ∈ n.written) :
    Text.isBlank c = false ∧ Token.inWord c = true ∧ c ≠ ']' := by
  obtain ⟨⟨letter, accidental, octave⟩, dotted, tied, soft⟩ := n
  simp only [written, List.mem_append, List.mem_cons, List.not_mem_nil, or_false] at h
  rcases h with (((rfl | haccidental) | rfl) | hdot) | htie
  · cases letter <;> cases soft <;> decide
  · cases accidental with
    | none => cases haccidental
    | some a =>
      obtain rfl := List.mem_singleton.mp haccidental
      cases a <;> decide
  · revert octave
    decide
  · obtain rfl : c = '.' := by cases dotted <;> simp_all
    decide
  · obtain rfl : c = '~' := by cases tied <;> simp_all
    decide

end Note

/-! ## Texts that are one token -/

namespace Token

/-- Whether a text is one token by itself. -/
def IsWhole (text : List Char) : Prop := cuts text = [text]

theorem isWhole_of_cut {c : Char} (hc : c ≠ ' ') {rest : List Char} (h : cut c rest = (c :: rest, [])) :
    IsWhole (c :: rest) := by
  rw [IsWhole, cuts_of_ne_space hc, h, cuts]

theorem isWhole_bracket {inside : List Char} (h : ']' ∉ inside) :
    IsWhole ('[' :: (inside ++ [']'])) :=
  isWhole_of_cut (by decide) (cut_bracket h [])

theorem isWhole_word {text : List Char} (hne : text ≠ []) (h : ∀ c ∈ text, inWord c = true) :
    IsWhole text := by
  obtain ⟨c, rest, rfl⟩ := List.exists_cons_of_ne_nil hne
  obtain ⟨hc, hrest⟩ := List.forall_mem_cons.mp h
  rw [inWord, Bool.and_eq_true, bne_iff_ne, bne_iff_ne] at hc
  exact isWhole_of_cut hc.1 (cut_word hc.2 hrest)

/-- What is cut off a text is one token by itself, and closes its brackets unless nothing follows. -/
theorem isWhole_cut {c : Char} (hc : c ≠ ' ') (rest : List Char) :
    IsWhole (cut c rest).1 ∧ ((cut c rest).2 ≠ [] → closesBrackets (cut c rest).1 = true) := by
  by_cases hbracket : c = '['
  · subst hbracket
    by_cases hclose : ']' ∈ rest
    · obtain ⟨inside, behind, rfl, hinside⟩ := List.eq_append_cons_of_mem hclose
      rw [cut_bracket hinside]
      exact ⟨isWhole_bracket hinside, fun _ => closesBrackets_concat ('[' :: inside)⟩
    · rw [cut_open hclose]
      exact ⟨isWhole_of_cut hc (cut_open hclose), fun hbehind => absurd rfl hbehind⟩
  · have hword : ∀ d ∈ (cut c rest).1, inWord d = true := by
      rw [cut, if_neg hbracket, List.forall_mem_cons]
      exact ⟨by simp [inWord, hc, hbracket], fun d hd => List.mem_takeWhile_imp hd⟩
    have hopens : '[' ∉ (cut c rest).1 := fun hmem => absurd (hword _ hmem) (by decide)
    exact ⟨isWhole_word (cut_fst_ne_nil c rest) hword, fun _ => closesBrackets_of_notMem hopens⟩

/-- The tokens of a text are one token each by themselves, and all but the last close their brackets. -/
theorem isWhole_cuts (text : List Char) :
    (∀ raw ∈ cuts text, IsWhole raw)
      ∧ ∀ raw ∈ (cuts text).dropLast, closesBrackets raw = true := by
  fun_induction cuts text with
  | case1 => simp
  | case2 rest ih => exact ih
  | case3 c rest hspace ih =>
    obtain ⟨hwhole, hcloses⟩ := isWhole_cut hspace rest
    refine ⟨List.forall_mem_cons.mpr ⟨hwhole, ih.1⟩, ?_⟩
    by_cases hlast : cuts (cut c rest).2 = []
    · simp [hlast]
    · rw [List.dropLast_cons_of_ne_nil hlast, List.forall_mem_cons]
      refine ⟨hcloses fun hnil => hlast ?_, ih.2⟩
      rw [hnil, cuts]

end Token

/-! ## Printed tokens -/

namespace TokenKind

/-- The canonical text of a token that says this and stands as `raw`: a note as it is written, with its
octave, a chord with one space between its notes, and anything else as it stands. -/
def printed (raw : List Char) : TokenKind → List Char
  | .note n => n.written
  | .chord notes => '[' :: ([' '].intercalate (notes.map Note.written) ++ [']'])
  | .rest | .hit | .hold | .invalid => raw

theorem read_written (n : Note) : read n.written = note n := by
  have hread := n.read?_written
  have hlong := n.two_le_length_written
  have hopens : '[' ∉ n.written := fun hmem =>
    absurd (Note.isPlain_of_mem_written hmem).2.1 (by decide)
  generalize n.written = text at *
  unfold read
  split
  -- a rest, a stroke and a hold are one character, and a chord begins with a bracket
  case h_6 => exact absurd List.mem_cons_self hopens
  case h_7 => rw [hread]
  all_goals simp at hlong

theorem read_bracket (inside : List Char) :
    read ('[' :: (inside ++ [']'])) = ofMembers (Text.words inside) := by
  simp [read]

theorem ofMembers_eq_chord_iff {members : List (List Char)} {notes : List Note} :
    ofMembers members = chord notes ↔ members.mapM Note.read? = some notes ∧ notes ≠ [] := by
  unfold ofMembers
  split
  · next hnone => simp [hnone]
  · next hnil => simp [hnil]
  · next found hne hfound =>
    rw [hfound, chord.injEq, Option.some.injEq, iff_self_and]
    rintro rfl
    exact hne

theorem notes_ne_nil_of_read {raw : List Char} {notes : List Note} (h : read raw = chord notes) :
    notes ≠ [] := by
  unfold read at h
  split at h
  case h_6 =>
    split at h
    · exact (ofMembers_eq_chord_iff.mp h).2
    · cases h
  case h_7 => split at h <;> cases h
  all_goals cases h

theorem mapM_read?_written (notes : List Note) :
    (notes.map Note.written).mapM Note.read? = some notes := by
  induction notes with
  | nil => rfl
  | cons n rest ih => simp [Note.read?_written, ih]

theorem words_written (notes : List Note) :
    Text.words ([' '].intercalate (notes.map Note.written)) = notes.map Note.written := by
  refine Text.words_intercalate fun text htext => ?_
  obtain ⟨n, -, rfl⟩ := List.mem_map.mp htext
  exact ⟨n.written_ne_nil, fun c hc => (Note.isPlain_of_mem_written hc).1⟩

/-- What is printed says what it is printed from. -/
theorem read_printed (raw : List Char) : read ((read raw).printed raw) = read raw := by
  cases hread : read raw with
  | note n => exact read_written n
  | chord notes =>
    rw [printed, read_bracket, words_written, ofMembers_eq_chord_iff]
    exact ⟨mapM_read?_written notes, notes_ne_nil_of_read hread⟩
  | rest | hit | hold | invalid => exact hread

theorem notMem_intercalate_written (notes : List Note) :
    ']' ∉ [' '].intercalate (notes.map Note.written) := by
  induction notes with
  | nil => simp
  | cons n rest ih =>
    by_cases hlast : rest = []
    · simpa [hlast] using fun hmem => (Note.isPlain_of_mem_written (n := n) hmem).2.2 rfl
    · rw [List.map_cons, List.intercalate_cons_of_ne_nil (by simpa using hlast)]
      simpa [ih] using fun hmem => (Note.isPlain_of_mem_written (n := n) hmem).2.2 rfl

/-- What is printed for a token is one token, and closes its brackets if the token does. -/
theorem isWhole_printed {raw : List Char} (h : Token.IsWhole raw) (kind : TokenKind) :
    Token.IsWhole (kind.printed raw)
      ∧ (closesBrackets raw = true → closesBrackets (kind.printed raw) = true) := by
  cases kind with
  | note n =>
    have hword : ∀ c ∈ n.written, Token.inWord c = true :=
      fun c hc => (Note.isPlain_of_mem_written hc).2.1
    have hopens : '[' ∉ n.written := fun hmem => absurd (hword _ hmem) (by decide)
    exact ⟨Token.isWhole_word n.written_ne_nil hword, fun _ => closesBrackets_of_notMem hopens⟩
  | chord notes =>
    exact ⟨Token.isWhole_bracket (notMem_intercalate_written notes),
      fun _ => closesBrackets_concat ('[' :: _)⟩
  | rest | hit | hold | invalid => exact ⟨h, id⟩

theorem printed_printed (raw : List Char) (kind : TokenKind) :
    kind.printed (kind.printed raw) = kind.printed raw := by
  cases kind <;> rfl

end TokenKind

/-! ## Reprinted notation -/

open Token

/-- The canonical text of a token. -/
def Token.printed (t : Token) : List Char := t.kind.printed t.raw.toList

/-- Notation printed from its tokens. -/
def reprinted (content : List Char) : List Char :=
  [' '].intercalate ((tokensOf content).map Token.printed)

/-- What tokens show apart from their place they show of their texts. -/
theorem map_tokensOf {α : Type} {f : Token → α} {g : List Char → α}
    (h : ∀ start raw, f (standing start raw) = g raw) (content : List Char) :
    (tokensOf content).map f = (cuts content).map g := by
  have hfrom : ∀ start, (tokensFrom start content).map f = (cuts content).map g := by
    fun_induction cuts content with
    | case1 => intro start; rw [tokensFrom_nil]; rfl
    | case2 rest ih => intro start; rw [tokensFrom_space, ih]
    | case3 c rest hspace ih =>
      intro start
      rw [tokensFrom_of_ne_space hspace, List.map_cons, List.map_cons, h, ih]
  exact hfrom 0

theorem map_printed_tokensOf (content : List Char) :
    (tokensOf content).map Token.printed
      = (cuts content).map fun raw => (TokenKind.read raw).printed raw :=
  map_tokensOf (fun start raw => by simp [Token.printed, standing]) content

/-- The tokens of reprinted notation are those that are printed. -/
theorem cuts_reprinted (content : List Char) :
    cuts (reprinted content) = (cuts content).map fun raw => (TokenKind.read raw).printed raw := by
  obtain ⟨hwhole, hcloses⟩ := isWhole_cuts content
  rw [reprinted, map_printed_tokensOf, cuts_intercalate]
  · rw [List.flatMap_map, List.map_eq_flatMap]
    exact List.flatMap_congr fun raw hraw => (TokenKind.isWhole_printed (hwhole raw hraw) _).1
  · rw [← List.map_dropLast, List.forall_mem_map]
    intro raw hraw
    exact (TokenKind.isWhole_printed (hwhole raw (List.dropLast_subset _ hraw)) _).2 (hcloses raw hraw)

/-- Reprinted notation has a token for each token that it is printed from, which stands as it is printed
and says the same, down to the notes.  So it leaves the same events, takes the same time, and is
reprinted as it is. -/
theorem reprinted_notation (content : List Char) :
    (tokensOf (reprinted content)).map Token.kind = (tokensOf content).map Token.kind
      ∧ (tokensOf (reprinted content)).map (fun t => t.raw.toList)
        = (tokensOf content).map Token.printed
      ∧ (∀ lineIndex instrument,
        eventsOf (tokensOf (reprinted content)) lineIndex instrument
          = eventsOf (tokensOf content) lineIndex instrument)
      ∧ reprinted (reprinted content) = reprinted content := by
  have hkinds : (tokensOf (reprinted content)).map Token.kind
      = (tokensOf content).map Token.kind := by
    have hread : ∀ text, (tokensOf text).map Token.kind = (cuts text).map TokenKind.read :=
      map_tokensOf fun _ _ => rfl
    rw [hread, hread, cuts_reprinted, List.map_map]
    exact List.map_congr_left fun raw _ => TokenKind.read_printed raw
  refine ⟨hkinds, ?_, fun lineIndex instrument => ?_, ?_⟩
  · rw [map_printed_tokensOf, ← cuts_reprinted]
    exact (map_tokensOf (g := id) (fun _ _ => String.toList_ofList) _).trans (List.map_id _)
  · rw [eventsOf, hkinds, eventsOf]
  · rw [reprinted, map_printed_tokensOf, cuts_reprinted, List.map_map, reprinted,
      map_printed_tokensOf]
    refine congrArg _ (List.map_congr_left fun raw _ => ?_)
    rw [Function.comp_apply, TokenKind.read_printed, TokenKind.printed_printed]

example : reprinted "c[E  g#.]bb~ x] [C4[ é] zz  [C4 ".toList
    = "c4 [E4 g#4.] bb4~ x] [C4[ é] zz [C4 ".toList := by decide +kernel

end Stave
