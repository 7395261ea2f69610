import Stave.Proofs.Score.Channel
import Stave.Proofs.Score.Lexing
import Stave.Proofs.Text.Bytes
import Stave.Score.Line

/-!
# Where tokens stand

The notation of a line is taken apart without a loss: a token stands where its text stands in the
line, the next one stands behind it, and between tokens there are spaces only.
-/

namespace Stave

namespace Token

/-! ## Tokens from a position on -/

/-- The token of a text that stands `start` bytes into a line. -/
def standing (start : Nat) (raw : List Char) : Token :=
  { kind := .read raw, raw := String.ofList raw, start, finish := start + Text.width raw }

/-- The tokens of a text that stands `start` bytes into a line. -/
def tokensFrom (start : Nat) (text : List Char) : List Token := (scan start text #[]).toList

theorem toList_scan (start : Nat) (text : List Char) (found : Array Token) :
    (scan start text found).toList = found.toList ++ tokensFrom start text := by
  induction text using cuts.induct generalizing start found with
  | case1 => simp [tokensFrom, scan]
  | case2 rest ih => rw [tokensFrom, scan, if_pos rfl, ih, scan, if_pos rfl, tokensFrom]
  | case3 c rest hspace ih =>
    rw [tokensFrom, scan, if_neg hspace, scan, if_neg hspace, ih, ih]
    simp

theorem tokensFrom_nil (start : Nat) : tokensFrom start [] = [] := by
  rw [tokensFrom, scan]

theorem tokensFrom_space (start : Nat) (rest : List Char) :
    tokensFrom start (' ' :: rest) = tokensFrom (start + 1) rest := by
  rw [tokensFrom, scan, if_pos rfl, tokensFrom]

theorem tokensFrom_of_ne_space {c : Char} (h : c ≠ ' ') (start : Nat) (rest : List Char) :
    tokensFrom start (c :: rest)
      = standing start (cut c rest).1
        :: tokensFrom (start + Text.width (cut c rest).1) (cut c rest).2 := by
  rw [tokensFrom, scan, if_neg h, toList_scan]
  rfl

/-- A text is its first token and what follows it. -/
theorem cut_fst_append_snd (c : Char) (rest : List Char) :
    (cut c rest).1 ++ (cut c rest).2 = c :: rest := by
  rw [cut]
  split
  · have hinside : rest.takeWhile (· != ']') = rest.take (rest.takeWhile (· != ']')).length :=
      List.prefix_iff_eq_take.mp (List.takeWhile_prefix _)
    dsimp only
    rw [← List.drop_drop, List.append_assoc, List.take_append_drop, List.cons_append]
    nth_rewrite 1 [hinside]
    rw [List.take_append_drop]
  · rw [List.cons_append, List.takeWhile_append_dropWhile]

theorem cut_fst_ne_nil (c : Char) (rest : List Char) : (cut c rest).1 ≠ [] := by
  rw [cut]
  split <;> simp

/-- A character beyond the first 128 goes on with a word. -/
theorem inWord_of_le {c : Char} (h : 0x80 ≤ c.toNat) : inWord c = true := by
  have hne : ∀ d : Char, d.toNat < 0x80 → c ≠ d := by
    rintro d hd rfl
    exact Nat.not_lt.mpr h hd
  simp [inWord, hne ' ' (by decide), hne '[' (by decide)]

/-! ## Positions -/

/-- A token is cut off a text where it stands. -/
theorem exists_of_mem_tokensFrom {start : Nat} {text : List Char} {t : Token}
    (h : t ∈ tokensFrom start text) :
    ∃ before c rest, text = before ++ c :: rest ∧ c ≠ ' '
      ∧ t = standing (start + Text.width before) (cut c rest).1 := by
  induction text using cuts.induct generalizing start with
  | case1 => simp [tokensFrom_nil] at h
  | case2 rest ih =>
    rw [tokensFrom_space] at h
    obtain ⟨before, c, behind, htext, hc, ht⟩ := ih h
    refine ⟨' ' :: before, c, behind, by rw [htext]; rfl, hc, ?_⟩
    rw [Text.width_cons, ← Nat.add_assoc]
    exact ht
  | case3 c rest hspace ih =>
    rw [tokensFrom_of_ne_space hspace] at h
    rcases List.mem_cons.mp h with rfl | hlater
    · exact ⟨[], c, rest, rfl, hspace, rfl⟩
    · obtain ⟨before, d, behind, htext, hd, ht⟩ := ih hlater
      refine ⟨(cut c rest).1 ++ before, d, behind, ?_, hd, ?_⟩
      · rw [← cut_fst_append_snd, htext, List.append_assoc]
      · rwa [Text.width_append, ← Nat.add_assoc]

/-- Tokens stand one behind the other. -/
theorem pairwise_tokensFrom (start : Nat) (text : List Char) :
    (tokensFrom start text).Pairwise fun t later => t.finish ≤ later.start := by
  induction text using cuts.induct generalizing start with
  | case1 => simp [tokensFrom_nil]
  | case2 rest ih => rw [tokensFrom_space]; exact ih (start + 1)
  | case3 c rest hspace ih =>
    rw [tokensFrom_of_ne_space hspace]
    refine List.pairwise_cons.mpr ⟨fun later hlater => ?_, ih _⟩
    obtain ⟨before, d, behind, -, -, rfl⟩ := exists_of_mem_tokensFrom hlater
    exact Nat.le_add_right _ _

/-- A byte that stands in no token is a space. -/
theorem getElem?_bytes_eq_space (start n : Nat) {text : List Char} (hn : n < Text.width text)
    (h : ∀ t ∈ tokensFrom start text, ¬(t.start ≤ start + n ∧ start + n < t.finish)) :
    (Text.bytes text)[n]? = some 0x20 := by
  induction text using cuts.induct generalizing start n with
  | case1 => simp [Text.width] at hn
  | case2 rest ih =>
    cases n with
    | zero => rfl
    | succ n =>
      rw [tokensFrom_space] at h
      rw [Text.width_cons] at hn
      have hspace : ' '.utf8Size = 1 := rfl
      refine ih (start + 1) n (by omega) fun t ht => ?_
      rw [Nat.add_right_comm]
      exact h t ht
  | case3 c rest hspace ih =>
    rw [tokensFrom_of_ne_space hspace] at h
    obtain ⟨hfirst, hlater⟩ := List.forall_mem_cons.mp h
    rw [← cut_fst_append_snd, Text.width_append] at hn
    rw [← cut_fst_append_snd, Text.bytes_append]
    have hbehind : Text.width (cut c rest).1 ≤ n := by
      by_contra hlt
      exact hfirst ⟨Nat.le_add_right _ _, by simp [standing]; omega⟩
    obtain ⟨m, rfl⟩ := Nat.exists_eq_add_of_le hbehind
    rw [List.getElem?_append_right (by rw [Text.length_bytes]; omega), Text.length_bytes,
      Nat.add_sub_cancel_left]
    refine ih (start + Text.width (cut c rest).1) m (by omega) fun t ht => ?_
    rw [Nat.add_assoc]
    exact hlater t ht

end Token

/-! ## Lines -/

open Text

/-- The tokens of a line of notation stand in the line as they say, and nothing but spaces stands
beside them. -/
structure Line.StandsIn (l : Line) (line : List Char) : Prop where
  /-- The bytes of the line between the ends of a token are those of its text. -/
  bytes_token : ∀ t ∈ l.tokens,
    (bytes line).extract (l.contentStart + t.start) (l.contentStart + t.finish) = bytes t.raw.toList
  nonempty : ∀ t ∈ l.tokens, t.start < t.finish
  inOrder : l.tokens.Pairwise fun t later => t.finish ≤ later.start
  /-- A byte of the notation that stands in no token is a space. -/
  space : ∀ n, l.contentStart ≤ n → n < width line →
    (∀ t ∈ l.tokens, ¬(l.contentStart + t.start ≤ n ∧ n < l.contentStart + t.finish)) →
      (bytes line)[n]? = some 0x20
  /-- A token that is no bracket goes on, byte by byte, up to the next space or bracket. -/
  word : ∀ t ∈ l.tokens, t.raw.toList.head? ≠ some '[' →
    ((bytes line).drop (l.contentStart + t.start)).takeWhile (fun b => Token.inWord (.ofUInt8 b))
      = bytes t.raw.toList
  isCut_start : ∀ t ∈ l.tokens, IsCut line (l.contentStart + t.start)
  isCut_finish : ∀ t ∈ l.tokens, IsCut line (l.contentStart + t.finish)
  /-- The inside of a bracket can be cut out of it. -/
  isCut_inside : ∀ t ∈ l.tokens, ∀ inside, t.raw.toList = '[' :: inside ++ [']'] →
    IsCut line (l.contentStart + t.start + 1) ∧ IsCut line (l.contentStart + t.finish - 1)

namespace Line

variable {l : Line} {line : List Char}

/-- A token of a line with the characters of the line from which it is cut. -/
structure IsCutAt (l : Line) (t : Token) (before : List Char) (c : Char) (rest : List Char) :
    Prop where
  ne_space : c ≠ ' '
  raw_eq : t.raw.toList = (Token.cut c rest).1
  start_eq : l.contentStart + t.start = width before
  finish_eq : l.contentStart + t.finish = width before + width (Token.cut c rest).1

theorem exists_isCutAt {front content : List Char} (hstart : l.contentStart = width front)
    (htokens : l.tokens = tokensOf content) {t : Token} (ht : t ∈ l.tokens) :
    ∃ before c rest, front ++ content = before ++ c :: rest ∧ l.IsCutAt t before c rest := by
  rw [htokens] at ht
  obtain ⟨before, c, rest, rfl, hc, rfl⟩ := Token.exists_of_mem_tokensFrom ht
  refine ⟨front ++ before, c, rest, (List.append_assoc _ _ _).symm, hc, String.toList_ofList, ?_, ?_⟩
  · rw [hstart, width_append]
    simp [Token.standing]
  · rw [hstart, width_append]
    simp [Token.standing, Nat.add_assoc]

/-- What is left of a token at whose ends brackets are cut off stands between two cuts. -/
theorem IsCutAt.isCut_inside {t : Token} {before : List Char} {c : Char} {rest : List Char}
    (h : l.IsCutAt t before c rest) {inside : List Char}
    (hraw : t.raw.toList = '[' :: inside ++ [']']) :
    IsCut (before ++ c :: rest) (l.contentStart + t.start + 1)
      ∧ IsCut (before ++ c :: rest) (l.contentStart + t.finish - 1) := by
  have hcut : (Token.cut c rest).1 = '[' :: (inside ++ [']']) := h.raw_eq.symm.trans hraw
  have hopen : '['.utf8Size = 1 := rfl
  have hclose : width [']'] = 1 := rfl
  have hline : before ++ c :: rest
      = before ++ '[' :: (inside ++ ']' :: (Token.cut c rest).2) := by
    rw [← Token.cut_fst_append_snd, hcut]
    simp
  rw [hline]
  constructor
  · refine ⟨before ++ ['['], inside ++ ']' :: (Token.cut c rest).2, by simp, ?_⟩
    rw [h.start_eq, width_append, width_cons, hopen]
    rfl
  · refine ⟨before ++ '[' :: inside, ']' :: (Token.cut c rest).2, by simp, ?_⟩
    rw [h.finish_eq, hcut, width_append, width_cons, width_cons, width_append, hclose]
    omega

theorem standsIn_of_tokens {front content : List Char} (hstart : l.contentStart = width front)
    (htokens : l.tokens = tokensOf content) : l.StandsIn (front ++ content) where
  bytes_token t ht := by
    obtain ⟨before, c, rest, hline, hcut⟩ := exists_isCutAt hstart htokens ht
    rw [hline, hcut.start_eq, hcut.finish_eq, hcut.raw_eq, ← Token.cut_fst_append_snd,
      ← List.append_assoc]
    exact extract_bytes _ _ _
  nonempty t ht := by
    obtain ⟨before, c, rest, -, hcut⟩ := exists_isCutAt hstart htokens ht
    have hpos := width_pos (Token.cut_fst_ne_nil c rest)
    have hends := hcut.finish_eq
    have hstarts := hcut.start_eq
    omega
  inOrder := htokens ▸ Token.pairwise_tokensFrom 0 content
  space n hle hlt hout := by
    obtain ⟨m, rfl⟩ := Nat.exists_eq_add_of_le hle
    rw [hstart, width_append] at hlt
    rw [hstart, bytes_append, List.getElem?_append_right (by rw [length_bytes]; omega), length_bytes,
      Nat.add_sub_cancel_left]
    refine Token.getElem?_bytes_eq_space 0 m (by omega) fun t ht hin => ?_
    refine hout t (htokens ▸ ht) ⟨?_, ?_⟩ <;> omega
  word t ht hbracket := by
    obtain ⟨before, c, rest, hline, hcut⟩ := exists_isCutAt hstart htokens ht
    have hc : c ≠ '[' := by
      rintro rfl
      rw [hcut.raw_eq, Token.cut, if_pos rfl] at hbracket
      exact hbracket rfl
    have hin : Token.inWord c = true := by simp [Token.inWord, hcut.ne_space, hc]
    have halike : ∀ c d : Char, 0x80 ≤ c.toNat → 0x80 ≤ d.toNat →
        Token.inWord c = Token.inWord d := fun c d hc hd => by
      rw [Token.inWord_of_le hc, Token.inWord_of_le hd]
    rw [hline, hcut.start_eq, bytes_append, List.drop_left' (length_bytes before),
      takeWhile_bytes halike, hcut.raw_eq, Token.cut, if_neg hc, List.takeWhile_cons_of_pos hin]
  isCut_start t ht := by
    obtain ⟨before, c, rest, hline, hcut⟩ := exists_isCutAt hstart htokens ht
    exact ⟨before, c :: rest, hline, hcut.start_eq.symm⟩
  isCut_finish t ht := by
    obtain ⟨before, c, rest, hline, hcut⟩ := exists_isCutAt hstart htokens ht
    refine ⟨before ++ (Token.cut c rest).1, (Token.cut c rest).2, ?_, ?_⟩
    · rw [hline, List.append_assoc, Token.cut_fst_append_snd]
    · rw [hcut.finish_eq, width_append]
  isCut_inside t ht inside hraw := by
    obtain ⟨before, c, rest, hline, hcut⟩ := exists_isCutAt hstart htokens ht
    exact hline ▸ hcut.isCut_inside hraw

end Line

/-! ## Headings -/

/-- An address begins with a known scheme, up to its case, and goes on behind the slashes. -/
theorem exists_rest_of_isUrl {url : List Char} (h : isUrl url = true) :
    ∃ rest, url = url.takeWhile (· != ':') ++ ':' :: '/' :: '/' :: rest ∧ rest ≠ []
      ∧ lowercase (String.ofList (url.takeWhile (· != ':'))) ∈ urlSchemes := by
  rw [isUrl] at h
  split at h
  · next rest hdrop =>
    simp only [Bool.and_eq_true] at h
    refine ⟨rest, ?_, by simpa using h.1.2, List.contains_iff_mem.mp h.1.1⟩
    rw [← hdrop, List.takeWhile_append_dropWhile]
  · cases h

theorem notMem_takeWhile_ne (c : Char) (text : List Char) : c ∉ text.takeWhile (· != c) := by
  intro hmem
  simpa using List.mem_takeWhile_imp hmem

/-- An address is a scheme, which is not empty, and what a colon and two slashes begin. -/
theorem exists_of_isUrl {url : List Char} (h : isUrl url = true) :
    ∃ scheme rest, url = scheme ++ ':' :: '/' :: rest ∧ scheme ≠ [] ∧ ':' ∉ scheme
      ∧ '/' ∉ scheme := by
  obtain ⟨rest, hurl, -, hscheme⟩ := exists_rest_of_isUrl h
  refine ⟨url.takeWhile (· != ':'), '/' :: rest, hurl, ?_, notMem_takeWhile_ne ':' url, ?_⟩
  · intro hnil
    rw [hnil] at hscheme
    revert hscheme
    decide
  · intro hmem
    have hslash : '/' ∈ (lowercase (String.ofList (url.takeWhile (· != ':')))).toList := by
      rw [lowercase, String.toList_ofList, String.toList_ofList]
      exact List.mem_map_of_mem hmem
    have hnone : ∀ s ∈ urlSchemes, '/' ∉ s.toList := by decide
    exact hnone _ hscheme hslash

namespace Heading

variable {line : List Char} {h : Heading}

/-- What stands before the content of a line. -/
def front (h : Heading) : List Char := h.name ++ ':' :: h.gap

theorem width_front (h : Heading) : width h.front = h.contentStart := by
  have hcolon : ':'.utf8Size = 1 := rfl
  rw [front, width_append, width_cons, hcolon, contentStart, Nat.add_assoc]

theorem front_append_content (hread : read? line = some h) : h.front ++ h.content = line := by
  rw [eq_of_read? hread, front, List.append_assoc, List.cons_append]

theorem isBlank_of_mem_gap (hread : read? line = some h) {c : Char} (hc : c ∈ h.gap) :
    isBlank c = true := by
  have hagain := read?_append (isChannelName_of_read? hread) (h.gap ++ h.content)
  rw [← eq_of_read? hread, hread, Option.some_inj] at hagain
  have hgap := congrArg Heading.gap hagain
  rw [hgap] at hc
  exact List.mem_takeWhile_imp hc

/-- The first of two colons in a row of characters is the same one however the row is written. -/
theorem append_colon_inj {a b c d : List Char} (ha : ':' ∉ a) (hb : ':' ∉ b)
    (h : a ++ ':' :: c = b ++ ':' :: d) : a = b ∧ c = d := by
  have htake := congrArg (List.takeWhile (· != ':')) h
  rw [takeWhile_append_stop rfl, takeWhile_append_stop rfl,
    takeWhile_ne_eq_self ha, takeWhile_ne_eq_self hb] at htake
  rw [htake] at h
  exact ⟨htake, (List.cons.inj (List.append_cancel_left h)).2⟩

/-- No address begins in the name or in the blanks behind it: where its scheme would be the end of the
name, the slashes of the address would have to follow the colon. -/
theorem not_isUrl_of_front (hread : read? line = some h) {x : Char} {url more behind front : List Char}
    (hurl : isUrl (x :: url) = true) (hcontent : x :: url <+: h.content)
    (hfront : h.front = front ++ x :: more) : x :: url ++ behind ≠ x :: more ++ h.content := by
  intro hline
  obtain ⟨tail, htail⟩ := hcontent
  obtain ⟨scheme, rest, hscheme, hne, hcolon, hslash⟩ := exists_of_isUrl hurl
  obtain ⟨y, scheme, rfl⟩ := List.exists_cons_of_ne_nil hne
  obtain ⟨rfl, hrest⟩ := List.cons.inj hscheme
  have hx : isBlank x = false := isBlank_of_isUrl hurl x List.mem_cons_self
  have hblank : ∀ c ∈ h.gap, isBlank c = true := fun c => isBlank_of_mem_gap hread
  rw [Heading.front] at hfront
  rcases List.append_eq_append_iff.mp hfront with ⟨part, -, hpart⟩ | ⟨part, hname, hpart⟩
  · have hmem : x ∈ ':' :: h.gap := hpart ▸ List.mem_append_right part List.mem_cons_self
    rcases List.mem_cons.mp hmem with rfl | hgap
    · exact hcolon List.mem_cons_self
    · exact Bool.false_ne_true (hx.symm.trans (hblank x hgap))
  · have hnoColon : ':' ∉ part := fun hmem => by
      have hinName := (isChannelName_of_read? hread).2 ':' (hname ▸ List.mem_append_right front hmem)
      cases hinName
    rw [hpart, hscheme] at hline
    obtain ⟨-, hslashes⟩ := append_colon_inj hcolon hnoColon
      (c := '/' :: rest ++ behind) (d := h.gap ++ h.content) (by simpa using hline)
    cases hgap : h.gap with
    | nil =>
      rw [hgap, List.nil_append, ← htail] at hslashes
      exact hslash ((List.cons.inj hslashes).1 ▸ List.mem_cons_self)
    | cons b gap =>
      rw [hgap] at hslashes
      have hb := hblank b (hgap ▸ List.mem_cons_self)
      rw [← (List.cons.inj hslashes).1] at hb
      cases hb

/-- An address behind a name does not begin any earlier in the line. -/
theorem contentStart_le_of_isUrl (hread : read? line = some h) {url : List Char}
    (hurl : isUrl url = true) (hcontent : url <+: h.content) {before behind : List Char}
    (hline : line = before ++ url ++ behind) : h.contentStart ≤ width before := by
  rw [← front_append_content hread, List.append_assoc] at hline
  rw [← width_front]
  rcases List.append_eq_append_iff.mp hline with ⟨more, rfl, -⟩ | ⟨more, hfront, hmore⟩
  · rw [width_append]
    exact Nat.le_add_right _ _
  · cases more with
    | nil => rw [hfront, List.append_nil]
    | cons y more =>
      cases url with
      | nil => cases hurl
      | cons x url =>
        obtain ⟨rfl, -⟩ := List.cons.inj hmore
        exact absurd hmore (not_isUrl_of_front hread hurl hcontent hfront)

theorem isCut_contentStart (hread : read? line = some h) : IsCut line h.contentStart :=
  ⟨h.front, h.content, (front_append_content hread).symm, width_front h⟩

/-- The name of a line and the colon behind it end between characters. -/
theorem isCut_name (hread : read? line = some h) :
    IsCut line (width h.name) ∧ IsCut line (width h.name + 1) := by
  rw [eq_of_read? hread]
  refine ⟨⟨h.name, _, rfl, rfl⟩, h.name ++ [':'], h.gap ++ h.content, by simp, ?_⟩
  rw [width_append]
  rfl

/-- A declaration stands behind the name of its line. -/
theorem exists_of_declaration? {d : Declaration} (hdeclared : declaration? line = some d) :
    ∃ h, read? line = some h ∧ isUrl (trimEnd h.content) = true
      ∧ d = ⟨h.channelName, String.ofList (trimEnd h.content)⟩ := by
  obtain ⟨h, hread, hd⟩ := Option.bind_eq_some_iff.mp hdeclared
  dsimp only at hd
  split at hd
  · next hurl => exact ⟨h, hread, hurl, (Option.some_inj.mp hd).symm⟩
  · cases hd

end Heading

namespace Registry

variable {r : Registry} {lineIndex : Nat} {line : List Char}

theorem contentStart_of_declaration? {d : Declaration} {h : Heading}
    (hdeclared : Heading.declaration? line = some d) (hread : Heading.read? line = some h) :
    (r.lineOf lineIndex line).contentStart = h.contentStart := by
  rw [lineOf, hdeclared, hread]
  rfl

theorem channelOf_of_contains {h : Heading} (hread : Heading.read? line = some h)
    (hcontains : r.contains (String.ofList h.name) = true) :
    r.channelOf line = ⟨h.channelName, h.content, h.contentStart⟩ := by
  rw [channelOf, hread, Option.filter_some, if_pos hcontains]

theorem channelOf_of_not_contains
    (hnone : ∀ h, Heading.read? line = some h → r.contains (String.ofList h.name) = false) :
    r.channelOf line = ⟨defaultInstrument, line, 0⟩ := by
  have hfilter : (Heading.read? line).filter (fun h => r.contains (String.ofList h.name)) = none := by
    rw [Option.filter_eq_none_iff]
    exact fun h hread => by simp [hnone h hread]
  rw [channelOf, hfilter]

/-- The content of a line is cut off it at a character. -/
theorem exists_front_of_channelOf (r : Registry) (line : List Char) :
    ∃ front, line = front ++ (r.channelOf line).content
      ∧ (r.channelOf line).contentStart = width front := by
  rw [channelOf]
  split
  · next h hfound =>
    have hread := (Option.filter_eq_some_iff.mp hfound).1
    exact ⟨h.front, (Heading.front_append_content hread).symm, (Heading.width_front h).symm⟩
  · exact ⟨[], rfl, rfl⟩

theorem lineOf_of_declaration?_eq_none (r : Registry) (lineIndex : Nat)
    (hnone : Heading.declaration? line = none) :
    (r.lineOf lineIndex line).instrument = (r.channelOf line).instrument
      ∧ (r.lineOf lineIndex line).contentStart = (r.channelOf line).contentStart
      ∧ (r.lineOf lineIndex line).tokens = tokensOf (r.channelOf line).content := by
  rw [lineOf, hnone]
  exact ⟨rfl, rfl, rfl⟩

/-- The notation of a line begins between two characters.  In a line that declares a sample the address
stands there, and nowhere before.  Any other line is on the channel that its first word names, as far as
the registry has it, and the tokens of its notation stand where they say. -/
theorem positions_of_lineOf (r : Registry) (lineIndex : Nat) (line : List Char) :
    IsCut line (r.lineOf lineIndex line).contentStart
      ∧ (r.lineOf lineIndex line).contentStart ≤ (bytes line).length
      ∧ (∀ h, Heading.read? line = some h →
        IsCut line (width h.name) ∧ IsCut line (width h.name + 1) ∧ IsCut line h.contentStart)
      ∧ (∀ d, Heading.declaration? line = some d →
        (∃ front content, line = front ++ content
          ∧ width front = (r.lineOf lineIndex line).contentStart
          ∧ String.ofList (trimEnd content) = d.url)
        ∧ ∀ before behind, line = before ++ d.url.toList ++ behind →
          (r.lineOf lineIndex line).contentStart ≤ width before)
      ∧ (Heading.declaration? line = none →
        (∀ name rest, line = name ++ ':' :: rest → IsChannelName name →
          r.contains (String.ofList name) = true →
            (r.lineOf lineIndex line).instrument = lowercase (String.ofList name))
        ∧ ((∀ name rest, line = name ++ ':' :: rest → IsChannelName name →
          r.contains (String.ofList name) = false) →
            (r.lineOf lineIndex line).instrument = "piano"
              ∧ (r.lineOf lineIndex line).contentStart = 0)
        ∧ (r.lineOf lineIndex line).StandsIn line) := by
  have hcut : IsCut line (r.lineOf lineIndex line).contentStart := by
    cases hdeclared : Heading.declaration? line with
    | some d =>
      obtain ⟨h, hread, -, -⟩ := Heading.exists_of_declaration? hdeclared
      rw [contentStart_of_declaration? hdeclared hread]
      exact Heading.isCut_contentStart hread
    | none =>
      obtain ⟨front, hline, hstart⟩ := exists_front_of_channelOf r line
      rw [(lineOf_of_declaration?_eq_none r lineIndex hdeclared).2.1, hstart]
      exact ⟨front, _, hline, rfl⟩
  refine ⟨hcut, hcut.le_width.trans_eq (length_bytes line).symm, fun h hread =>
    ⟨(Heading.isCut_name hread).1, (Heading.isCut_name hread).2, Heading.isCut_contentStart hread⟩,
    ?_, ?_⟩
  · intro d hdeclared
    obtain ⟨h, hread, hurl, rfl⟩ := Heading.exists_of_declaration? hdeclared
    rw [contentStart_of_declaration? hdeclared hread]
    refine ⟨⟨h.front, h.content, (Heading.front_append_content hread).symm,
      Heading.width_front h, rfl⟩, fun before behind hline => ?_⟩
    rw [String.toList_ofList] at hline
    have hcontent : trimEnd h.content <+: h.content := trimEnd_prefix h.content
    exact Heading.contentStart_le_of_isUrl hread hurl hcontent hline
  · intro hnone
    obtain ⟨hinstrument, hstart, htokens⟩ := lineOf_of_declaration?_eq_none r lineIndex hnone
    refine ⟨?_, ?_, ?_⟩
    · rintro name rest rfl hname hcontains
      have hread := Heading.read?_append hname rest
      rw [hinstrument, channelOf_of_contains hread hcontains]
      rfl
    · intro hunnamed
      have hother : ∀ h, Heading.read? line = some h → r.contains (String.ofList h.name) = false :=
        fun h hread => hunnamed h.name (h.gap ++ h.content) (Heading.eq_of_read? hread)
          (Heading.isChannelName_of_read? hread)
      rw [hinstrument, hstart, channelOf_of_not_contains hother]
      exact ⟨rfl, rfl⟩
    · obtain ⟨front, hline, hfront⟩ := exists_front_of_channelOf r line
      have hstands := Line.standsIn_of_tokens (hstart.trans hfront) htokens
      rwa [← hline] at hstands

/-- A line of notation on the bass with a rest, a chord and text of several bytes in it, and a line that
declares a sample. -/
theorem positions_of_lineOf_of_bass_and_sample :
    ((empty.lineOf 0 "Bass:  C2 [E2 G2]  ♪é".toList).instrument = "bass"
        ∧ (empty.lineOf 0 "Bass:  C2 [E2 G2]  ♪é".toList).contentStart = 7
        ∧ (empty.lineOf 0 "Bass:  C2 [E2 G2]  ♪é".toList).tokens.map (fun t => (t.start, t.finish))
          = [(0, 2), (3, 10), (12, 17)]
        ∧ (empty.lineOf 0 "Bass:  C2 [E2 G2]  ♪é".toList).StandsIn "Bass:  C2 [E2 G2]  ♪é".toList)
      ∧ (empty.lineOf 0 "http:　http://a ".toList).contentStart = 8
      ∧ ∀ before behind,
        "http:　http://a ".toList = before ++ "http://a".toList ++ behind → 8 ≤ width before := by
  have hdeclared : Heading.declaration? "http:　http://a ".toList = some ⟨"http", "http://a"⟩ := by
    decide +kernel
  have hstart : (empty.lineOf 0 "http:　http://a ".toList).contentStart = 8 := by
    decide +kernel
  obtain ⟨-, -, -, -, hnotation⟩ :=
    positions_of_lineOf empty 0 "Bass:  C2 [E2 G2]  ♪é".toList
  obtain ⟨hchannel, -, hstands⟩ := hnotation (by decide +kernel)
  obtain ⟨-, -, -, hdeclaration, -⟩ := positions_of_lineOf empty 0 "http:　http://a ".toList
  refine ⟨⟨?_, by decide +kernel, by decide +kernel, hstands⟩, hstart, fun before behind hline => ?_⟩
  · have hname : IsChannelName "Bass".toList := by decide
    rw [hchannel "Bass".toList "  C2 [E2 G2]  ♪é".toList rfl hname (by decide +kernel)]
    decide
  · rw [← hstart]
    exact (hdeclaration _ hdeclared).2 before behind hline

end Registry

end Stave
