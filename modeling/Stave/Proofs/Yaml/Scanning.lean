import Stave.Proofs.Yaml.Block

/-!
# Scanning in block style

The steps of the scanner through a document in block style: over empty lines and comments to the next
line with content, and over a scalar to what comes behind it.  A scanner that stands before a line with
content is said to be settled there, whatever empty lines and comments it has still to pass over.
-/

namespace Stave.Yaml

/-! ## Places -/

namespace Place

theorem after_of_oneLine {text : List Char} (h : ∀ c ∈ text, isBreak c = false) (p : Place) :
    p.after text = ⟨p.index + (text.map Char.utf8Size).sum, p.line, p.column + text.length⟩ := by
  induction text generalizing p with
  | nil => rfl
  | cons c rest ih =>
    have hc : isBreak c = false := h c List.mem_cons_self
    have hrest := ih fun d hd => h d (List.mem_cons_of_mem c hd)
    have hstep : p.after (c :: rest)
        = after { p with index := p.index + c.utf8Size, column := p.column + 1 } rest := by
      rw [after, if_neg (by simp [hc])]
      rintro rest' rfl
      cases hc
    rw [hstep, hrest]
    simp only [List.map_cons, List.sum_cons, List.length_cons]
    congr 1 <;> omega

theorem after_append_feed {text : List Char} (h : ∀ c ∈ text, isBreak c = false) (p : Place)
    (rest : List Char) :
    ∃ index, p.after (text ++ '\n' :: rest) = after ⟨index, p.line + 1, 0⟩ rest := by
  induction text generalizing p with
  | nil =>
    refine ⟨p.index + '\n'.utf8Size, ?_⟩
    rw [List.nil_append, after, if_pos (show isBreak '\n' = true from rfl)]
    rintro rest' hreturn
    cases hreturn
  | cons c more ih =>
    have hc : isBreak c = false := h c List.mem_cons_self
    obtain ⟨index, hindex⟩ := ih (fun d hd => h d (List.mem_cons_of_mem c hd))
      { p with index := p.index + c.utf8Size, column := p.column + 1 }
    refine ⟨index, ?_⟩
    rw [List.cons_append, after, if_neg (by simp [hc]), hindex]
    rintro rest' rfl
    cases hc

theorem le_line_after (p : Place) (text : List Char) : p.line ≤ (p.after text).line := by
  fun_induction after p text with
  | case1 p => exact Nat.le_refl _
  | case2 p rest ih => exact Nat.le_of_succ_le ih
  | case3 p c rest _ _ ih => exact Nat.le_of_succ_le ih
  | case4 p c rest _ _ ih => exact ih

end Place

/-! ## Comments and empty lines -/

/-- What a line with content begins with. -/
def BeginsContent (content : List Char) : Prop :=
  ∀ c ∈ content.head?, isSpacing c = false ∧ c ≠ '#' ∧ c ≠ byteOrderMark

theorem Remark.isBreak_text {r : Remark} (h : r.IsValid) : ∀ c ∈ r.text, isBreak c = false := by
  intro c hc
  rw [text, List.mem_append] at hc
  rcases hc with hblank | hcomment
  · rw [(List.mem_replicate.mp hblank).2]
    rfl
  · cases hbody : r.comment with
    | none => simp [hbody] at hcomment
    | some body =>
      rw [hbody, Option.elim_some, List.mem_cons] at hcomment
      rcases hcomment with rfl | hin
      · rfl
      · exact (h body hbody c hin).1

theorem remarkLines_cons (r : Remark) (remarks : List Remark) :
    remarkLines (r :: remarks) = r.text ++ '\n' :: remarkLines remarks := by
  simp [remarkLines]

/-- The place at the start of the next line with content. -/
theorem Place.after_remarkLines {r : Remark} {remarks : List Remark}
    (h : ∀ q ∈ r :: remarks, q.IsValid) {text : List Char} (htext : ∀ c ∈ text, isBreak c = false)
    (p : Place) (column : Nat) :
    ∃ index, p.after (text ++ (remarkLines (r :: remarks) ++ List.replicate column ' '))
      = ⟨index, p.line + (remarks.length + 1), column⟩ := by
  induction remarks generalizing r text p with
  | nil =>
    have hline : ∀ c ∈ text ++ r.text, isBreak c = false := by
      intro c hc
      rcases List.mem_append.mp hc with hc | hc
      · exact htext c hc
      · exact Remark.isBreak_text (h r List.mem_cons_self) c hc
    obtain ⟨index, hindex⟩ := after_append_feed hline p (List.replicate column ' ')
    have hspaces : ∀ c ∈ List.replicate column ' ', isBreak c = false := by
      simp +contextual [isBreak]
    rw [remarkLines_cons, remarkLines, List.flatMap_nil]
    simp only [List.append_assoc, List.cons_append, List.nil_append] at hindex ⊢
    rw [hindex, after_of_oneLine hspaces]
    simp
  | cons q remarks ih =>
    have hline : ∀ c ∈ text ++ r.text, isBreak c = false := by
      intro c hc
      rcases List.mem_append.mp hc with hc | hc
      · exact htext c hc
      · exact Remark.isBreak_text (h r List.mem_cons_self) c hc
    obtain ⟨index, hindex⟩ := after_append_feed hline p
      (remarkLines (q :: remarks) ++ List.replicate column ' ')
    have hnothing : ∀ c ∈ ([] : List Char), isBreak c = false := by simp
    obtain ⟨last, hlast⟩ := ih (fun x hx => h x (List.mem_cons_of_mem r hx)) hnothing
      ⟨index, p.line + 1, 0⟩
    rw [List.nil_append] at hlast
    rw [remarkLines_cons]
    simp only [List.append_assoc, List.cons_append] at hindex ⊢
    rw [hindex, hlast]
    refine ⟨last, ?_⟩
    simp only [List.length_cons, Place.mk.injEq, true_and, and_true]
    omega

theorem breaksOf_ne_nil {text : List Char} (h : '\n' ∈ text) : breaksOf text ≠ [] := by
  fun_induction breaksOf text with
  | case1 => cases h
  | case2 rest ih => exact List.cons_ne_nil _ _
  | case3 c rest _ _ ih => exact List.cons_ne_nil _ _
  | case4 c rest _ _ _ ih => exact List.cons_ne_nil _ _
  | case5 c rest hreturn hfeed hbreak ih =>
    refine ih ((List.mem_cons.mp h).resolve_left ?_)
    rintro rfl
    exact hbreak rfl

/-- The spacing at the front of lines without content: it goes on to the line with content, or to a
comment. -/
theorem spacing_remarkLines {remarks : List Remark} (h : ∀ r ∈ remarks, r.IsValid)
    {content : List Char} (hcontent : BeginsContent content) (column : Nat) :
    '\t' ∉ (remarkLines remarks ++ (List.replicate column ' ' ++ content)).takeWhile isSpacing
      ∧ ((remarkLines remarks ++ (List.replicate column ' ' ++ content)).dropWhile isSpacing = content
          ∧ (remarkLines remarks ++ (List.replicate column ' ' ++ content)).takeWhile isSpacing
            = remarkLines remarks ++ List.replicate column ' '
        ∨ ∃ r rest, (∀ q ∈ r :: rest, q.IsValid) ∧ r.text.head? = some '#'
          ∧ (remarkLines remarks ++ (List.replicate column ' ' ++ content)).dropWhile isSpacing
            = remarkLines (r :: rest) ++ (List.replicate column ' ' ++ content)) := by
  have hspaces : ∀ count, ∀ c ∈ List.replicate count ' ', isSpacing c = true := by
    simp +contextual [isSpacing, isBlank]
  induction remarks with
  | nil =>
    have hstop : content.takeWhile isSpacing = [] ∧ content.dropWhile isSpacing = content := by
      cases content with
      | nil => exact ⟨rfl, rfl⟩
      | cons c rest => simp [(hcontent c rfl).1]
    simp only [remarkLines, List.flatMap_nil, List.nil_append]
    rw [List.takeWhile_append_of_pos (hspaces column), List.dropWhile_append_of_pos (hspaces column),
      hstop.1, hstop.2]
    exact ⟨by simp +contextual, .inl ⟨rfl, List.append_nil _⟩⟩
  | cons r remarks ih =>
    have hrest := ih fun q hq => h q (List.mem_cons_of_mem r hq)
    simp only [remarkLines_cons, List.append_assoc, List.cons_append] at hrest ⊢
    cases hbody : r.comment with
    | none =>
      have htext : r.text = List.replicate r.blanks ' ' := by simp [Remark.text, hbody]
      obtain ⟨htab, hends⟩ := hrest
      rw [htext, List.takeWhile_append_of_pos (hspaces _), List.dropWhile_append_of_pos (hspaces _),
        List.takeWhile_cons_of_pos rfl, List.dropWhile_cons_of_pos rfl]
      refine ⟨?_, hends.imp (fun hcontent => ⟨hcontent.1, ?_⟩) id⟩
      · simp +contextual [htab]
      · rw [hcontent.2]
    | some body =>
      have hmark : isSpacing '#' = false := rfl
      have htext : r.text = List.replicate r.blanks ' ' ++ '#' :: body := by
        simp [Remark.text, hbody]
      rw [htext, List.append_assoc, List.takeWhile_append_of_pos (hspaces _),
        List.dropWhile_append_of_pos (hspaces _)]
      refine ⟨by simp +contextual [hmark], .inr ⟨⟨0, some body⟩, remarks, fun q hq => ?_, rfl, ?_⟩⟩
      · rcases List.mem_cons.mp hq with rfl | hq
        · intro other hother
          cases hother
          exact h r List.mem_cons_self body hbody
        · exact h q (List.mem_cons_of_mem r hq)
      · simp [hmark, Remark.text]

/-- A gap begins with a blank or with the end of the line. -/
theorem Gap.IsValid.exists_text {g : Gap} (hg : g.IsValid) :
    ∃ c rest, g.text = c :: rest ∧ isSpacing c = true := by
  rw [Gap.text, remarkLines_cons, Remark.text]
  cases hblanks : g.ending.blanks with
  | zero =>
    have hnone : g.ending.comment = none := by
      by_contra hsome
      exact hg.apart hsome hblanks
    rw [hnone]
    exact ⟨_, _, rfl, rfl⟩
  | succ n => exact ⟨_, _, rfl, rfl⟩

/-- The first character of a scalar as it is written. -/
theorem Inline.IsValid.exists_written {v : Inline} (hv : v.IsValid) (tail : List Char) :
    ∃ c rest, v.written ++ tail = c :: rest ∧ tail.length ≤ rest.length
      ∧ BeginsContent (c :: rest) := by
  cases v with
  | plain text =>
    have hplain : IsPlain text := hv
    obtain ⟨c, more, rfl⟩ := List.exists_cons_of_ne_nil hplain.ne_nil
    exact ⟨c, more ++ tail, rfl, by simp, fun d hd => hplain.head d hd⟩
  | quoted double text =>
    refine ⟨_, _, rfl, ?_, fun d hd => ?_⟩
    · simp only [List.append_eq, List.length_append]
      omega
    · obtain rfl : quoteMark double = d := by simpa using hd
      cases double <;> decide

namespace Scanner

theorem moveTo_append (s : Scanner) (passed : List Char) {rest : List Char}
    (h : s.rest = passed ++ rest) :
    s.moveTo rest = { s with rest, place := s.place.after passed } := by
  have htake : s.rest.take (s.rest.length - rest.length) = passed := by
    rw [h, List.length_append, Nat.add_sub_cancel, List.take_left]
  rw [moveTo, htake]

theorem inFlow_eq_false {s : Scanner} (h : s.outerKeys = []) : s.inFlow = false := by
  rw [inFlow, h]
  rfl

/-- Passing over spaces, up to a line with content or to anything else on the line. -/
theorem skipSpacing_content {s : Scanner} {column : Nat} {content : List Char}
    (h : BeginsContent content) (hrest : s.rest = List.replicate column ' ' ++ content) (fuel : Nat) :
    s.skipSpacing (fuel + 1)
      = { s with rest := content, place := s.place.after (List.replicate column ' ') } := by
  have hmark : s.rest.head? ≠ some byteOrderMark := by
    rw [hrest]
    cases column with
    | zero =>
      intro hhead
      exact (h _ hhead).2.2 rfl
    | succ n => simp [List.replicate_succ, byteOrderMark]
  have hdrop : ∀ tabs : Bool, (s.rest.dropWhile fun c => c == ' ' || (tabs && c == '\t')) = content := by
    intro tabs
    rw [hrest, List.dropWhile_append_of_pos (by simp +contextual)]
    cases content with
    | nil => rfl
    | cons c rest =>
      obtain ⟨hspacing, -⟩ := h c rfl
      have hblank : c ≠ ' ' ∧ c ≠ '\t' := by
        constructor <;> rintro rfl <;> cases hspacing
      rw [List.dropWhile_cons_of_neg (by simp [hblank])]
  have hcomment : (content.head? == some '#') = false := by
    rw [beq_eq_false_iff_ne]
    exact fun hhead => (h _ hhead).2.1 rfl
  have hbreak : content.head?.any isBreak = false := by
    cases content with
    | nil => rfl
    | cons c rest =>
      have hspacing := (h c rfl).1
      rw [isSpacing, Bool.or_eq_false_iff] at hspacing
      exact hspacing.2
  rw [skipSpacing]
  simp only [beq_eq_false_iff_ne.mpr hmark, Bool.and_false, Bool.false_eq_true, if_false, hdrop,
    hcomment, hbreak]
  exact moveTo_append s _ hrest

/-- Passing over the rest of a line without content. -/
theorem skipSpacing_line {s : Scanner} (hflow : s.outerKeys = []) {r : Remark} (hr : r.IsValid)
    {more : List Char} (hrest : s.rest = r.text ++ '\n' :: more) (fuel : Nat) :
    ∃ index, s.skipSpacing (fuel + 1)
      = skipSpacing fuel
          { s with rest := more, place := ⟨index, s.place.line + 1, 0⟩, keyAllowed := true } := by
  have hmark : s.rest.head? ≠ some byteOrderMark := by
    rw [hrest, Remark.text]
    cases r.blanks with
    | zero => cases r.comment <;> simp [byteOrderMark]
    | succ n => simp [List.replicate_succ, byteOrderMark]
  have hdrop : ∀ tabs : Bool, (s.rest.dropWhile fun c => c == ' ' || (tabs && c == '\t'))
      = r.comment.elim [] ('#' :: ·) ++ '\n' :: more := by
    intro tabs
    rw [hrest, Remark.text, List.append_assoc, List.dropWhile_append_of_pos (by simp +contextual)]
    cases r.comment <;> simp
  have hskip : (if (r.comment.elim [] ('#' :: ·) ++ '\n' :: more).head? == some '#' then
      (r.comment.elim [] ('#' :: ·) ++ '\n' :: more).dropWhile fun c => !isBreak c
      else r.comment.elim [] ('#' :: ·) ++ '\n' :: more) = '\n' :: more := by
    cases hbody : r.comment with
    | none => simp
    | some body =>
      have hin : ∀ c ∈ '#' :: body, (!isBreak c) = true := by
        intro c hc
        rw [Bool.not_eq_true']
        refine Remark.isBreak_text hr c ?_
        rw [Remark.text, hbody]
        exact List.mem_append_right _ hc
      rw [Option.elim_some, if_pos (by simp), List.dropWhile_append_of_pos hin]
      rfl
  obtain ⟨index, hplace⟩ := Place.after_append_feed (Remark.isBreak_text hr) s.place []
  refine ⟨index, ?_⟩
  have hmove : s.moveTo more = { s with rest := more, place := ⟨index, s.place.line + 1, 0⟩ } := by
    rw [moveTo_append s (r.text ++ ['\n']) (by simp [hrest]), hplace]
    rfl
  rw [skipSpacing]
  simp only [beq_eq_false_iff_ne.mpr hmark, Bool.and_false, Bool.false_eq_true, if_false, hdrop]
  rw [hskip]
  simp only [List.head?_cons, Option.any_some, show isBreak '\n' = true from rfl, if_true]
  rw [show dropBreak ('\n' :: more) = more from rfl, hmove, inFlow_eq_false hflow]
  simp

/-- Passing over lines without content, up to one with content. -/
theorem skipSpacing_remarks {remarks : List Remark} (h : ∀ r ∈ remarks, r.IsValid)
    {column : Nat} {content : List Char} (hcontent : BeginsContent content) {s : Scanner}
    (hflow : s.outerKeys = [])
    (hrest : s.rest = remarkLines remarks ++ (List.replicate column ' ' ++ content))
    (hstart : remarks = [] → s.place.column = 0 ∧ s.keyAllowed = true) {fuel : Nat}
    (hfuel : s.rest.length < fuel) :
    ∃ place : Place, place.column = column ∧ place.line = s.place.line + remarks.length
      ∧ s.skipSpacing fuel = { s with rest := content, place, keyAllowed := true } := by
  induction remarks generalizing s fuel with
  | nil =>
    obtain ⟨hcolumn, hallowed⟩ := hstart rfl
    obtain ⟨fuel, rfl⟩ : ∃ n, fuel = n + 1 := ⟨fuel - 1, by omega⟩
    rw [remarkLines, List.flatMap_nil, List.nil_append] at hrest
    have hspaces : ∀ c ∈ List.replicate column ' ', isBreak c = false := by
      simp +contextual [isBreak]
    have hplace := Place.after_of_oneLine hspaces s.place
    refine ⟨s.place.after (List.replicate column ' '), ?_, ?_, ?_⟩
    · rw [hplace]
      simp [hcolumn]
    · rw [hplace]
      rfl
    · rw [skipSpacing_content hcontent hrest, ← hallowed]
  | cons r remarks ih =>
    obtain ⟨fuel, rfl⟩ : ∃ n, fuel = n + 1 := ⟨fuel - 1, by omega⟩
    rw [remarkLines_cons, List.append_assoc, List.cons_append] at hrest
    obtain ⟨index, hline⟩ := skipSpacing_line hflow (h r List.mem_cons_self) hrest fuel
    have hshorter : (remarkLines remarks ++ (List.replicate column ' ' ++ content)).length < fuel := by
      have hlength := congrArg List.length hrest
      rw [List.length_append, List.length_cons] at hlength
      omega
    -- the rest of the lines, from the start of the next
    obtain ⟨place, hcolumn, hbehind, hskip⟩ :=
      ih (s := { s with
        rest := remarkLines remarks ++ (List.replicate column ' ' ++ content)
        place := ⟨index, s.place.line + 1, 0⟩, keyAllowed := true })
        (fun q hq => h q (List.mem_cons_of_mem r hq)) hflow rfl (fun _ => ⟨rfl, rfl⟩) hshorter
    refine ⟨place, hcolumn, ?_, by rw [hline, hskip]⟩
    rw [hbehind, List.length_cons]
    show s.place.line + 1 + remarks.length = s.place.line + (remarks.length + 1)
    omega

/-! ## Steps -/

/-- The scanner outside of brackets. -/
def block (rest : List Char) (place : Place) (tokens : List Token) (indents : List Nat)
    (key : Option SimpleKey) (keyAllowed : Bool) : Scanner :=
  ⟨rest, place, tokens.toArray, indents, key, [], keyAllowed⟩

/-- Whether the tokens that one scanner gives are those that the other gives. -/
def Reaches (s t : Scanner) : Prop :=
  ∀ fuel, s.rest.length < fuel → ∃ left, t.rest.length < left ∧ s.run fuel = t.run left

theorem Reaches.refl (s : Scanner) : s.Reaches s := fun fuel hfuel => ⟨fuel, hfuel, rfl⟩

theorem Reaches.trans {s t u : Scanner} (h : s.Reaches t) (h' : t.Reaches u) : s.Reaches u := by
  intro fuel hfuel
  obtain ⟨left, hleft, hrun⟩ := h fuel hfuel
  obtain ⟨last, hlast, hrun'⟩ := h' left hleft
  exact ⟨last, hlast, hrun.trans hrun'⟩

/-- One token is read once the spacing before it is passed and the blocks that end before it are
closed. -/
theorem Reaches.token {s t u : Scanner}
    (h : (s.skipSpacing (s.rest.length + 1)).dropStale? = some t) {c : Char} {rest : List Char}
    (hrest : t.rest = c :: rest)
    (htoken : (t.closeBlocks (some t.place.column)).token? c rest = some u)
    (hshorter : u.rest.length < s.rest.length) : s.Reaches u := by
  intro fuel hfuel
  obtain ⟨fuel, rfl⟩ : ∃ n, fuel = n + 1 := ⟨fuel - 1, by omega⟩
  refine ⟨fuel, by omega, ?_⟩
  rw [run, h, Option.bind_some, hrest]
  simp only [htoken, Option.bind_some]

theorem closeBlocks_block {inner cur : List Nat} {column : Nat} (hinner : ∀ i ∈ inner, column < i)
    (hcur : ∀ i ∈ cur.head?, i ≤ column) (rest : List Char) (place : Place) (tokens : List Token)
    (key : Option SimpleKey) (allowed : Bool) :
    (block rest place tokens (inner ++ cur) key allowed).closeBlocks (some column)
      = block rest place (tokens ++ List.replicate inner.length .blockEnd) cur key allowed := by
  have hstop : cur.takeWhile (fun indent => (some column).all (· < indent)) = [] := by
    cases cur with
    | nil => rfl
    | cons i rest =>
      have hi : i ≤ column := hcur i rfl
      rw [List.takeWhile_cons_of_neg (by simpa using hi)]
  have hclosed : (inner ++ cur).takeWhile (fun indent => (some column).all (· < indent)) = inner := by
    rw [List.takeWhile_append_of_pos (by simpa using hinner), hstop, List.append_nil]
  rw [closeBlocks, if_neg (by simp [block, inFlow])]
  simp only [block, hclosed, List.drop_left]
  simp

/-- No block is closed that begins further left, or at the same column. -/
theorem closeBlocks_eq_self {indents : List Nat} {column : Nat} (h : ∀ i ∈ indents.head?, i ≤ column)
    (rest : List Char) (place : Place) (tokens : List Token) (key : Option SimpleKey)
    (allowed : Bool) :
    (block rest place tokens indents key allowed).closeBlocks (some column)
      = block rest place tokens indents key allowed := by
  have hnone : ∀ i ∈ ([] : List Nat), column < i := by simp
  have hclose := closeBlocks_block hnone h rest place tokens key allowed
  rwa [List.length_nil, List.replicate_zero, List.append_nil] at hclose

theorem startsMarker_cons {c : Char} (h : c.isAlphanum = true ∨ c = '_') (rest : List Char) :
    startsMarker (c :: rest) = false := by
  have hdash : c ≠ '-' := by
    rintro rfl
    exact absurd h (by decide)
  have hdot : c ≠ '.' := by
    rintro rfl
    exact absurd h (by decide)
  rw [startsMarker]
  · rintro rest' heq
    exact hdash (List.cons.inj heq).1
  · rintro rest' heq
    exact hdot (List.cons.inj heq).1

/-- What begins a plain scalar is read as one.  At the margin it must not begin a marker. -/
theorem token?_eq_plain? {s : Scanner} {c : Char} {rest : List Char}
    (hspacing : isSpacing c = false)
    (hindicator : isIndicator c = false ∨ c ∈ ['-', '?', ':'] ∧ startsBlank rest = false)
    (hflow : s.inFlow = false)
    (hmargin : s.place.column = 0 → c.isAlphanum = true ∨ c = '_') :
    s.token? c rest = s.plain? := by
  have hdirective : (s.place.column == 0 && c == '%') = false := by
    rw [Bool.and_eq_false_imp]
    intro hcolumn
    rw [beq_eq_false_iff_ne]
    rintro rfl
    exact absurd (hmargin (by simpa using hcolumn)) (by decide)
  have hmarker : (s.place.column == 0 && startsMarker (c :: rest)) = false := by
    rw [Bool.and_eq_false_imp]
    intro hcolumn
    exact startsMarker_cons (hmargin (by simpa using hcolumn)) rest
  rcases hindicator with hindicator | ⟨hmem, hblank⟩
  · have hnot : ∀ d ∈ "-?:,[]\x7b\x7d#&*!|>'\"%@`".toList, c ≠ d := by
      rintro d hd rfl
      rw [isIndicator, List.contains_eq_mem, decide_eq_false_iff_not] at hindicator
      exact hindicator hd
    rw [token?]
    · simp only [hdirective, hmarker, hspacing, hindicator]
      rfl
    all_goals exact hnot _ (by decide)
  · simp only [List.mem_cons, List.not_mem_nil, or_false] at hmem
    rcases hmem with rfl | rfl | rfl
    · rw [token?]
      simp only [hdirective, hmarker, hblank]
      rfl
    · rw [token?]
      simp only [hdirective, hmarker, hblank, hflow]
      rfl
    · rw [token?]
      simp only [hdirective, hmarker, hblank, hflow]
      rfl

/-! ## Settled scanners -/

/-- A scanner that stands, once the spacing is passed, before a line with content. -/
structure Settled (s : Scanner) (column : Nat) (content : List Char) (tokens : List Token)
    (indents : List Nat) : Prop where
  exists_place : ∃ place : Place, place.column = column
    ∧ (s.skipSpacing (s.rest.length + 1)).dropStale?
      = some (block content place tokens indents none true)
  length_le : content.length ≤ s.rest.length

/-- A key that may have begun on an earlier line is given up. -/
theorem dropStale?_block {rest : List Char} {place : Place} {tokens : List Token}
    {indents : List Nat} {key : Option SimpleKey} {allowed : Bool}
    (h : ∀ k ∈ key, k.required = false ∧ k.place.line < place.line) :
    (block rest place tokens indents key allowed).dropStale?
      = some (block rest place tokens indents none allowed) := by
  cases key with
  | none => rfl
  | some k =>
    obtain ⟨hrequired, hline⟩ := h k rfl
    have hreaches : (block rest place tokens indents (some k) allowed).reaches k = false := by
      rw [reaches, Bool.and_eq_false_imp]
      intro hle
      exact absurd (of_decide_eq_true hle) (by simpa [block] using hline)
    rw [dropStale?]
    simp only [block] at hreaches ⊢
    simp [hreaches, forget?, hrequired]

/-- Before lines without content. -/
theorem settled_remarks {remarks : List Remark} (h : ∀ r ∈ remarks, r.IsValid) {column : Nat}
    {content : List Char} (hcontent : BeginsContent content) {place : Place} {tokens : List Token}
    {indents : List Nat} {key : Option SimpleKey} {allowed : Bool}
    (hstart : remarks = [] → place.column = 0 ∧ allowed = true)
    (hkey : ∀ k ∈ key, k.required = false ∧ k.place.line < place.line + remarks.length) :
    (block (remarkLines remarks ++ (List.replicate column ' ' ++ content)) place tokens indents key
      allowed).Settled column content tokens indents where
  exists_place := by
    obtain ⟨next, hcolumn, hline, hskip⟩ := skipSpacing_remarks h hcontent
      (s := block (remarkLines remarks ++ (List.replicate column ' ' ++ content)) place tokens indents
        key allowed) rfl rfl hstart (Nat.lt_succ_self _)
    refine ⟨next, hcolumn, ?_⟩
    rw [hskip]
    exact dropStale?_block fun k hk => ⟨(hkey k hk).1, hline ▸ (hkey k hk).2⟩
  length_le := by
    simp only [block, List.length_append]
    omega

/-- Before content. -/
theorem settled_content {content : List Char} (hcontent : BeginsContent content) {place : Place}
    {tokens : List Token} {indents : List Nat} {key : Option SimpleKey}
    (hkey : ∀ k ∈ key, k.required = false ∧ k.place.line < place.line) :
    (block content place tokens indents key true).Settled place.column content tokens indents where
  exists_place := by
    refine ⟨place, rfl, ?_⟩
    have hskip : (block content place tokens indents key true).skipSpacing (content.length + 1)
        = block content place tokens indents key true :=
      skipSpacing_content (s := block content place tokens indents key true) hcontent
        (show content = List.replicate 0 ' ' ++ content from rfl) _
    show Option.bind _ _ = _
    exact (congrArg dropStale? hskip).trans (dropStale?_block hkey)
  length_le := Nat.le_refl _

/-! ## Scalars -/

/-- The possible key that is remembered at a place. -/
def savedKey (indents : List Nat) (position : Nat) (place : Place) (allowed : Bool) :
    Option SimpleKey :=
  if allowed then some ⟨indents.head? == some place.column, position, place⟩ else none

theorem saveKey?_block (rest : List Char) (place : Place) (tokens : List Token)
    (indents : List Nat) (allowed : Bool) :
    (block rest place tokens indents none allowed).saveKey?
      = some (block rest place tokens indents (savedKey indents tokens.length place allowed)
          allowed) := by
  cases allowed <;> simp [saveKey?, dropKey?, forget?, block, savedKey, inFlow]

/-- A key that is saved within the innermost collection need not be one. -/
theorem required_eq_false_of_mem_savedKey {indents : List Nat} {indent position : Nat} {place : Place}
    {allowed : Bool} (hindents : indents.head? = some indent) (hplace : indent < place.column) :
    ∀ k ∈ savedKey indents position place allowed, k.required = false ∧ k.place = place := by
  intro k hk
  rw [savedKey] at hk
  split at hk
  · cases hk
    have hne : indent ≠ place.column := by omega
    exact ⟨by simpa [hindents] using hne, rfl⟩
  · cases hk

theorem moveTo_block {passed rest : List Char} {place : Place} {tokens : List Token}
    {indents : List Nat} {key : Option SimpleKey} {allowed : Bool} :
    (block (passed ++ rest) place tokens indents key allowed).moveTo rest
      = block rest (place.after passed) tokens indents key allowed :=
  moveTo_append _ passed rfl

theorem emit_block (rest : List Char) (place : Place) (tokens : List Token) (indents : List Nat)
    (key : Option SimpleKey) (allowed : Bool) (t : Token) :
    (block rest place tokens indents key allowed).emit t
      = block rest place (tokens ++ [t]) indents key allowed := by
  simp [emit, block]

theorem plain?_block {text tail : List Char} (htext : IsPlain text) {indents : List Nat}
    (htail : PlainScalar.Stops ((indents.head?.map (· + 1)).getD 0) tail) (place : Place)
    (tokens : List Token) (allowed : Bool) :
    (block (text ++ tail) place tokens indents none allowed).plain?
      = some (block (tail.dropWhile isSpacing) (place.after (text ++ tail.takeWhile isSpacing))
          (tokens ++ [.scalar (String.ofList text) .plain]) indents
          (savedKey indents tokens.length place allowed)
          !(breaksOf (tail.takeWhile isSpacing)).isEmpty) := by
  have hsplit : text ++ tail
      = (text ++ tail.takeWhile isSpacing) ++ tail.dropWhile isSpacing := by
    rw [List.append_assoc, List.takeWhile_append_dropWhile]
  have hread := PlainScalar.ofText?_append htext htail
  have hmove : ∀ key, (block (text ++ tail) place tokens indents key allowed).moveTo
      (tail.dropWhile isSpacing) = block (tail.dropWhile isSpacing)
        (place.after (text ++ tail.takeWhile isSpacing)) tokens indents key allowed :=
    fun key => moveTo_append _ _ hsplit
  rw [plain?, saveKey?_block]
  show (PlainScalar.ofText? false ((indents.head?.map (· + 1)).getD 0) (text ++ tail)).bind _ = _
  rw [hread, Option.bind_some, hmove]
  exact congrArg some (emit_block _ _ _ _ _ _ _)

/-- Reading a quoted scalar. -/
theorem named?_quoted {double : Bool} {text tail : List Char} (htext : IsQuotable double text)
    (htail : double = false → tail.head? ≠ some '\'') (place : Place) (tokens : List Token)
    (indents : List Nat) (allowed : Bool) :
    (block ((Inline.quoted double text).written ++ tail) place tokens indents none allowed).named?
        (fun text => (quoted? double (text.drop 1)).map fun (found, rest) =>
          (.scalar (String.ofList found) (Inline.quoted double found).style, rest))
      = some (block tail (place.after (Inline.quoted double text).written)
          (tokens ++ [(Inline.quoted double text).token]) indents
          (savedKey indents tokens.length place allowed) false) := by
  have hread : quoted? double (((Inline.quoted double text).written ++ tail).drop 1)
      = some (text, tail) := by
    simpa [Inline.written] using quoted?_append htext htail
  have hmove : ∀ key, (block ((Inline.quoted double text).written ++ tail) place tokens indents key
      allowed).moveTo tail = block tail (place.after (Inline.quoted double text).written) tokens
        indents key allowed := fun key => moveTo_block
  rw [named?, saveKey?_block]
  show ((quoted? double (((Inline.quoted double text).written ++ tail).drop 1)).map _).bind _ = _
  rw [hread, Option.map_some, Option.bind_some]
  dsimp only
  rw [hmove]
  exact congrArg some (emit_block _ _ _ _ _ _ _)

/-- A plain scalar that does not stand at the margin is read as one. -/
theorem token?_eq_plain?_of_isPlain {text tail : List Char} (htext : IsPlain text) {place : Place}
    (hplace : 0 < place.column) {tokens : List Token} {indents : List Nat} {key : Option SimpleKey}
    {allowed : Bool} {c : Char} {rest : List Char} (hrest : text ++ tail = c :: rest) :
    (block (c :: rest) place tokens indents key allowed).token? c rest
      = (block (c :: rest) place tokens indents key allowed).plain? := by
  obtain ⟨d, more, rfl⟩ := List.exists_cons_of_ne_nil htext.ne_nil
  obtain ⟨rfl, rfl⟩ := List.cons.inj hrest
  have hbegins := htext.begins
  simp only [beginsPlain, Bool.and_eq_true, Bool.or_eq_true, Bool.not_eq_true'] at hbegins
  refine token?_eq_plain? hbegins.1.1 ?_ rfl fun hzero => absurd hzero (Nat.ne_of_gt hplace)
  refine hbegins.2.imp id fun hmark => ⟨by simpa using hmark.1, ?_⟩
  -- something that is no blank follows the mark
  cases more with
  | nil => cases hmark.2
  | cons e more => exact hmark.2

/-- A quoted scalar begins with its mark. -/
theorem token?_eq_named? {double : Bool} {text tail : List Char} {place : Place}
    {tokens : List Token} {indents : List Nat} {key : Option SimpleKey} {allowed : Bool}
    {c : Char} {rest : List Char} (hrest : (Inline.quoted double text).written ++ tail = c :: rest) :
    (block (c :: rest) place tokens indents key allowed).token? c rest
      = (block (c :: rest) place tokens indents key allowed).named? fun text =>
          (quoted? double (text.drop 1)).map fun (found, rest) =>
            (.scalar (String.ofList found) (Inline.quoted double found).style, rest) := by
  obtain rfl : quoteMark double = c := by
    rw [Inline.written, List.cons_append] at hrest
    exact (List.cons.inj hrest).1
  cases double <;> simp [token?, quoteMark, startsMarker, Inline.style]

/-! ## Scalars and what comes behind them -/

/-- The spacing behind a scalar goes on to a line that is indented less. -/
theorem stops_gap {g : Gap} (hg : g.IsValid) {indent column : Nat} (hcolumn : column < indent)
    {content : List Char} (hcontent : BeginsContent content) :
    PlainScalar.Stops indent (g.text ++ (List.replicate column ' ' ++ content)) := by
  obtain ⟨hnoTab, hends⟩ := spacing_remarkLines hg.remarks hcontent column
  refine ⟨?_, hnoTab, fun _ => ?_⟩
  · intro c rest heq
    obtain ⟨d, more, htext, hspacing⟩ := hg.exists_text
    rw [htext, List.cons_append] at heq
    exact .inl ((List.cons.inj heq).1 ▸ hspacing)
  · rw [Gap.text]
    rcases hends with ⟨hdrop, htake⟩ | ⟨r, rest, -, hmark, hdrop⟩
    · obtain ⟨lines, hlines⟩ : ∃ lines, remarkLines (g.ending :: g.lines) = lines ++ ['\n'] := by
        rcases List.eq_nil_or_concat (g.ending :: g.lines) with hnil | ⟨first, last, hlast⟩
        · cases hnil
        · exact ⟨remarkLines first ++ last.text, by simp [hlast, remarkLines]⟩
      refine .inr ⟨?_, ?_⟩
      · rw [htake, hlines]
        exact breaksOf_ne_nil (by simp)
      · have hspaces : (List.replicate column ' ').takeWhile isBlank = List.replicate column ' ' :=
          List.takeWhile_eq_self_iff.mpr (by simp +contextual [isBlank])
        have hbehind : columnAfterBreak (lines ++ '\n' :: List.replicate column ' ') = column := by
          rw [columnAfterBreak, List.reverse_append, List.reverse_cons, List.reverse_replicate,
            List.append_assoc, List.takeWhile_append_of_pos (by simp +contextual [isBlank])]
          simp [isBlank]
        rw [htake, hlines, List.append_assoc, List.singleton_append, hbehind]
        exact hcolumn
    · refine .inl ?_
      rw [hdrop, remarkLines_cons]
      generalize r.text = text at hmark
      cases text with
      | nil => cases hmark
      | cons c more => exact hmark

/-- Reading a scalar that does not begin where a key of the innermost collection would. -/
theorem token?_scalar {v : Inline} (hv : v.IsValid) {g : Gap} (hg : g.IsValid)
    {indents : List Nat} {indent column : Nat} (hindents : indents.head? = some indent)
    (hcolumn : column ≤ indent) {content : List Char} (hcontent : BeginsContent content)
    {place : Place} (hplace : indent < place.column) (tokens : List Token) (allowed : Bool)
    {c : Char} {rest : List Char}
    (hrest : v.written ++ (g.text ++ (List.replicate column ' ' ++ content)) = c :: rest) :
    ∃ u, (block (c :: rest) place tokens indents none allowed).token? c rest = some u
      ∧ u.rest.length ≤ rest.length ∧ u.Settled column content (tokens ++ [v.token]) indents := by
  have hless : column < (indents.head?.map (· + 1)).getD 0 := by
    rw [hindents]
    exact Nat.lt_succ_of_le hcolumn
  have hlength : (g.text ++ (List.replicate column ' ' ++ content)).length ≤ rest.length := by
    obtain ⟨d, more, hwritten, hle, -⟩ :=
      hv.exists_written (g.text ++ (List.replicate column ' ' ++ content))
    obtain ⟨-, rfl⟩ := List.cons.inj (hrest.symm.trans hwritten)
    exact hle
  have hkey : ∀ k ∈ savedKey indents tokens.length place allowed,
      k.required = false ∧ k.place = place := required_eq_false_of_mem_savedKey hindents hplace
  cases v with
  | plain text =>
    have hplain : IsPlain text := hv
    have hstops := stops_gap hg hless hcontent
    obtain ⟨-, hends⟩ := spacing_remarkLines hg.remarks hcontent column
    rw [token?_eq_plain?_of_isPlain hplain (Nat.zero_lt_of_lt hplace) hrest, ← hrest]
    refine ⟨_, plain?_block hplain hstops place tokens allowed,
      (List.dropWhile_suffix isSpacing).length_le.trans hlength, ?_⟩
    rw [Gap.text]
    rcases hends with ⟨hdrop, htake⟩ | ⟨r, more, hvalid, -, hdrop⟩
    · -- the line with content comes next
      obtain ⟨index, hafter⟩ := Place.after_remarkLines hg.remarks
        (isBreak_of_staysPlain hplain.stays) place column
      have hline : (!(breaksOf (remarkLines (g.ending :: g.lines)
          ++ List.replicate column ' ')).isEmpty) = true := by
        have hfeed : '\n' ∈ remarkLines (g.ending :: g.lines) := by simp [remarkLines_cons]
        simpa using breaksOf_ne_nil (List.mem_append_left _ hfeed)
      rw [hdrop, htake, hafter, hline]
      refine settled_content hcontent fun k hk => ⟨(hkey k hk).1, ?_⟩
      rw [(hkey k hk).2]
      show place.line < place.line + (g.lines.length + 1)
      omega
    · -- a comment comes next
      rw [hdrop]
      refine settled_remarks hvalid hcontent (fun hnil => by cases hnil) fun k hk =>
        ⟨(hkey k hk).1, ?_⟩
      rw [(hkey k hk).2, List.length_cons]
      have hle := Place.le_line_after place (text ++ (remarkLines (g.ending :: g.lines)
        ++ (List.replicate column ' ' ++ content)).takeWhile isSpacing)
      omega
  | quoted double text =>
    have hquote : double = false →
        (g.text ++ (List.replicate column ' ' ++ content)).head? ≠ some '\'' := by
      obtain ⟨d, more, htext, hspacing⟩ := hg.exists_text
      rw [htext]
      rintro - hhead
      obtain rfl : d = '\'' := by simpa using hhead
      cases hspacing
    rw [token?_eq_named? hrest, ← hrest, named?_quoted hv hquote]
    refine ⟨_, rfl, hlength, settled_remarks hg.remarks hcontent (fun hnil => by cases hnil) fun k hk =>
      ⟨(hkey k hk).1, ?_⟩⟩
    rw [(hkey k hk).2, List.length_cons]
    have hle := Place.le_line_after place (Inline.quoted double text).written
    omega

/-- A scalar behind a colon or a dash. -/
theorem exists_reaches_scalar {v : Inline} (hv : v.IsValid) {g : Gap} (hg : g.IsValid)
    {indents : List Nat} {indent column : Nat} (hindents : indents.head? = some indent)
    (hcolumn : column ≤ indent) {content : List Char} (hcontent : BeginsContent content)
    {place : Place} (hplace : indent < place.column) (tokens : List Token) (allowed : Bool) :
    ∃ u, (block (' ' :: (v.written ++ (g.text ++ (List.replicate column ' ' ++ content)))) place tokens
        indents none allowed).Reaches u
      ∧ u.Settled column content (tokens ++ [v.token]) indents := by
  obtain ⟨c, rest, hwritten, -, hbegins⟩ :=
    hv.exists_written (g.text ++ (List.replicate column ' ' ++ content))
  have hnext : indent < (place.after [' ']).column := hplace.trans (Nat.lt_succ_self _)
  obtain ⟨u, htoken, hshorter, hu⟩ := token?_scalar hv hg hindents hcolumn hcontent hnext tokens
    allowed hwritten
  have hskip : (block (' ' :: c :: rest) place tokens indents none allowed).skipSpacing
      ((' ' :: c :: rest).length + 1)
      = block (c :: rest) (place.after [' ']) tokens indents none allowed :=
    skipSpacing_content (s := block (' ' :: c :: rest) place tokens indents none allowed) hbegins
      (show ' ' :: c :: rest = List.replicate 1 ' ' ++ c :: rest from rfl) _
  have hlower : ∀ i ∈ indents.head?, i ≤ (place.after [' ']).column := by
    simpa [hindents] using hnext.le
  have hclose := closeBlocks_eq_self hlower (c :: rest) (place.after [' ']) tokens none allowed
  rw [hwritten]
  refine ⟨u, Reaches.token (t := block (c :: rest) (place.after [' ']) tokens indents none allowed)
    ((congrArg dropStale? hskip).trans rfl) rfl ((congrArg (token? · c rest) hclose).trans htoken) ?_, hu⟩
  show u.rest.length < (' ' :: c :: rest).length
  simp only [List.length_cons]
  omega

end Scanner

end Stave.Yaml
