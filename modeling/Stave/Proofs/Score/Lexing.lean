import Mathlib.Data.List.Basic
import Mathlib.Data.List.TakeWhile
import Stave.Proofs.Text.Lines
import Stave.Score.Token

/-!
# Cutting joined texts

What the tokens of a text say does not depend on where they stand.  A text that closes every bracket
it opens ends between two tokens, so that the tokens of two texts with a space between them are those
of the first and then those of the second.
-/

namespace Stave

/-- What the tokens of a text say. -/
def kindsOf (text : List Char) : List TokenKind := (tokensOf text).map Token.kind

/-- Whether every bracket that a text opens is closed behind it. -/
def closesBrackets : List Char → Bool
  | [] => true
  | c :: rest => (c != '[' || rest.contains ']') && closesBrackets rest

namespace Token

/-! ## The texts of tokens -/

/-- The texts of the tokens. -/
def cuts : List Char → List (List Char)
  | [] => []
  | c :: rest => if c = ' ' then cuts rest else (cut c rest).1 :: cuts (cut c rest).2
termination_by text => text.length
decreasing_by
  · simp
  · exact Nat.lt_succ_of_le (length_cut_snd_le c rest)

theorem cuts_space (rest : List Char) : cuts (' ' :: rest) = cuts rest := by
  rw [cuts, if_pos rfl]

theorem cuts_of_ne_space {c : Char} (h : c ≠ ' ') (rest : List Char) :
    cuts (c :: rest) = (cut c rest).1 :: cuts (cut c rest).2 := by
  rw [cuts, if_neg h]

theorem kind_scan (start : Nat) (text : List Char) (found : Array Token) :
    (scan start text found).toList.map Token.kind
      = found.toList.map Token.kind ++ (cuts text).map TokenKind.read := by
  fun_induction scan start text found with
  | case1 => simp [cuts]
  | case2 start found rest ih => rw [ih, cuts_space]
  | case3 start found c rest hspace raw finish ih => simp [ih, cuts_of_ne_space hspace, raw]

end Token

open Token

theorem kindsOf_eq (text : List Char) : kindsOf text = (cuts text).map TokenKind.read := by
  simpa [kindsOf, tokensOf] using kind_scan 0 text #[]

/-! ## Joined texts -/

theorem closesBrackets_of_suffix {a b : List Char} (h : a <:+ b) (hb : closesBrackets b = true) :
    closesBrackets a = true := by
  induction b with
  | nil => rwa [List.suffix_nil.mp h]
  | cons c rest ih =>
    rcases List.suffix_cons_iff.mp h with heq | hsuffix
    · rwa [heq]
    · exact ih hsuffix (Bool.and_eq_true_iff.mp hb).2

theorem takeWhile_append_stop {keep : Char → Bool} {stop : Char} (h : keep stop = false)
    (a b : List Char) : (a ++ stop :: b).takeWhile keep = a.takeWhile keep := by
  induction a with
  | nil => simp [h]
  | cons c rest ih => by_cases hc : keep c <;> simp [hc, ih]

theorem dropWhile_append_stop {keep : Char → Bool} {stop : Char} (h : keep stop = false)
    (a b : List Char) : (a ++ stop :: b).dropWhile keep = a.dropWhile keep ++ stop :: b := by
  induction a with
  | nil => simp [h]
  | cons c rest ih => by_cases hc : keep c <;> simp [hc, ih]

/-- Nothing stops in a text without the character to stop at. -/
theorem takeWhile_ne_eq_self {stop : Char} {text : List Char} (h : stop ∉ text) :
    text.takeWhile (· != stop) = text := by
  rw [List.takeWhile_eq_self_iff]
  exact Text.bne_of_notMem h

/-- A closed bracket is one token, and what stands behind it comes next. -/
theorem cut_bracket {inside : List Char} (h : ']' ∉ inside) (behind : List Char) :
    cut '[' (inside ++ ']' :: behind) = ('[' :: inside ++ [']'], behind) := by
  have htake : (inside ++ ']' :: behind).takeWhile (· != ']') = inside := by
    rw [takeWhile_append_stop (by decide), takeWhile_ne_eq_self h]
  rw [cut, if_pos rfl]
  simp [htake]

/-- A bracket that is never closed takes the rest of the text. -/
theorem cut_open {rest : List Char} (h : ']' ∉ rest) : cut '[' rest = ('[' :: rest, []) := by
  rw [cut, if_pos rfl]
  simp [takeWhile_ne_eq_self h]

theorem cut_word {c : Char} (hc : c ≠ '[') {rest : List Char} (h : ∀ d ∈ rest, inWord d = true) :
    cut c rest = (c :: rest, []) := by
  rw [cut, if_neg hc, List.takeWhile_eq_self_iff.mpr h, List.dropWhile_eq_nil_iff.mpr h]

/-- What stands behind the first token is the end of the text. -/
theorem cut_snd_suffix (c : Char) (rest : List Char) : (cut c rest).2 <:+ rest := by
  rw [cut]
  split
  · exact List.drop_suffix _ _
  · exact List.dropWhile_suffix _

/-- A token does not reach beyond a space behind a text unless it is a bracket that the text leaves
open. -/
theorem cut_append {c : Char} {rest : List Char} (h : c = '[' → ']' ∈ rest) (b : List Char) :
    cut c (rest ++ ' ' :: b) = ((cut c rest).1, (cut c rest).2 ++ ' ' :: b) := by
  by_cases hc : c = '['
  · obtain ⟨inside, behind, rfl, hinside⟩ := List.eq_append_cons_of_mem (h hc)
    rw [hc, List.append_assoc, List.cons_append, cut_bracket hinside, cut_bracket hinside]
  · have hspace : inWord ' ' = false := rfl
    rw [cut, if_neg hc, cut, if_neg hc, takeWhile_append_stop hspace, dropWhile_append_stop hspace]

theorem cuts_append {a : List Char} (h : closesBrackets a = true) (b : List Char) :
    cuts (a ++ ' ' :: b) = cuts a ++ cuts b := by
  fun_induction cuts a with
  | case1 => rw [List.nil_append, cuts_space, List.nil_append]
  | case2 rest ih =>
    rw [List.cons_append, cuts_space]
    exact ih (closesBrackets_of_suffix (List.suffix_cons _ _) h)
  | case3 c rest hspace ih =>
    have hrest : closesBrackets (cut c rest).2 = true :=
      closesBrackets_of_suffix ((cut_snd_suffix c rest).trans (List.suffix_cons _ _)) h
    have hclose : c = '[' → ']' ∈ rest := by
      rintro rfl
      simpa [closesBrackets] using (Bool.and_eq_true_iff.mp h).1
    rw [List.cons_append, cuts_of_ne_space hspace, cut_append hclose, ih hrest, List.cons_append]

theorem kindsOf_append {a : List Char} (h : closesBrackets a = true) (b : List Char) :
    kindsOf (a ++ ' ' :: b) = kindsOf a ++ kindsOf b := by
  rw [kindsOf_eq, kindsOf_eq, kindsOf_eq, cuts_append h, List.map_append]

theorem kindsOf_nil : kindsOf [] = [] := by
  rw [kindsOf_eq, cuts, List.map_nil]

/-- Texts joined by spaces have the tokens of the first, of the second, and so on, when all but the last
close their brackets. -/
theorem cuts_intercalate {texts : List (List Char)}
    (h : ∀ text ∈ texts.dropLast, closesBrackets text = true) :
    cuts ([' '].intercalate texts) = texts.flatMap cuts := by
  induction texts with
  | nil => simp [cuts]
  | cons text rest ih =>
    by_cases hlast : rest = []
    · simp [hlast]
    · rw [List.dropLast_cons_of_ne_nil hlast, List.forall_mem_cons] at h
      rw [List.intercalate_cons_of_ne_nil hlast, List.append_assoc, List.singleton_append,
        cuts_append h.1, ih h.2, List.flatMap_cons]

/-- Texts joined by spaces say one after the other what each says by itself. -/
theorem kindsOf_intercalate {texts : List (List Char)}
    (h : ∀ text ∈ texts, closesBrackets text = true) :
    kindsOf ([' '].intercalate texts) = texts.flatMap kindsOf := by
  rw [kindsOf_eq, cuts_intercalate fun text ht => h text (List.dropLast_subset _ ht),
    List.map_flatMap]
  exact List.flatMap_congr fun text _ => (kindsOf_eq text).symm

theorem closesBrackets_of_notMem {text : List Char} (h : '[' ∉ text) : closesBrackets text = true := by
  induction text with
  | nil => rfl
  | cons c rest ih =>
    rw [List.mem_cons, not_or] at h
    simp [closesBrackets, Ne.symm h.1, ih h.2]

/-- Behind a last closing bracket nothing is open. -/
theorem closesBrackets_concat (text : List Char) : closesBrackets (text ++ [']']) = true := by
  induction text with
  | nil => rfl
  | cons c rest ih => simp [closesBrackets, ih]

theorem closesBrackets_append {a b : List Char} (ha : closesBrackets a = true)
    (hb : closesBrackets b = true) : closesBrackets (a ++ b) = true := by
  induction a with
  | nil => exact hb
  | cons c rest ih =>
    obtain ⟨hclose, hrest⟩ := Bool.and_eq_true_iff.mp ha
    refine Bool.and_eq_true_iff.mpr ⟨?_, ih hrest⟩
    rcases Bool.or_eq_true_iff.mp hclose with hne | hmem
    · simp [hne]
    · have : ']' ∈ rest := by simpa using hmem
      simp [this]

end Stave
