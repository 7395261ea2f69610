/-!
# Blanks, words and lines

Text is handled as a list of characters.  A *blank* is a character with the Unicode `White_Space`
property; a *word* is a maximal run without blanks; a *line* ends at a line feed, and a carriage
return right before that line feed belongs to the ending.
-/

namespace Stave.Text

/-! ## Blanks -/

/-- A character with the Unicode `White_Space` property. -/
def isBlank (c : Char) : Bool :=
  let n := c.toNat
  (0x09 ≤ n && n ≤ 0x0D) || n == 0x20 || n == 0x85 || n == 0xA0 || n == 0x1680
    || (0x2000 ≤ n && n ≤ 0x200A) || n == 0x2028 || n == 0x2029 || n == 0x202F || n == 0x205F
    || n == 0x3000

/-- The text without the blanks at its start. -/
def trimStart (text : List Char) : List Char := text.dropWhile isBlank

/-- The text without the blanks at its end. -/
def trimEnd (text : List Char) : List Char := (text.reverse.dropWhile isBlank).reverse

/-- The text without the blanks at either end. -/
def trim (text : List Char) : List Char := trimEnd (trimStart text)

/-- The string without the blanks at either end. -/
def trimString (s : String) : String := String.ofList (trim s.toList)

/-! ## Words -/

/-- The maximal runs of characters without a blank, in order. -/
def words (text : List Char) : List (List Char) :=
  match _found : trimStart text with
  | [] => []
  | c :: rest => (c :: rest.takeWhile fun c => !isBlank c) :: words (rest.dropWhile fun c => !isBlank c)
termination_by text.length
decreasing_by
  have shorter : (trimStart text).length ≤ text.length := (List.dropWhile_suffix _).length_le
  have tail := (List.dropWhile_suffix (l := rest) fun c => !isBlank c).length_le
  rw [_found, List.length_cons] at shorter
  omega

/-! ## Lines -/

/-- A line's content: a carriage return before the line feed is part of the ending. -/
def dropReturn (line : List Char) : List Char :=
  if line.getLast? = some '\r' then line.dropLast else line

/-- The lines of a text.  Every line feed ends a line, so a text that ends with one has no empty
line after it; a carriage return that no line feed follows stays in its line. -/
def lines (text : List Char) : List (List Char) :=
  if text.isEmpty then []
  else
    match _found : text.dropWhile (· != '\n') with
    | [] => [text]
    | _ :: rest => dropReturn (text.takeWhile (· != '\n')) :: lines rest
termination_by text.length
decreasing_by
  have shorter := (List.dropWhile_suffix (l := text) (· != '\n')).length_le
  rw [_found, List.length_cons] at shorter
  omega

/-! ## Letter case and width -/

/-- The string with the letters `A` to `Z` in lower case and every other character as it is. -/
def lowercase (s : String) : String := String.ofList (s.toList.map Char.toLower)

/-- The number of bytes that a text takes in UTF-8. -/
def width (text : List Char) : Nat := text.foldl (fun bytes c => bytes + c.utf8Size) 0

end Stave.Text
