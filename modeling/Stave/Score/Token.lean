import Stave.Score.Note
import Stave.Text.Blank

/-!
# Tokens

The notation of a line is cut at spaces into tokens: notes, rests, hits, holds and chords in square
brackets.  A bracket ends a word and keeps everything up to the closing bracket together; one that
is never closed takes the rest of the line.  Text that means nothing is a token as well, because it
takes its beat.
-/

namespace Stave

/-- What a token says. -/
inductive TokenKind
  | note (note : Note)
  /-- A beat of silence. -/
  | rest
  /-- A stroke without a pitch. -/
  | hit
  /-- A beat that a tie rings through. -/
  | hold
  | chord (notes : List Note)
  /-- Text without a meaning. -/
  | invalid
deriving DecidableEq, Repr, Inhabited

/-- A token and where it stands. -/
structure Token where
  kind : TokenKind
  /-- The text of the token. -/
  raw : String
  /-- Bytes before the token. -/
  start : Nat
  /-- Bytes up to the end of the token. -/
  finish : Nat
deriving DecidableEq, Repr, Inhabited

namespace TokenKind

/-- The chord between two brackets: at least one note, and nothing but notes. -/
def ofMembers (members : List (List Char)) : TokenKind :=
  match members.mapM Note.read? with
  | none => invalid
  | some [] => invalid
  | some notes => chord notes

/-- What the text of a token says. -/
def read : List Char → TokenKind
  | ['-'] => rest
  | ['_'] => rest
  | ['x'] => hit
  | ['X'] => hit
  | ['~'] => hold
  | '[' :: body =>
    if body.getLast? = some ']' then ofMembers (Text.words body.dropLast) else invalid
  | text => match Note.read? text with
    | some n => note n
    | none => invalid

end TokenKind

namespace Token

/-- Whether the token has no meaning. -/
def isInvalid (t : Token) : Bool := t.kind == .invalid

/-- A character that goes on with a word. -/
def inWord (c : Char) : Bool := c != ' ' && c != '['

/-- The text of the token that starts with `c`, which is not a space, and what follows it. -/
def cut (c : Char) (rest : List Char) : List Char × List Char :=
  if c = '[' then
    let inside := rest.takeWhile (· != ']')
    let close := (rest.drop inside.length).take 1
    (c :: inside ++ close, rest.drop (inside.length + 1))
  else (c :: rest.takeWhile inWord, rest.dropWhile inWord)

/-- What follows a token is part of what followed its first character. -/
theorem length_cut_snd_le (c : Char) (rest : List Char) : (cut c rest).2.length ≤ rest.length := by
  unfold cut
  split
  · simp
  · exact (List.dropWhile_suffix _).length_le

/-- Adds the tokens of `text`, which stands `start` bytes into the line, to those already found. -/
def scan (start : Nat) (text : List Char) (found : Array Token) : Array Token :=
  match text with
  | [] => found
  | c :: rest =>
    if c = ' ' then scan (start + 1) rest found
    else
      let raw := (cut c rest).1
      let finish := start + Text.width raw
      scan finish (cut c rest).2
        (found.push { kind := .read raw, raw := String.ofList raw, start, finish })
termination_by text.length
decreasing_by
  · simp
  · exact Nat.lt_succ_of_le (length_cut_snd_le c rest)

end Token

/-- The tokens of a line's notation, in order. -/
def tokensOf (content : List Char) : List Token := (Token.scan 0 content #[]).toList

end Stave
