/-!
# Lines of a text

Two notions of line are in use. The lines shown under a diagnostic end at any of
the line boundaries of Unicode; the line counter of the lexer knows the newline
character alone. When a file is read as source text, the two other usual line
endings are first turned into that character.
-/

namespace Lox

/-- Does a line end at this character? A carriage return and a newline after it
end the same line, which `splitLines` takes care of. -/
def isLineBreak (c : Char) : Bool :=
  c == '\n' || c == '\r' || c == '\x0b' || c == '\x0c' || c == '\x1c' || c == '\x1d' ||
    c == '\x1e' || c == '\u0085' || c == '\u2028' || c == '\u2029'

/-- Puts a character in front of the first line. -/
def consLine (c : Char) : List (List Char) → List (List Char)
  | [] => [[c]]
  | line :: rest => (c :: line) :: rest

/-- The lines of a text, without their ends. Nothing after the last end is no
line, so the empty text has none. -/
def splitLines : List Char → List (List Char)
  | [] => []
  | '\r' :: '\n' :: rest => [] :: splitLines rest
  | c :: rest => if isLineBreak c then [] :: splitLines rest else consLine c (splitLines rest)

/-- Writes every line ending of a file as a single newline character. -/
def unifyNewlines : List Char → List Char
  | [] => []
  | '\r' :: '\n' :: rest => '\n' :: unifyNewlines rest
  | c :: rest => (if c = '\r' then '\n' else c) :: unifyNewlines rest

/-- The lines of a source text, in order. -/
def sourceLines (source : String) : List String :=
  (splitLines source.toList).map String.ofList

/-- The line with a number, counted from one. -/
def lineAt? (lines : List String) (number : Int) : Option String :=
  if 1 ≤ number then lines[(number - 1).toNat]? else none

/-! ## Blank texts

A blank is one of the space characters of Unicode, or a character that ends lines or
separates fields. -/

/-- Is this character a blank? -/
def isBlankChar (c : Char) : Bool :=
  c == ' ' || ('\t' ≤ c && c ≤ '\r') || ('\x1c' ≤ c && c ≤ '\x1f') || c == '\u0085' ||
    c == '\u00a0' || c == '\u1680' || ('\u2000' ≤ c && c ≤ '\u200a') || c == '\u2028' ||
    c == '\u2029' || c == '\u202f' || c == '\u205f' || c == '\u3000'

/-- Does a text hold nothing but blanks? -/
def isBlank (s : String) : Bool :=
  s.toList.all isBlankChar

end Lox
