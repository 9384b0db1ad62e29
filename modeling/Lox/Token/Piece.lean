import Lox.Token.Basic

/-!
# Cutting a source into pieces

Every source, valid or not, is a sequence of pieces that lie side by side: a
lexeme, a blank character, a comment, a stray character, or at the very end a
string or comment that is never closed. `pieces` cuts a source into them without
losing a character, so everything that is later said about positions is said by
counting the characters of the pieces before.
-/

namespace Lox

/-- What a stretch of source is. -/
inductive Form where
  | lexeme (kind : TokenKind)
  | blank
  | lineComment
  | blockComment
  | strayCharacter
  | openString
  | openComment
deriving DecidableEq, Repr

/-- A stretch of source with what it is. -/
structure Piece where
  form : Form
  text : List Char
deriving DecidableEq, Repr

namespace Piece

/-- The lexemes of one character that no longer lexeme begins with. -/
def singleKind? : Char → Option TokenKind
  | '(' => some .leftParen
  | ')' => some .rightParen
  | '{' => some .leftBrace
  | '}' => some .rightBrace
  | '[' => some .leftBracket
  | ']' => some .rightBracket
  | ',' => some .comma
  | '.' => some .dot
  | '-' => some .minus
  | '+' => some .plus
  | ';' => some .semicolon
  | '*' => some .star
  | '?' => some .question
  | ':' => some .colon
  | _ => none

/-- The characters that an equals sign may follow: the kinds with it and without. -/
def equalKinds? : Char → Option (TokenKind × TokenKind)
  | '!' => some (.bangEqual, .bang)
  | '=' => some (.equalEqual, .equal)
  | '<' => some (.lessEqual, .less)
  | '>' => some (.greaterEqual, .greater)
  | _ => none

def isBlank (c : Char) : Bool :=
  c == ' ' || c == '\r' || c == '\t' || c == '\n'

/-- The digits of numbers are the ten ASCII ones. -/
def isDigit (c : Char) : Bool :=
  '0' ≤ c && c ≤ '9'

/-- The letters of names are ASCII letters and the underscore. -/
def isLetter (c : Char) : Bool :=
  ('a' ≤ c && c ≤ 'z') || ('A' ≤ c && c ≤ 'Z') || c == '_'

def isNameChar (c : Char) : Bool :=
  isLetter c || isDigit c

/-- Walks through the inside of a block comment that is `depth` levels deep.
Gives the text walked over and, if the comment is closed, what follows it. -/
def comment : Nat → List Char → List Char × Option (List Char)
  | 0, rest => ([], some rest)
  | _ + 1, [] => ([], none)
  | depth + 1, '/' :: '*' :: rest =>
    let (text, after) := comment (depth + 2) rest
    ('/' :: '*' :: text, after)
  | depth + 1, '*' :: '/' :: rest =>
    let (text, after) := comment depth rest
    ('*' :: '/' :: text, after)
  | depth + 1, c :: rest =>
    let (text, after) := comment (depth + 1) rest
    (c :: text, after)

/-- What follows a slash. -/
def afterSlash : List Char → Piece × List Char
  | '/' :: rest =>
    (⟨.lineComment, '/' :: '/' :: rest.takeWhile (· != '\n')⟩, rest.dropWhile (· != '\n'))
  | '*' :: rest =>
    match comment 1 rest with
    | (text, some after) => (⟨.blockComment, '/' :: '*' :: text⟩, after)
    | (text, none) => (⟨.openComment, '/' :: '*' :: text⟩, [])
  | rest => (⟨.lexeme .slash, ['/']⟩, rest)

/-- What follows an opening quote. A string may span lines and knows no escapes. -/
def afterQuote (rest : List Char) : Piece × List Char :=
  let text := rest.takeWhile (· != '"')
  match rest.dropWhile (· != '"') with
  | [] => (⟨.openString, '"' :: text⟩, [])
  | quote :: after => (⟨.lexeme .string, '"' :: text ++ [quote]⟩, after)

/-- The fraction of a number: a point with at least one digit after it. -/
def fraction : List Char → List Char
  | '.' :: d :: rest => if isDigit d then '.' :: d :: rest.takeWhile isDigit else []
  | _ => []

/-- The piece that begins with a digit. -/
def afterDigit (c : Char) (rest : List Char) : Piece × List Char :=
  let whole := rest.takeWhile isDigit
  let after := rest.dropWhile isDigit
  let part := fraction after
  (⟨.lexeme .number, c :: whole ++ part⟩, after.drop part.length)

/-- The piece that begins with a letter. -/
def afterLetter (c : Char) (rest : List Char) : Piece × List Char :=
  let word := c :: rest.takeWhile isNameChar
  (⟨.lexeme (TokenKind.ofWord (String.ofList word)), word⟩, rest.dropWhile isNameChar)

/-- The piece that begins with the character `c`, and what follows it. -/
def first (c : Char) (rest : List Char) : Piece × List Char :=
  match singleKind? c with
  | some kind => (⟨.lexeme kind, [c]⟩, rest)
  | none =>
    match equalKinds? c with
    | some (withEqual, alone) =>
      match rest with
      | '=' :: after => (⟨.lexeme withEqual, [c, '=']⟩, after)
      | _ => (⟨.lexeme alone, [c]⟩, rest)
    | none =>
      if c = '/' then afterSlash rest
      else if isBlank c then (⟨.blank, [c]⟩, rest)
      else if c = '"' then afterQuote rest
      else if isDigit c then afterDigit c rest
      else if isLetter c then afterLetter c rest
      else (⟨.strayCharacter, [c]⟩, rest)

/-- At most `n` pieces from the front of a text. -/
def cut : Nat → List Char → List Piece
  | 0, _ => []
  | _ + 1, [] => []
  | n + 1, c :: rest =>
    let (piece, after) := first c rest
    piece :: cut n after

end Piece

/-- The pieces of a source. Each takes at least one character, so there are at
most as many as characters. -/
def pieces (source : List Char) : List Piece :=
  Piece.cut source.length source

end Lox
