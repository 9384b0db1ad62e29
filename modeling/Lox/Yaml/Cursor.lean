/-!
# A place in a settings file

A cursor is what is still ahead of a place, and where that place is, because in block
style the columns carry the structure and a key has to end on its line. Lines end at
more characters here than in a source text, and a gap between two things can hold
blanks, line ends and comments.
-/

namespace Lox
namespace Yaml

/-- What is ahead, and where it begins. -/
structure Cursor where
  ahead : List Char
  /-- How many characters stand before the place. -/
  passed : Nat := 0
  line : Nat := 0
  column : Nat := 0

def isLineEnd (c : Char) : Bool :=
  c == '\n' || c == '\r' || c == '\u0085' || c == '\u2028' || c == '\u2029'

def isGap (c : Char) : Bool :=
  c == ' ' || c == '\t' || isLineEnd c

/-- Does a gap or the end of the text follow? -/
def gapAhead (cs : List Char) : Bool :=
  match cs with
  | [] => true
  | c :: _ => isGap c

/-- Does a blank, a line end or the end of the text follow? -/
def blankAhead (cs : List Char) : Bool :=
  match cs with
  | [] => true
  | c :: _ => c == ' ' || isLineEnd c

/-- Can this character stand in a document at all? -/
def isAllowed (c : Char) : Bool :=
  c == '\t' || c == '\n' || c == '\r' || (' ' ≤ c && c ≤ '~') || c == '\u0085' ||
    ('\u00a0' ≤ c && c ≤ '\ufffd') || '\uffff' < c

namespace Cursor

/-- The line and the column after one more character. A byte order mark takes up no
column. -/
def advance (place : Nat × Nat) (c : Char) : Nat × Nat :=
  if isLineEnd c then (place.1 + 1, 0)
  else if c = '\ufeff' then place
  else (place.1, place.2 + 1)

/-- The cursor further on, where `rest` is ahead. -/
def goTo (c : Cursor) (rest : List Char) : Cursor :=
  let between := c.ahead.take (c.ahead.length - rest.length)
  let (line, column) := between.foldl advance (c.line, c.column)
  { ahead := rest, passed := c.passed + between.length, line := line, column := column }

/-- The cursor some characters further on. -/
def forward (c : Cursor) (n : Nat) : Cursor :=
  c.goTo (c.ahead.drop n)

/-- Skips blanks, line ends and comments. -/
def skipGap (inComment : Bool) : List Char → List Char
  | [] => []
  | c :: rest =>
    if isLineEnd c then skipGap false rest
    else if inComment then skipGap true rest
    else if c = ' ' then skipGap false rest
    else if c = '#' then skipGap true rest
    else c :: rest

/-- The cursor at the next thing in the text. -/
def next (c : Cursor) : Cursor :=
  c.goTo (skipGap false c.ahead)

end Cursor

/-- Does a marker stand here that separates documents? -/
def markerAhead (cs : List Char) : Bool :=
  match cs with
  | a :: b :: c :: rest =>
    ((a == '-' && b == '-' && c == '-') || (a == '.' && b == '.' && c == '.')) && gapAhead rest
  | _ => false

/-! ## Lines folded into one -/

/-- Line ends as they count in a text. -/
def lineEnd (c : Char) : Char :=
  if c = '\u2028' ∨ c = '\u2029' then c else '\n'

/-- What a line end becomes when lines are folded: a blank, unless empty lines
follow it, which then stand for themselves. -/
def fold (first : Char) (more : List Char) : List Char :=
  if lineEnd first ≠ '\n' then lineEnd first :: more
  else if more.isEmpty then [' ']
  else more

end Yaml
end Lox
