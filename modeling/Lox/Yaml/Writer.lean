import Lox.Settings
import Lox.Yaml.Scalar

/-!
# Writing data

Data are written in block style, one entry or item to a line. A text is written plain
if it reads back as that text; else between single quotes if it holds nothing but
printable ASCII and newlines that stand apart from blanks; else between double quotes,
with escapes. Lines are broken at single blanks once they are wider than
`bestWidth`; what is written further down stands two columns to the right of its block.
-/

namespace Lox
namespace Yaml

/-- The width beyond which a line is broken at the next opportunity. -/
def bestWidth : Nat := 80

/-- Does a gap follow a character inside a text, or the end? -/
def closes (next : Option Char) : Bool :=
  match next with
  | none => true
  | some c => c == '\x00' || c == ' ' || c == '\t' || c == '\r' || c == '\n'

/-- Does a text hold a colon before a gap, or a hash after one? `previous` is the
character before the text. -/
def hasInnerIndicator (previous : Char) : List Char → Bool
  | [] => false
  | c :: rest =>
    (c == ':' && closes rest.head?) || (c == '#' && closes (some previous)) ||
      hasInnerIndicator c rest

/-- Does a text hold something that would give it another structure if it were
written plain? -/
def hasIndicator (cs : List Char) : Bool :=
  match cs with
  | [] => false
  | c :: rest =>
    "#,[]\x7b\x7d&*!|>'\"%@`".contains c ||
      ("?:-".contains c && closes rest.head?) ||
      ['-', '-', '-'].isPrefixOf cs || ['.', '.', '.'].isPrefixOf cs ||
      hasInnerIndicator c rest

def isPlainAscii (c : Char) : Bool :=
  ' ' ≤ c && c ≤ '~'

/-- Can a text be written without quotes, as far as its characters go? -/
def allowsPlain (cs : List Char) : Bool :=
  cs.all isPlainAscii && cs.head?.any (· != ' ') && cs.getLast?.any (· != ' ') &&
    !hasIndicator cs

/-- Do a blank and a newline stand side by side? -/
def hasMixedGap : List Char → Bool
  | a :: b :: rest =>
    (a == ' ' && b == '\n') || (a == '\n' && b == ' ') || hasMixedGap (b :: rest)
  | _ => false

/-- Can a text be written between single quotes? -/
def allowsSingle (cs : List Char) : Bool :=
  cs.all (fun c => isPlainAscii c || c == '\n') && !hasMixedGap cs

/-- A new line, and blanks up to a column. -/
def newLine (indent : Nat) : List Char :=
  '\n' :: List.replicate indent ' '

/-- The runs of blanks, of newlines, and of other characters in a text. -/
def runs (cs : List Char) : List (List Char) :=
  cs.splitBy fun a b => (a == ' ') == (b == ' ') && (a == '\n') == (b == '\n')

/-- Writes the runs of a plain or single-quoted text from a column on. A newline in
the text is written as an empty line. -/
def foldRuns (indent : Nat) : (first : Bool) → (column : Nat) → List (List Char) → List Char
  | _, _, [] => []
  | first, column, run :: rest =>
    match run.head? with
    | some ' ' =>
      if run.length = 1 ∧ bestWidth < column ∧ !first ∧ !rest.isEmpty then
        newLine indent ++ foldRuns indent false indent rest
      else run ++ foldRuns indent false (column + run.length) rest
    | some '\n' => run ++ newLine indent ++ foldRuns indent false indent rest
    | _ => run ++ foldRuns indent false (column + run.length) rest

/-- A text with the single quotes in it doubled. -/
def doubled (cs : List Char) : List Char :=
  cs.flatMap fun c => if c = '\'' then ['\'', '\''] else [c]

/-- A text between single quotes. -/
def single (indent column : Nat) (cs : List Char) : List Char :=
  '\'' :: foldRuns indent true (column + 1) (runs (doubled cs)) ++ ['\'']

/-- The letters of the escapes of one letter. -/
def escapeLetters : List (Char × Char) :=
  [('\x00', '0'), ('\x07', 'a'), ('\x08', 'b'), ('\t', 't'), ('\n', 'n'), ('\x0b', 'v'),
   ('\x0c', 'f'), ('\r', 'r'), ('\x1b', 'e'), ('"', '"'), ('\\', '\\'), ('\u0085', 'N'),
   ('\u00a0', '_'), ('\u2028', 'L'), ('\u2029', 'P')]

/-- The last digits of a number to base 16, in capital letters. -/
def codeDigits (width n : Nat) : List Char :=
  (Quoted.hex width n).map Char.toUpper

/-- How a character is written between double quotes, if not as itself. -/
def escaped? (c : Char) : Option (List Char) :=
  if isPlainAscii c && c != '"' && c != '\\' then none
  else
    match escapeLetters.lookup c with
    | some letter => some ['\\', letter]
    | none =>
      let n := c.toNat
      some (if n < 0x100 then '\\' :: 'x' :: codeDigits 2 n
        else if n < 0x10000 then '\\' :: 'u' :: codeDigits 4 n
        else '\\' :: 'U' :: codeDigits 8 n)

/-- Writes a double-quoted text from a column on. A line may be broken before a blank,
and on either side of an escape, but not before the first character or the last one;
a backslash ends the line, and another one keeps a blank after the break. -/
def foldDouble (indent : Nat) :
    (first afterEscape : Bool) → (column : Nat) → List Char → List Char
  | _, _, _, [] => []
  | first, afterEscape, column, c :: rest =>
    let inner := !first && !rest.isEmpty
    match escaped? c with
    | some text =>
      let column := column + text.length
      if inner && bestWidth + 1 < column then
        let keep := if rest.head? == some ' ' then ['\\'] else []
        text ++ '\\' :: newLine indent ++ keep ++
          foldDouble indent false true (indent + keep.length) rest
      else text ++ foldDouble indent false true column rest
    | none =>
      if inner && (c == ' ' || afterEscape) && bestWidth < column then
        let keep := if c = ' ' then ['\\'] else []
        '\\' :: newLine indent ++ keep ++
          c :: foldDouble indent false false (indent + keep.length + 1) rest
      else c :: foldDouble indent false false (column + 1) rest

/-- A text between double quotes. -/
def double (indent column : Nat) (cs : List Char) : List Char :=
  '"' :: foldDouble indent true false (column + 1) cs ++ ['"']

/-- The three ways to write a text. -/
inductive Style where
  | plain | single | double
deriving DecidableEq

/-- How a text is written. -/
def style (s : String) : Style :=
  let cs := s.toList
  if (Scalar.form? s).isNone && allowsPlain cs then .plain
  else if allowsSingle cs then .single
  else .double

/-- A text, beginning in a column; its further lines are indented. -/
def text (indent column : Nat) (s : String) : String :=
  let cs := s.toList
  String.ofList <|
    match style s with
    | .plain => foldRuns indent true column (runs cs)
    | .single => single indent column cs
    | .double => double indent column cs

/-- A text on one line. -/
def lineText (s : String) : String :=
  let cs := s.toList
  String.ofList <|
    match style s with
    | .plain => cs
    | .single => '\'' :: doubled cs ++ ['\'']
    | .double => '"' :: cs.flatMap (fun c => (escaped? c).getD [c]) ++ ['"']

/-- A real number: with a point even where it has an exponent. -/
def real (x : Float) : String :=
  match Binary.ofFloat x with
  | .nan => ".nan"
  | .infinite negative => if negative then "-.inf" else ".inf"
  | _ =>
    let cs := (Layout.dump.number x).toList
    let mantissa := cs.takeWhile (· != 'e')
    String.ofList
      (if mantissa.contains '.' then cs else mantissa ++ ['.', '0'] ++ cs.drop mantissa.length)

/-- A scalar. -/
def scalarText (indent column : Nat) : Datum → String
  | .null => "null"
  | .bool b => if b then "true" else "false"
  | .int n => toString n
  | .real x => real x
  | .text s => text indent column s
  | .moment m => m.shown
  | .list _ => "[]"
  | .mapping _ => "\x7b\x7d"

/-- The most characters that a key before its colon may have. -/
def keyWidth : Nat := 122

/-- Can a key stand before its colon on one line? -/
def fitsLine : Datum → Bool
  | .text s =>
    s != "" && s.length ≤ keyWidth && !s.toList.any fun c => "\n\u0085\u2028\u2029".contains c
  | _ => true

/-- A key before its colon. -/
def keyText : Datum → String
  | .text s => lineText s
  | d => scalarText 0 0 d

/-- Blanks up to a column. -/
def pad (indent : Nat) : String :=
  String.ofList (List.replicate indent ' ')

mutual

/-- What follows the colon of a key in the column `indent`, which ends in `column`. -/
def entryValue (indent column : Nat) : Datum → String
  | .list (item :: items) => "\n" ++ pad indent ++ itemLines indent (item :: items)
  | .mapping (entry :: entries) =>
    "\n" ++ pad (indent + 2) ++ entryLines (indent + 2) (entry :: entries)
  | d => " " ++ scalarText (indent + 2) (column + 1) d ++ "\n"

/-- What follows a dash in the column `indent`. -/
def itemValue (indent : Nat) : Datum → String
  | .list (item :: items) => " " ++ itemLines (indent + 2) (item :: items)
  | .mapping (entry :: entries) => " " ++ entryLines (indent + 2) (entry :: entries)
  | d => " " ++ scalarText (indent + 2) (indent + 2) d ++ "\n"

/-- The items of a list; the place of the first dash is already reached. -/
def itemLines (indent : Nat) : List Datum → String
  | [] => ""
  | [item] => "-" ++ itemValue indent item
  | item :: rest => "-" ++ itemValue indent item ++ pad indent ++ itemLines indent rest

/-- The entries of a mapping; the place of the first key is already reached. A key that
does not fit before its colon is announced by a question mark; then key and value stand
like the items of a list. -/
def entryLines (indent : Nat) : List (Datum × Datum) → String
  | [] => ""
  | (key, value) :: rest =>
    let entry :=
      if fitsLine key then
        let key := keyText key ++ ":"
        key ++ entryValue indent (indent + key.length) value
      else
        "? " ++ scalarText (indent + 2) (indent + 2) key ++ "\n" ++ pad indent ++ ":" ++
          itemValue indent value
    entry ++ (if rest.isEmpty then "" else pad indent) ++ entryLines indent rest

end

/-- A mapping as a document. -/
def write (entries : List (Datum × Datum)) : String :=
  entryLines 0 entries

end Yaml

/-- The text of a file with these settings. -/
def Settings.toText (s : Settings) : String :=
  Yaml.write (s.entries.map fun (name, d) => (.text name, d))

end Lox
