import Lox.Yaml.Cursor
import Lox.Yaml.Scalar

/-!
# The texts of scalars

A scalar is written plain, between quotes of two kinds, or as a block of lines after
a header. Plain and quoted scalars may go on over several lines, which are then
folded into one; a block keeps its lines or folds them, as its header says.

Every function takes the characters ahead and gives what it read with those that are
left, or nothing if the text is malformed.
-/

namespace Lox
namespace Yaml

open Document

/-! ## Plain scalars -/

/-- The part of a plain scalar up to the next gap or indicator. -/
def plainRun (flow : Bool) : List Char → List Char × List Char
  | [] => ([], [])
  | c :: rest =>
    let bracketAhead := flow && rest.head?.any (",[]\x7b\x7d".contains ·)
    let stops :=
      isGap c || (c == ':' && (gapAhead rest || bracketAhead)) ||
        (flow && ",?[]\x7b\x7d".contains c)
    if stops then ([], c :: rest)
    else
      let (run, rest) := plainRun flow rest
      (c :: run, rest)

/-- Empty lines and the blanks at the beginning of lines; nothing if a marker is
met at the beginning of a line. -/
def plainBreaks : (lineStart : Bool) → List Char → Option (List Char × List Char)
  | _, [] => some ([], [])
  | lineStart, c :: rest =>
    if lineStart && markerAhead (c :: rest) then none
    else if c = ' ' then plainBreaks false rest
    else if isLineEnd c then
      (plainBreaks true rest).map fun (ends, rest) => (lineEnd c :: ends, rest)
    else some ([], c :: rest)

/-- The gap inside a plain scalar as it counts in its text, and what follows. -/
def plainGap? (cs : List Char) : Option (List Char × List Char) :=
  let (blanks, rest) := cs.span (· == ' ')
  match rest with
  | [] => none
  | c :: after =>
    if isLineEnd c then
      (plainBreaks true after).map fun (ends, rest) => (fold c ends, rest)
    else if blanks.isEmpty then none
    else some (blanks, rest)

/-- The rest of a plain scalar after one run of it. Its lines must not begin before
the column `least` unless it stands in flow style. -/
def plainRest (flow : Bool) (least : Nat) : Nat → Cursor → List Char × Cursor
  | 0, c => ([], c)
  | n + 1, c =>
    match plainGap? c.ahead with
    | none => ([], c)
    | some (gap, rest) =>
      let there := c.goTo rest
      if rest.head? == some '#' || (!flow && there.column < least) then ([], c)
      else
        match plainRun flow rest with
        | ([], _) => ([], c)
        | (run, rest) =>
          let (more, c) := plainRest flow least n (there.goTo rest)
          (gap ++ run ++ more, c)

/-- Can a plain scalar begin here? -/
def plainAhead (flow : Bool) (cs : List Char) : Bool :=
  match cs with
  | [] => false
  | c :: rest =>
    if c == '-' || (!flow && (c == '?' || c == ':')) then !gapAhead rest
    else !isGap c && !("?:,[]\x7b\x7d#&*!|>'\"%@`".contains c)

/-- Reads a plain scalar that begins here. -/
def plainText (flow : Bool) (least : Nat) (c : Cursor) : String × Cursor :=
  let (run, rest) := plainRun flow c.ahead
  let (more, c) := plainRest flow least rest.length (c.goTo rest)
  (String.ofList (run ++ more), c)

/-! ## Quoted scalars -/

/-- Empty lines and the blanks around them inside quotes. -/
def quotedBreaks : (lineStart : Bool) → List Char → Option (List Char × List Char)
  | _, [] => some ([], [])
  | lineStart, c :: rest =>
    if lineStart && markerAhead (c :: rest) then none
    else if c = ' ' ∨ c = '\t' then quotedBreaks false rest
    else if isLineEnd c then
      (quotedBreaks true rest).map fun (ends, rest) => (lineEnd c :: ends, rest)
    else some ([], c :: rest)

/-- The gap inside a quoted scalar as it counts in its text, and what follows. -/
def quotedGap? (cs : List Char) : Option (List Char × List Char) :=
  let (blanks, rest) := cs.span fun c => c == ' ' || c == '\t'
  match rest with
  | [] => none
  | c :: after =>
    if isLineEnd c then (quotedBreaks true after).map fun (ends, rest) => (fold c ends, rest)
    else some (blanks, rest)

/-- The characters that an escape of one letter stands for. -/
def escapes : List (Char × Char) :=
  [('0', '\x00'), ('a', '\x07'), ('b', '\x08'), ('t', '\t'), ('\t', '\t'), ('n', '\n'),
   ('v', '\x0b'), ('f', '\x0c'), ('r', '\r'), ('e', '\x1b'), (' ', ' '), ('"', '"'),
   ('\\', '\\'), ('/', '/'), ('N', '\u0085'), ('_', '\u00a0'), ('L', '\u2028'), ('P', '\u2029')]

/-- How many hexadecimal digits follow the letter of an escape by code. -/
def codeLength? (c : Char) : Option Nat :=
  [('x', 2), ('u', 4), ('U', 8)].lookup c

/-- The character with a code. -/
def character (code : Nat) : Except Failure Char :=
  if code.isValidChar then .ok (Char.ofNat code) else .error (.noCharacter code)

/-- What an escape between double quotes stands for, and what follows. -/
def escaped (cs : List Char) : Except Failure (List Char × List Char) :=
  match cs with
  | [] => .error .malformed
  | c :: rest =>
    match escapes.lookup c with
    | some meant => .ok ([meant], rest)
    | none =>
      match codeLength? c with
      | some n =>
        let digits := rest.take n
        if digits.length = n ∧ digits.all (Scalar.isDigitOf 16) then
          (character (Scalar.numeral 16 digits)).map fun c => ([c], rest.drop n)
        else .error .malformed
      | none => if isLineEnd c then orMalformed (quotedBreaks true rest) else .error .malformed

/-- The text up to the closing quote, and what follows that. -/
def untilQuote (double : Bool) : Nat → List Char → Except Failure (List Char × List Char)
  | 0, _ => .error .malformed
  | _ + 1, [] => .error .malformed
  | n + 1, c :: rest =>
    let more (text rest : List Char) : Except Failure (List Char × List Char) :=
      (untilQuote double n rest).map fun (tail, rest) => (text ++ tail, rest)
    if isGap c then (orMalformed (quotedGap? (c :: rest))).bind fun (gap, rest) => more gap rest
    else if double then
      if c = '"' then .ok ([], rest)
      else if c = '\\' then (escaped rest).bind fun (meant, rest) => more meant rest
      else more [c] rest
    else if c = '\'' then
      match rest with
      | '\'' :: rest => more ['\''] rest
      | _ => .ok ([], rest)
    else more [c] rest

/-- Reads a scalar between quotes that begins here. -/
def quotedText (c : Cursor) : Except Failure (String × Cursor) :=
  match c.ahead with
  | quote :: rest =>
    (untilQuote (quote == '"') (rest.length + 1) rest).map fun (text, rest) =>
      (String.ofList text, c.goTo rest)
  | [] => .error .malformed

/-! ## Block scalars -/

/-- What is done about the line ends after a block scalar. -/
inductive Chomping where
  | keep | clip | strip
deriving DecidableEq

def chomping? (c : Char) : Option Chomping :=
  [('+', Chomping.keep), ('-', Chomping.strip)].lookup c

def increment? (c : Char) : Option Nat :=
  if '1' ≤ c ∧ c ≤ '9' then some (c.toNat - 48) else none

/-- The header of a block scalar after its first character: chomping and how far
the text is indented, in either order. -/
def blockHeader (cs : List Char) : Chomping × Option Nat × List Char :=
  match cs with
  | [] => (.clip, none, [])
  | a :: rest =>
    match chomping? a, increment? a with
    | some chomping, _ =>
      match rest with
      | b :: after =>
        match increment? b with
        | some n => (chomping, some n, after)
        | none => (chomping, none, rest)
      | [] => (chomping, none, [])
    | none, some n =>
      match rest with
      | b :: after =>
        match chomping? b with
        | some chomping => (chomping, some n, after)
        | none => (.clip, some n, rest)
      | [] => (.clip, some n, [])
    | none, none => (.clip, none, cs)

/-- What follows the rest of a line, which holds blanks and a comment at most. -/
def endOfLine? (cs : List Char) : Option (List Char) :=
  let rest := cs.dropWhile (· == ' ')
  let rest := if rest.head? == some '#' then rest.dropWhile (!isLineEnd ·) else rest
  match rest with
  | [] => some []
  | c :: after => if isLineEnd c then some after else none

/-- The widest indentation before the first line that is not blank. -/
def widestIndent : (column widest : Nat) → List Char → Nat
  | _, widest, [] => widest
  | column, widest, c :: rest =>
    if c = ' ' then widestIndent (column + 1) (max (column + 1) widest) rest
    else if isLineEnd c then widestIndent 0 widest rest
    else widest

/-- Skips blanks up to a column, and empty lines. Gives the line ends and the column
that was reached. -/
def blockBreaks (indent : Nat) : (column : Nat) → List Char → List Char × Nat × List Char
  | column, [] => ([], column, [])
  | column, c :: rest =>
    if c = ' ' ∧ column < indent then blockBreaks indent (column + 1) rest
    else if isLineEnd c then
      let (ends, column, rest) := blockBreaks indent 0 rest
      (lineEnd c :: ends, column, rest)
    else ([], column, c :: rest)

/-- The text of a block scalar from the beginning of a line on, after the line ends
`before`. Also gives the last line end and the line ends after it. -/
def blockLines (folded : Bool) (indent : Nat) :
    Nat → (before : List Char) → List Char → List Char × List Char × List Char × List Char
  | 0, before, cs => ([], [], before, cs)
  | n + 1, before, cs =>
    let (line, rest) := cs.span (!isLineEnd ·)
    let (last, rest) :=
      match rest with
      | [] => ([], [])
      | c :: rest => ([lineEnd c], rest)
    let (ends, column, rest) := blockBreaks indent 0 rest
    if column = indent ∧ !rest.isEmpty then
      let joined :=
        if folded && last == ['\n'] && !gapAhead line && !gapAhead rest then
          if ends.isEmpty then [' '] else []
        else last
      let (text, last, ends, rest) := blockLines folded indent n ends rest
      (before ++ line ++ joined ++ text, last, ends, rest)
    else (before ++ line, last, ends, rest)

/-- Reads a block scalar. The block it belongs to needs its lines to begin in the
column `least` or further on. -/
def blockText (least : Nat) (c : Cursor) : Option (String × Cursor) :=
  let folded := c.ahead.head? == some '>'
  let (chomping, increment, rest) := blockHeader (c.ahead.drop 1)
  match if blankAhead rest then endOfLine? rest else none with
  | none => none
  | some rest =>
    let least := max least 1
    let column :=
      match increment with
      | some n => least + n - 1
      | none => max least (widestIndent 0 0 rest)
    let (ends, reached, start) := blockBreaks column 0 rest
    let (text, last, ends, rest) :=
      if reached = column ∧ !start.isEmpty then
        blockLines folded column start.length ends start
      else ([], [], ends, start)
    let tail :=
      match chomping with
      | .strip => []
      | .clip => last
      | .keep => last ++ ends
    some (String.ofList (text ++ tail), c.goTo rest)

end Yaml
end Lox
