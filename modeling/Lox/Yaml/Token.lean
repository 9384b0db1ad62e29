import Lox.Yaml.Text

/-!
# Tokens of a settings file

The structure of a document shows in few characters and in the columns where lines
begin. As tokens it is explicit: a list or mapping in block style is opened and
closed like one in brackets, and a key is announced before it.

That a scalar is a key only shows at the colon after it. So the place of each thing
that could be a key is kept until then, and the token that announces the key is put
there afterwards. A key has to stand on one line, with its colon, and be short.
-/

namespace Lox
namespace Yaml

open Document

/-- What a line about the document says. -/
inductive Directive where
  | version (major : Nat)
  /-- A shorthand for the beginnings of tags. -/
  | shorthand (handle full : String)
  | other
deriving DecidableEq, Repr

inductive Token where
  | directive (d : Directive)
  | documentStart
  | documentEnd
  | openBlockList
  | openBlockMapping
  | closeBlock
  | openList
  | closeList
  | openMapping
  | closeMapping
  /-- The dash before an item in block style. -/
  | item
  | comma
  | key
  | value
  | anchor (name : String)
  | alias (name : String)
  /-- A tag; without a handle it is written in full. -/
  | tag (handle : Option String) (rest : String)
  | scalar (plain : Bool) (text : String)
deriving DecidableEq, Repr

/-! ## Names and tags -/

def isWordChar (c : Char) : Bool :=
  c.isAlphanum || c == '-' || c == '_'

/-- Reads the name of an anchor after its sign. -/
def anchorName (cs : List Char) : Option (String × List Char) :=
  let (name, rest) := cs.span isWordChar
  if name.isEmpty then none
  else if gapAhead rest || rest.head?.any ("?:,]\x7d%@`".contains ·) then
    some (String.ofList name, rest)
  else none

/-- Can this character stand in a tag? -/
def isTagChar (c : Char) : Bool :=
  isWordChar c || ";/?:@&=+$,.!~*'()[]%".contains c

/-- Characters by their codes: a percent sign and two digits are one byte. -/
def tagText : List Char → Option (List Char)
  | [] => some []
  | '%' :: a :: b :: rest =>
    let code := Scalar.numeral 16 [a, b]
    if Scalar.isDigitOf 16 a && Scalar.isDigitOf 16 b && code < 128 then
      (tagText rest).map (Char.ofNat code :: ·)
    else none
  | c :: rest => if c = '%' then none else (tagText rest).map (c :: ·)

/-- Reads the text of a tag. -/
def tagRest (cs : List Char) : Option (String × List Char) :=
  let (text, rest) := cs.span isTagChar
  if text.isEmpty then none else (tagText text).map fun text => (String.ofList text, rest)

/-- Reads the handle of a tag: a sign, or a word between two. -/
def tagHandle (cs : List Char) : Option (String × List Char) :=
  match cs with
  | '!' :: ' ' :: rest => some ("!", ' ' :: rest)
  | '!' :: rest =>
    let (name, rest) := rest.span isWordChar
    match rest with
    | '!' :: rest => some (String.ofList ('!' :: name ++ ['!']), rest)
    | _ => none
  | _ => none

/-- Reads a tag that begins here. -/
def tag (cs : List Char) : Option (Token × List Char) := do
  let (token, rest) ←
    match cs.drop 1 with
    | '<' :: rest => do
      let (text, rest) ← tagRest rest
      match rest with
      | '>' :: rest => some (Token.tag none text, rest)
      | _ => none
    | rest =>
      if gapAhead rest then some (.tag none "!", rest)
      else do
        let word := rest.takeWhile fun c => c != ' ' && !isLineEnd c
        let (handle, rest) ← if word.contains '!' then tagHandle cs else some ("!", rest)
        let (text, rest) ← tagRest rest
        some (.tag (some handle) text, rest)
  if blankAhead rest then some (token, rest) else none

/-! ## Lines about the document -/

/-- Reads a number. -/
def versionPart (cs : List Char) : Option (Nat × List Char) :=
  let (digits, rest) := cs.span Char.isDigit
  if digits.isEmpty then none else some (Scalar.numeral 10 digits, rest)

/-- Reads a line about the document after its sign. -/
def directive (cs : List Char) : Option (Directive × List Char) := do
  let (name, rest) := cs.span isWordChar
  if name.isEmpty || !blankAhead rest then none
  else
    let words := rest.dropWhile (· == ' ')
    let (d, rest) ←
      match String.ofList name with
      | "YAML" => do
        let (major, rest) ← versionPart words
        let (_, rest) ← (Moment.after? '.' rest).bind versionPart
        if blankAhead rest then some (Directive.version major, rest) else none
      | "TAG" => do
        let (handle, rest) ← tagHandle words
        if rest.head? != some ' ' then none
        else
          let (full, rest) ← tagRest (rest.dropWhile (· == ' '))
          if blankAhead rest then some (.shorthand handle full, rest) else none
      | _ => some (.other, rest.dropWhile (!isLineEnd ·))
    let rest ← endOfLine? rest
    some (d, rest)

/-! ## From characters to tokens -/

/-- A place where a key may stand. -/
structure KeyPlace where
  /-- How many tokens come before it. -/
  before : Nat
  /-- Is nothing else allowed to stand there? -/
  required : Bool
  passed : Nat
  line : Nat
  column : Nat

namespace KeyPlace

/-- The most characters that a key may have. -/
def reach : Nat := 1024

/-- Can the colon of the key no longer come, from a cursor on? -/
def isPast (k : KeyPlace) (c : Cursor) : Bool :=
  k.line != c.line || k.passed + reach < c.passed

end KeyPlace

/-- A text that is read so far. -/
structure Scan where
  cursor : Cursor
  /-- The tokens, the last one first. -/
  tokens : List Token := []
  /-- For each pair of open brackets, the innermost first, and for what is outside of
  all, the last place where a key may stand. -/
  keys : List (Option KeyPlace) := [none]
  /-- The columns of the open blocks, the innermost first. -/
  blocks : List Nat := []
  /-- Can a key begin here? -/
  keyAllowed : Bool := true

namespace Scan

/-- Is a bracket open? -/
def inFlow (s : Scan) : Bool :=
  1 < s.keys.length

/-- The column that the things in the innermost block have to begin in, or after. -/
def least (s : Scan) : Nat :=
  match s.blocks.head? with
  | none => 0
  | some column => column + 1

def emit (s : Scan) (t : Token) : Scan :=
  { s with tokens := t :: s.tokens }

/-- Goes on by some characters. -/
def forward (s : Scan) (n : Nat) : Scan :=
  { s with cursor := s.cursor.forward n }

/-- Goes on to where `rest` is ahead. -/
def goTo (s : Scan) (rest : List Char) : Scan :=
  { s with cursor := s.cursor.goTo rest }

/-- Goes on to the next thing. On a new line a key can begin. -/
def next (s : Scan) : Scan :=
  let c := s.cursor.next
  let newLine := !s.inFlow && c.line != s.cursor.line
  { s with cursor := c, keyAllowed := s.keyAllowed || newLine }

/-- Forgets the places of keys whose colon can no longer come. -/
def dropPast (s : Scan) : Option Scan :=
  if s.keys.any fun k => k.any fun k => k.isPast s.cursor && k.required then none
  else some { s with keys := s.keys.map (·.filter fun k => !k.isPast s.cursor) }

/-- Closes the blocks that stand further right than a column; without one, all. -/
def closeBlocks (s : Scan) (column : Option Nat) : Scan :=
  if s.inFlow then s
  else
    let (closed, left) := s.blocks.span fun b => column.all (· < b)
    { s with tokens := closed.map (fun _ => .closeBlock) ++ s.tokens, blocks := left }

/-- Does a block in this column stand further right than the innermost one? -/
def opens (s : Scan) (column : Nat) : Bool :=
  s.blocks.head?.all (· < column)

/-- Opens a block in a column, if none is open there. -/
def openBlock (s : Scan) (t : Token) (column : Nat) : Scan :=
  if s.opens column then { s.emit t with blocks := column :: s.blocks } else s

/-- Forgets the place of a key inside the innermost brackets. -/
def dropKey (s : Scan) : Option Scan :=
  match s.keys with
  | some k :: outer => if k.required then none else some { s with keys := none :: outer }
  | _ => some s

/-- Remembers that a key may begin here. -/
def keepKey (s : Scan) : Option Scan :=
  if s.keyAllowed then do
    let s ← s.dropKey
    let k : KeyPlace :=
      { before := s.tokens.length, passed := s.cursor.passed, line := s.cursor.line,
        column := s.cursor.column,
        required := !s.inFlow && s.blocks.head? == some s.cursor.column }
    some { s with keys := some k :: s.keys.drop 1 }
  else some s

/-- Puts tokens where a key begins. -/
def announce (s : Scan) (k : KeyPlace) (new : List Token) : Scan :=
  let (later, earlier) := s.tokens.splitAt (s.tokens.length - k.before)
  { s with tokens := later ++ new.reverse ++ earlier }

/-- Reads a marker or a line about the document; everything open ends before it. -/
def outer (s : Scan) (t : Token) (rest : List Char) : Option Scan := do
  let s ← (s.closeBlocks none).dropKey
  some ({ s with keyAllowed := false }.emit t |>.goTo rest)

/-- Reads an opening bracket. -/
def openBracket (s : Scan) (t : Token) : Option Scan := do
  let s ← s.keepKey
  some ({ s with keys := none :: s.keys, keyAllowed := true }.emit t |>.forward 1)

/-- Reads a closing bracket. -/
def closeBracket (s : Scan) (t : Token) : Option Scan :=
  match s.keys with
  | _ :: k :: outer => some ({ s with keys := k :: outer, keyAllowed := false }.emit t |>.forward 1)
  | _ => none

/-- Reads a comma. -/
def comma (s : Scan) : Option Scan := do
  let s ← s.dropKey
  some ({ s with keyAllowed := true }.emit .comma |>.forward 1)

/-- Opens a block where a key can begin; in brackets there are no blocks. -/
def startBlock (s : Scan) (t : Token) : Option Scan :=
  if s.inFlow then some s
  else if s.keyAllowed then some (s.openBlock t s.cursor.column)
  else none

/-- Reads the dash of an item. -/
def item (s : Scan) : Option Scan := do
  let s ← (← s.startBlock .openBlockList).dropKey
  some ({ s with keyAllowed := true }.emit .item |>.forward 1)

/-- Reads a question mark that announces a key. -/
def key (s : Scan) : Option Scan := do
  let s ← (← s.startBlock .openBlockMapping).dropKey
  some ({ s with keyAllowed := !s.inFlow }.emit .key |>.forward 1)

/-- Reads a colon. -/
def value (s : Scan) : Option Scan :=
  match s.keys with
  | some k :: outer =>
    let block := !s.inFlow && s.opens k.column
    let new := if block then [.openBlockMapping, .key] else [.key]
    let s := { s with
      keys := none :: outer, keyAllowed := false,
      blocks := if block then k.column :: s.blocks else s.blocks }
    some ((s.announce k new).emit .value |>.forward 1)
  | _ => do
    let s ← s.startBlock .openBlockMapping
    some ({ s with keyAllowed := !s.inFlow }.emit .value |>.forward 1)

/-- Reads something that may be a key, or come before one. -/
def keyed (s : Scan) (t : Token) (rest : List Char) : Option Scan := do
  let s ← s.keepKey
  some ({ s with keyAllowed := false }.emit t |>.goTo rest)

/-- Reads a block scalar. -/
def block (s : Scan) : Option Scan := do
  let s ← s.dropKey
  let (text, c) ← blockText s.least s.cursor
  some { s.emit (.scalar false text) with cursor := c, keyAllowed := true }

/-- Reads the token that begins with the character `c`, and `rest` after it. -/
def token (s : Scan) (c : Char) (rest : List Char) : Except Failure Scan :=
  let cs := c :: rest
  let lineStart := s.cursor.column == 0
  if c = '%' ∧ lineStart then orMalformed do
    let (d, rest) ← directive rest
    s.outer (.directive d) rest
  else if lineStart && markerAhead cs then
    orMalformed (s.outer (if c = '-' then .documentStart else .documentEnd) (rest.drop 2))
  else if c = '[' then orMalformed (s.openBracket .openList)
  else if c = '{' then orMalformed (s.openBracket .openMapping)
  else if c = ']' then orMalformed (s.closeBracket .closeList)
  else if c = '}' then orMalformed (s.closeBracket .closeMapping)
  else if c = ',' then orMalformed s.comma
  else if c = '-' ∧ gapAhead rest then orMalformed s.item
  else if c = '?' ∧ (s.inFlow || gapAhead rest) then orMalformed s.key
  else if c = ':' ∧ (s.inFlow || gapAhead rest) then orMalformed s.value
  else if c = '*' then orMalformed do
    let (name, rest) ← anchorName rest
    s.keyed (.alias name) rest
  else if c = '&' then orMalformed do
    let (name, rest) ← anchorName rest
    s.keyed (.anchor name) rest
  else if c = '!' then orMalformed do
    let (t, rest) ← tag cs
    s.keyed t rest
  else if (c == '|' || c == '>') && !s.inFlow then orMalformed s.block
  else if c = '\'' ∨ c = '"' then do
    let (text, c) ← quotedText s.cursor
    orMalformed (s.keyed (.scalar false text) c.ahead)
  else if plainAhead s.inFlow cs then
    let (text, c) := plainText s.inFlow s.least s.cursor
    orMalformed (s.keyed (.scalar true text) c.ahead)
  else .error .malformed

/-- Reads tokens up to the end of the text, where all blocks end. -/
def run : Nat → Scan → Except Failure (List Token)
  | 0, _ => .error .malformed
  | n + 1, s => do
    let s ← orMalformed s.next.dropPast
    let s := s.closeBlocks (some s.cursor.column)
    match s.cursor.ahead with
    | [] =>
      let s ← orMalformed (s.closeBlocks none).dropKey
      .ok s.tokens.reverse
    | c :: rest => run n (← s.token c rest)

end Scan

/-- The tokens of a text, which may begin with a byte order mark. -/
def tokens (text : List Char) : Except Failure (List Token) :=
  let text := if text.head? == some '\ufeff' then text.drop 1 else text
  if text.all isAllowed then Scan.run (text.length + 1) { cursor := { ahead := text } }
  else .error .malformed

end Yaml
end Lox
