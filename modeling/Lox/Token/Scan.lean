import Lox.Diagnostic
import Lox.Token.Piece

/-!
# From a source to its tokens

Pieces get their positions by counting characters; the lexemes among them become
tokens and the broken ones become faults. A scan never stops early: it finds
every fault of a source, and its tokens always end with the end of input.
-/

namespace Lox

/-- A place in a source. Lines are ended by newline characters alone; both
numbers count from one. -/
structure Position where
  line : Nat := 1
  column : Nat := 1
deriving DecidableEq, Repr

namespace Position

/-- The place after one more character. -/
def next (p : Position) (c : Char) : Position :=
  if c = '\n' then ⟨p.line + 1, 1⟩ else ⟨p.line, p.column + 1⟩

/-- The place after a text. -/
def after (p : Position) (text : List Char) : Position :=
  text.foldl next p

end Position

namespace Piece

/-- The constant that a lexeme stands for. -/
def literal (kind : TokenKind) (text : List Char) : Constant :=
  match kind with
  | .number => .number (readNumeral text)
  | .string => .text (String.ofList (text.drop 1).dropLast)
  | _ => .nil

/-- The token of a piece that starts at `p`, if the piece is a lexeme. -/
def token? (p : Position) (piece : Piece) : Option Token :=
  match piece.form with
  | .lexeme kind => some
      { kind := kind
        lexeme := String.ofList piece.text
        literal := literal kind piece.text
        line := p.line
        column := p.column }
  | _ => none

/-- The fault of a piece, if it is a broken one. -/
def fault? (piece : Piece) : Option LexicalFault :=
  match piece.form, piece.text with
  | .strayCharacter, c :: _ => some (.unexpectedCharacter c)
  | .openString, _ => some .unterminatedString
  | .openComment, _ => some .unterminatedComment
  | _, _ => none

/-- Pieces that lie side by side, from `p` on, each with the place it starts at. -/
def place (p : Position) : List Piece → List (Position × Piece)
  | [] => []
  | piece :: rest => (p, piece) :: place (p.after piece.text) rest

end Piece

/-- What scanning a source gives: its tokens, and its faults with their lines. -/
structure Scan where
  tokens : List Token
  faults : List (LexicalFault × Nat)

/-- Scans a text that starts on the first line. -/
def scan (source : List Char) : Scan :=
  let placed := Piece.place {} (pieces source)
  let finish := Position.after {} source
  { tokens := placed.filterMap (fun (p, piece) => piece.token? p) ++
      [Token.endOfInput finish.line finish.column]
    faults := placed.filterMap fun (p, piece) => piece.fault?.map (·, p.line) }

namespace Scan

/-- The reports about the faults of a scan. Each shows the line of the source
with the number of its own, by the lines that `sourceLines` tells apart. -/
def diagnostics (s : Scan) (lines : List String) : List Diagnostic :=
  s.faults.map fun (fault, line) => fault.toDiagnostic line (lineAt? lines line)

end Scan

/-- Does a text have more opening brackets than closing ones? A unit typed line
by line goes on while it does. -/
def needsMore (source : List Char) : Bool :=
  let depth := (scan source).tokens.foldl
    (fun (depth : Int) t =>
      if t.kind.opens then depth + 1 else if t.kind.closes then depth - 1 else depth) 0
  0 < depth

end Lox
