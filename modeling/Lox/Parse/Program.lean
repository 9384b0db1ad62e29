import Lox.Files.Tree
import Lox.Parse.Statement
import Lox.Token.Scan

/-!
# Programs from tokens, with their imports

A program is a list of declarations with empty statements and imports between
them. An import puts the tokens of a file in front of what is still ahead, the
first time that file's path is met; later ones stand for nothing. Paths start
from one directory for the whole program, also inside imported files. An import
that cannot be done is a fault like any other, with one exception: a file that is
not text ends the parse.
-/

namespace Lox

/-- How many faults the parser collects before it stops. -/
inductive ErrorLimit where
  | count (n : Int)
  | real (x : Float)
  /-- Something that a number of faults cannot be compared with. -/
  | unordered

/-- Have so many faults reached the limit? -/
def ErrorLimit.reachedBy (faults : Nat) : ErrorLimit → Option Bool
  | count n => some (n ≤ faults)
  | real x => some (x ≤ faults.toFloat)
  | unordered => none

/-- Where imports are looked for. -/
structure Importer where
  base : AbsPath
  files : Files

/-- What ends a parse before its time. -/
inductive Halt where
  /-- A file to be imported is not text. -/
  | undecodable (error : EncodingError)
  /-- The limit of faults is not a number. -/
  | unorderedLimit
  /-- The path of an import is a string without a text, which no source gives. -/
  | pathNotText
  /-- The budget of the recursion is used up. -/
  | spent

/-- The report of what ended a parse. -/
def Halt.message : Halt → String
  | undecodable e => e.message
  | unorderedLimit => "the limit of errors is not a number"
  | pathNotText => "the path of an import is not a text"
  | spent => "the budget of the recursion is used up"

/-- What parsing a program gives. -/
structure ParseResult where
  program : List (Stmt Unit)
  /-- The files that were imported, in the order in which they were. -/
  imported : List AbsPath
  /-- The state at the end, with the faults and notes. -/
  state : ParseState
  halt : Option Halt := none

namespace ParseResult

def faults (r : ParseResult) : List SyntaxFault := r.state.faults

def diagnostics (r : ParseResult) : List Diagnostic :=
  r.faults.map SyntaxFault.toDiagnostic

end ParseResult

namespace Importer

/-- The state after the import of the file at `path`, which is named by the token
`t`, and the files imported so far. -/
def load (im : Importer) (t : Token) (path : AbsPath) (seen : List AbsPath) (s : ParseState) :
    Except Halt (ParseState × List AbsPath) :=
  let place := "'" ++ path.text ++ "'"
  match im.files.entry path.names with
  | .directory | .missing =>
    .ok (s.record (.importFailed t ("cannot find file " ++ place ++ ".")), seen)
  | .denied denial =>
    let reason := "cannot read " ++ place ++ ": " ++ denial.message path.text
    .ok (s.record (.importFailed t reason), seen)
  | .file bytes =>
    match decodeUtf8 bytes with
    | .error e => .error (.undecodable e)
    | .ok text =>
      let found := scan (unifyNewlines text)
      let s := s.note (.scanned found.tokens.length found.faults.length path.text)
      if found.faults.isEmpty then
        let tokens := found.tokens.dropLast
        let s := { s with ahead := tokens ++ s.ahead }
        .ok (s.note (.imported tokens.length path.text), seen ++ [path])
      else
        let report := fun (s : ParseState) (fault, line) =>
          s.record (.importFailed t
            (place ++ " [line " ++ toString (line : Nat) ++ "]: " ++ LexicalFault.message fault))
        .ok (found.faults.foldl report s, seen)

/-- The state after the import that the token `t` asks for. -/
def run (im : Importer) (t : Token) (seen : List AbsPath) (s : ParseState) :
    Except Halt (ParseState × List AbsPath) :=
  match t.literal with
  | .text name =>
    let path := im.base.follow name
    if seen.contains path then .ok (s.note (.importSkipped path.text), seen)
    else im.load t path seen s
  | _ => .error .pathNotText

end Importer

namespace Parse

/-- Takes the semicolons that stand for empty statements. -/
def skipSemicolons (s : ParseState) : ParseState :=
  { s with
    ahead := s.ahead.dropWhile (·.kind == .semicolon)
    taken := (s.ahead.takeWhile (·.kind == .semicolon)).reverse ++ s.taken }

/-- The path and the end of an import, after its first word. -/
def importPath : Parse Token := do
  let path ← expect .string "Expect string path after 'import'."
  let _ ← expect .semicolon "Expect ';' after import path."
  pure path

/-- The declarations of a program, at most `n` of them, imports included. -/
def program (im : Importer) (limit : ErrorLimit) :
    Nat → List AbsPath → ParseState → ParseResult
  | 0, seen, s => ⟨[], seen, s, some .spent⟩
  | n + 1, seen, s =>
    let s := skipSemicolons s
    match s.ahead with
    | [] => ⟨[], seen, s, none⟩
    | t :: _ =>
      match limit.reachedBy s.faults.length with
      | none => ⟨[], seen, s, some .unorderedLimit⟩
      | some true => ⟨[], seen, s, none⟩
      | some false =>
        if t.kind = .importWord then
          match rescue importPath s.advance with
          | .ok none s => program im limit n seen s
          | .ok (some path) s =>
            match im.run path seen s with
            | .ok (s, seen) => program im limit n seen s
            | .error halt => ⟨[], seen, s, some halt⟩
          | .failed s => program im limit n seen s
          | .spent s => ⟨[], seen, s, some .spent⟩
        else
          match topDeclaration s with
          | .ok stmt s =>
            let r := program im limit n seen s
            { r with program := stmt.toList ++ r.program }
          | .failed s => program im limit n seen s
          | .spent s => ⟨[], seen, s, some .spent⟩

end Parse

namespace Importer

/-- The files that tokens ask to import, whether they can be or not. -/
def wanted (im : Importer) : List Token → List AbsPath
  | t :: path :: rest =>
    match t.kind, path.literal with
    | .importWord, .text name => im.base.follow name :: wanted im rest
    | _, _ => wanted im (path :: rest)
  | _ => []

/-- How many tokens there can be: the given ones, and each file once below either
root. A token takes at least one byte. -/
def supply (im : Importer) (tokens : List Token) : Nat :=
  tokens.length + 2 * im.files.contents.foldl (fun n (_, bytes) => n + bytes.length) 0

end Importer

/-- Parses a program. -/
def parseProgram (im : Importer) (limit : ErrorLimit) (tokens : List Token)
    (name : Option String := none) : ParseResult :=
  let r := Parse.program im limit (im.supply tokens + 1) [] (ParseState.ofTokens tokens)
  match r.halt with
  | some _ => r
  | none =>
    { r with state := r.state.note (.parsed r.program.length r.faults.length (noteName name)) }

/-- Parses one expression and leaves what follows it. Gives nothing after a
syntax error. -/
def parseExpression (tokens : List Token) : Option (Expr Unit) × ParseState :=
  match Parse.expression (ParseState.ofTokens tokens) with
  | .ok e s => (some e, s)
  | .failed s => (none, s)
  | .spent s => (none, s)

end Lox
