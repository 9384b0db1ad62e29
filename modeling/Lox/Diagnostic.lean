import Lox.Token.Basic
import Lox.Text.Lines

/-!
# Diagnostics

What is wrong with a program is kept as a cause: one inductive type per phase,
each with its code and its message. A `Diagnostic` is the finished report, built
from a cause and the place it arose at, and is the only thing that is printed.
-/

namespace Lox

/-- A report about a program. -/
structure Diagnostic where
  code : String
  message : String
  line : Int
  /-- The offending token, when there is one. -/
  token : Option Token := none
  /-- The text of the line, when it is known. -/
  sourceLine : Option String := none
  hints : List String := []

/-- What the lexer can find. -/
inductive LexicalFault where
  | unexpectedCharacter (c : Char)
  | unterminatedString
  | unterminatedComment
deriving DecidableEq

/-- What the parser can find, with the token it is reported at. -/
inductive SyntaxFault where
  | unexpectedToken (found : Token) (message : String)
  | invalidTarget (equals : Token)
  | tooMany (found : Token) (what : String)
  | importFailed (path : Token) (reason : String)

/-- What the resolver can find; each is reported at a token. -/
inductive ScopeFault where
  | alreadyDeclared
  | ownInitializer
  | topLevelReturn
  | initializerReturn
  | thisOutsideClass
  | superOutsideClass
  | superWithoutSuperclass
  | inheritsItself
deriving DecidableEq

/-- What can stop a running program; each is reported at a token. -/
inductive RuntimeFault where
  | operandNotNumber
  | operandsNotNumbers
  | badPlusOperands
  | undefinedVariable
  | undefinedProperty
  | notAnInstance (what : String)
  | notCallable
  | arityMismatch (expected actual : Nat)
  | superclassNotClass
  | unassignedVariable
  | nativeFailure (message : String)
deriving DecidableEq

namespace LexicalFault

def code : LexicalFault → String
  | unexpectedCharacter _ => "E001"
  | unterminatedString => "E002"
  | unterminatedComment => "E003"

def message : LexicalFault → String
  | unexpectedCharacter c => "Unexpected character '" ++ c.toString ++ "'."
  | unterminatedString => "Unterminated string."
  | unterminatedComment => "Unterminated block comment (expected closing */)."

def hints : LexicalFault → List String
  | unterminatedString => ["string literals must be closed with a matching '\"'"]
  | _ => []

/-- The report of a fault on a line. It points at the line as a whole. -/
def toDiagnostic (f : LexicalFault) (line : Int) (sourceLine : Option String) : Diagnostic where
  code := f.code
  message := f.message
  line := line
  sourceLine := sourceLine
  hints := f.hints

end LexicalFault

namespace SyntaxFault

def code : SyntaxFault → String
  | unexpectedToken .. => "E101"
  | invalidTarget _ => "E102"
  | tooMany .. => "E103"
  | importFailed .. => "E104"

def token : SyntaxFault → Token
  | unexpectedToken t _ => t
  | invalidTarget t => t
  | tooMany t _ => t
  | importFailed t _ => t

def message : SyntaxFault → String
  | unexpectedToken _ message => message
  | invalidTarget _ => "Invalid assignment target."
  | tooMany _ what => "Can't have more than 255 " ++ what ++ "."
  | importFailed _ reason => "Import failed: " ++ reason

def toDiagnostic (f : SyntaxFault) : Diagnostic where
  code := f.code
  message := f.message
  line := f.token.line
  token := some f.token

end SyntaxFault

namespace ScopeFault

def code : ScopeFault → String
  | alreadyDeclared => "E201"
  | ownInitializer => "E202"
  | topLevelReturn => "E203"
  | initializerReturn => "E204"
  | thisOutsideClass => "E205"
  | superOutsideClass => "E206"
  | superWithoutSuperclass => "E207"
  | inheritsItself => "E208"

/-- The message of a fault found at the name or keyword `lexeme`. -/
def message (lexeme : String) : ScopeFault → String
  | alreadyDeclared => "Already a variable named '" ++ lexeme ++ "' in this scope."
  | ownInitializer => "Can't read local variable in its own initializer."
  | topLevelReturn => "Can't return from top-level code."
  | initializerReturn => "Can't return a value from an initializer."
  | thisOutsideClass => "Can't use 'this' outside of a class."
  | superOutsideClass => "Can't use 'super' outside of a class."
  | superWithoutSuperclass => "Can't use 'super' in a class with no superclass."
  | inheritsItself => "A class can't inherit from itself."

def toDiagnostic (f : ScopeFault) (t : Token) : Diagnostic where
  code := f.code
  message := f.message t.lexeme
  line := t.line
  token := some t

end ScopeFault

namespace RuntimeFault

def code : RuntimeFault → String
  | operandNotNumber => "E401"
  | operandsNotNumbers => "E402"
  | badPlusOperands => "E403"
  | undefinedVariable => "E404"
  | undefinedProperty => "E405"
  | notAnInstance _ => "E406"
  | notCallable => "E407"
  | arityMismatch .. => "E408"
  | superclassNotClass => "E409"
  | unassignedVariable => "E410"
  | nativeFailure _ => "E411"

/-- The message of a fault found at the token `lexeme`. -/
def message (lexeme : String) : RuntimeFault → String
  | operandNotNumber => "Operand must be a number."
  | operandsNotNumbers => "Operands must be numbers."
  | badPlusOperands => "Operands must be two numbers or two strings."
  | undefinedVariable => "Undefined variable '" ++ lexeme ++ "'."
  | undefinedProperty => "Undefined property '" ++ lexeme ++ "'."
  | notAnInstance what => "Only instances have " ++ what ++ "."
  | notCallable => "Can only call functions and classes."
  | arityMismatch expected actual =>
    "Expected " ++ toString expected ++ " arguments but got " ++ toString actual ++ "."
  | superclassNotClass => "Superclass must be a class."
  | unassignedVariable => "Variable '" ++ lexeme ++ "' is used before being assigned."
  | nativeFailure message => message

def hints : RuntimeFault → List String
  | unassignedVariable => ["give the variable an initializer: var name = value;"]
  | _ => []

end RuntimeFault

/-- The error that ended a run: what happened, and the token it happened at. -/
structure RuntimeError where
  fault : RuntimeFault
  token : Token

namespace RuntimeError

def message (e : RuntimeError) : String :=
  e.fault.message e.token.lexeme

def toDiagnostic (e : RuntimeError) : Diagnostic where
  code := e.fault.code
  message := e.message
  line := e.token.line
  token := some e.token
  hints := e.fault.hints

end RuntimeError

namespace Diagnostic

/-- Where the diagnostic points, in words. -/
def location (d : Diagnostic) : String :=
  match d.token with
  | none => ""
  | some t => if t.kind = .eof then " at end" else " at '" ++ t.lexeme ++ "'"

/-- A number set flush right in a column of the given width. -/
def padLeft (width : Nat) (text : String) : String :=
  String.ofList (List.replicate (width - text.length) ' ') ++ text

/-- The marks under the offending lexeme, at least one. -/
def caret (t : Token) : String :=
  String.ofList
    (List.replicate (t.column - 1).toNat ' ' ++ List.replicate (max 1 t.lexeme.length) '^')

/-- The lines that show the source, if it is known. -/
def sourceBlock (d : Diagnostic) : List String :=
  match d.sourceLine with
  | none => []
  | some line =>
    ["    |", padLeft 3 (toString d.line) ++ " | " ++ line] ++
      match d.token with
      | some t => if 0 < t.column then ["    | " ++ caret t] else []
      | none => []

/-- The lines of a diagnostic, with or without its source. -/
def lines (d : Diagnostic) (showSource : Bool) : List String :=
  ["[line " ++ toString d.line ++ "] error[" ++ d.code ++ "]" ++ d.location ++ ": " ++ d.message]
    ++ (if showSource then d.sourceBlock else [])
    ++ d.hints.map ("    = hint: " ++ ·)

/-- The text of a diagnostic. -/
def render (d : Diagnostic) (showSource : Bool) : String :=
  String.intercalate "\n" (d.lines showSource)

/-- The text of several diagnostics: each of them, then how many there are. -/
def renderAll (ds : List Diagnostic) (showSource : Bool) : String :=
  let count := if ds.isEmpty then [] else [toString ds.length ++ " error(s)"]
  String.intercalate "\n\n" (ds.map (render · showSource) ++ count)

/-- Fills in the source line of a diagnostic that has none. -/
def locate (d : Diagnostic) (lines : List String) : Diagnostic :=
  match d.sourceLine with
  | some _ => d
  | none => { d with sourceLine := lineAt? lines d.line }

end Diagnostic

end Lox
