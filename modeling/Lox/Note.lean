/-!
# Notes for the trace

Every stage leaves a note of what it did. The notes are no part of any result;
they are written down, in the order in which they arose, when a run is traced.
-/

namespace Lox

/-- What a stage did. A name is that of a file, or of what stands for one. -/
inductive Note where
  | scanned (tokens faults : Nat) (name : String)
  | importSkipped (path : String)
  | imported (tokens : Nat) (path : String)
  | desugared (line : Int)
  | parsed (statements faults : Nat) (name : String)
  | resolved (references faults : Nat)
  | installed (functions : Nat) (className : String)
  | stopped (line : Int) (message : String)
  | preludeLoaded
  | rejected (name : String) (faults : Nat)
deriving DecidableEq, Repr

namespace Note

/-- The part of the program that a note comes from. -/
def origin : Note → String
  | scanned .. => "treelox.lexer"
  | importSkipped _ | imported .. | desugared _ | parsed .. => "treelox.parser"
  | resolved .. => "treelox.resolver"
  | installed .. => "treelox.runtime.builtins"
  | stopped .. => "treelox.runtime.interpreter"
  | preludeLoaded | rejected .. => "treelox.session"

def message : Note → String
  | scanned tokens faults name =>
    "scanned " ++ toString tokens ++ " tokens (" ++ toString faults ++ " errors) from " ++ name
  | importSkipped path => "skipping already imported " ++ path
  | imported tokens path => "imported " ++ toString tokens ++ " tokens from " ++ path
  | desugared line => "desugared 'for' at line " ++ toString line
  | parsed statements faults name =>
    "parsed " ++ toString statements ++ " statements (" ++ toString faults ++ " errors) from "
      ++ name
  | resolved references faults =>
    "resolved " ++ toString references ++ " local references (" ++ toString faults ++ " errors)"
  | installed functions className =>
    "installed " ++ toString functions ++ " native functions and class '" ++ className ++ "'"
  | stopped line message => "runtime error at line " ++ toString line ++ ": " ++ message
  | preludeLoaded => "prelude loaded"
  | rejected name faults => name ++ ": " ++ toString faults ++ " static error(s), not running"

/-- The line of a note in a trace. -/
def render (n : Note) : String :=
  n.origin ++ " DEBUG: " ++ n.message

end Note

/-- The name of a source in notes: that of its file, if it has one. -/
def noteName (file : Option String) : String :=
  match file with
  | some name => if name = "" then "<source>" else name
  | none => "<source>"

end Lox
