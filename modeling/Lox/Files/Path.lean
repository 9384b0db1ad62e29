/-!
# Paths

Paths are texts with slashes. An absolute path in normal form is a list of names
from the root downwards; `.` and empty names have been dropped and every `..` has
taken the name before it away. A text that begins with exactly two slashes names
a root of its own, and keeps them.
-/

namespace Lox

/-- The parts of a text between slashes. -/
def splitSlashes : List Char → List (List Char)
  | [] => [[]]
  | c :: rest =>
    match splitSlashes rest with
    | [] => [[c]]
    | part :: parts => if c = '/' then [] :: part :: parts else (c :: part) :: parts

/-- The names in a path that say something: neither empty nor a single dot. -/
def pathNames (path : String) : List String :=
  ((splitSlashes path.toList).map String.ofList).filter fun name => name != "" && name != "."

/-- Does a path begin with exactly two slashes? -/
def isDoubleRooted (path : String) : Bool :=
  match path.toList with
  | '/' :: '/' :: '/' :: _ => false
  | '/' :: '/' :: _ => true
  | _ => false

def isAbsolute (path : String) : Bool :=
  path.toList.head? == some '/'

/-- An absolute path in normal form. -/
structure AbsPath where
  /-- The names from the root downwards. -/
  names : List String
  /-- Is it below the root that is written with two slashes? -/
  doubled : Bool := false
deriving DecidableEq, Repr

namespace AbsPath

/-- One step from a place given by the names on the way to it, nearest first. A
step up from the root stays there. -/
def step (reversed : List String) (name : String) : List String :=
  if name = ".." then reversed.drop 1 else name :: reversed

/-- The path reached from `base` by following a path text. An absolute text does
not depend on where it is followed from. -/
def follow (base : AbsPath) (path : String) : AbsPath :=
  let start := if isAbsolute path then [] else base.names.reverse
  { names := ((pathNames path).foldl step start).reverse
    doubled := if isAbsolute path then isDoubleRooted path else base.doubled }

/-- The directory that a path lies in. -/
def parent (p : AbsPath) : AbsPath :=
  { p with names := p.names.dropLast }

/-- The same place under the root that is written with one slash. -/
def single (p : AbsPath) : AbsPath :=
  { p with doubled := false }

/-- The text of a path. -/
def text (p : AbsPath) : String :=
  (if p.doubled then "//" else "/") ++ String.intercalate "/" p.names

end AbsPath

/-- A path as it is shown to the user: without empty names and single dots, but
with every `..` left where it stands. -/
def tidyPath (path : String) : String :=
  let names := String.intercalate "/" (pathNames path)
  if isDoubleRooted path then "//" ++ names
  else if isAbsolute path then "/" ++ names
  else if names = "" then "."
  else names

/-- The last name of a path, empty if there is none. -/
def lastName (path : String) : String :=
  (pathNames path).getLast?.getD ""

end Lox
