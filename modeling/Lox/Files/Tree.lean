import Lox.Files.Path
import Lox.Files.Utf8
import Lox.Text.Lines
import Lox.Text.Quoted

/-!
# The files a program can see

A finite set of files with their contents, and the directory that relative paths
start from. A directory exists if a file lies below it or if it is on the way to
the working directory; there are no links. A path text is followed name by name,
as an operating system does: `..` leads up from a directory that has to exist.

A file may be there and yet be closed to its reader. An import tells such a file from
one that is missing; to everything else it is the same.
-/

namespace Lox

/-- Why the system refuses to open a file that is there: its number for the reason,
and its words. -/
structure Denial where
  number : Nat
  reason : String
deriving DecidableEq, Repr

/-- Files by their names from the root downwards. -/
structure Files where
  /-- The directory that relative paths start from. -/
  working : AbsPath := ⟨[], false⟩
  contents : List (List String × List UInt8) := []
  /-- The files that cannot be opened. -/
  denials : List (List String × Denial) := []

/-- What stands at a place. -/
inductive Entry where
  | file (bytes : List UInt8)
  | denied (denial : Denial)
  | directory
  | missing

/-- Why a file cannot be opened. -/
inductive OpenFault where
  | missing
  | isDirectory
  /-- A name on the way is that of a file. -/
  | notDirectory
  /-- A path holds the character that ends paths. -/
  | nullCharacter
deriving DecidableEq, Repr

/-- Why a file cannot be read as text. -/
inductive ReadFault where
  | unopened (fault : OpenFault)
  | encoding (error : EncodingError)
deriving DecidableEq, Repr

/-- The report about a file that cannot be opened. -/
def Denial.message (path : String) (r : Denial) : String :=
  "[Errno " ++ toString r.number ++ "] " ++ r.reason ++ ": " ++ quoted path

namespace OpenFault

/-- The report about a path that cannot be opened. -/
def message (path : String) : OpenFault → String
  | missing => "[Errno 2] No such file or directory: " ++ quoted path
  | isDirectory => "[Errno 21] Is a directory: " ++ quoted path
  | notDirectory => "[Errno 20] Not a directory: " ++ quoted path
  | nullCharacter => "embedded null byte"

end OpenFault

namespace ReadFault

/-- The report about a path that cannot be read as text. -/
def message (path : String) : ReadFault → String
  | unopened fault => fault.message path
  | encoding e => e.message

end ReadFault

namespace Files

/-- The names of all files. -/
def names (f : Files) : List (List String) :=
  f.contents.map Prod.fst ++ f.denials.map Prod.fst

/-- Is there a directory at these names? -/
def isDirectory (f : Files) (names : List String) : Bool :=
  names.isPrefixOf f.working.names ||
    f.names.any fun file => names.length < file.length && names.isPrefixOf file

/-- What stands at these names. -/
def entry (f : Files) (names : List String) : Entry :=
  match f.contents.lookup names, f.denials.lookup names with
  | some bytes, _ => .file bytes
  | none, some denial => .denied denial
  | none, none => if f.isDirectory names then .directory else .missing

/-- The bytes of the file at a path in normal form. -/
def file? (f : Files) (path : AbsPath) : Option (List UInt8) :=
  match f.entry path.names with
  | .file bytes => some bytes
  | _ => none

/-- Follows names from a place, given by the names to it, nearest first. -/
def walk (f : Files) : List String → List String → Except OpenFault (List UInt8)
  | here, [] =>
    match f.entry here.reverse with
    | .file bytes => .ok bytes
    | .directory => .error .isDirectory
    | .denied _ | .missing => .error .missing
  | here, name :: rest =>
    match f.entry here.reverse with
    | .file _ | .denied _ => .error .notDirectory
    | .missing => .error .missing
    | .directory =>
      if name = "" ∨ name = "." then f.walk here rest
      else if name = ".." then f.walk (here.drop 1) rest
      else f.walk (name :: here) rest

/-- Opens the file that a path text leads to. -/
def openFile (f : Files) (path : String) : Except OpenFault (List UInt8) :=
  if path = "" then .error .missing
  else if path.toList.contains '\x00' then .error .nullCharacter
  else
    let start := if isAbsolute path then [] else f.working.names.reverse
    f.walk start ((splitSlashes path.toList).map String.ofList)

/-- The bytes of a file as text. -/
def textOf (bytes : List UInt8) : Except ReadFault String :=
  match decodeUtf8 bytes with
  | .ok cs => .ok (String.ofList (unifyNewlines cs))
  | .error e => .error (.encoding e)

/-- Reads the text of the file that a path text leads to, its line endings made
uniform. -/
def read (f : Files) (path : String) : Except ReadFault String :=
  match f.openFile path with
  | .ok bytes => textOf bytes
  | .error fault => .error (.unopened fault)

end Files

end Lox
