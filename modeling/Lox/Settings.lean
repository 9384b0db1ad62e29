import Lox.Document
import Lox.Files.Tree
import Lox.Parse.Program

/-!
# Settings

Five settings govern a session. Each has a default and is taken as it is given,
whatever kind of data it is; what that means is decided where the setting is used.
Only the names are checked: one that is not known is refused.
-/

namespace Lox

/-- The settings of a session. -/
structure Settings where
  /-- Is the prelude run first? -/
  prelude : Datum := .bool true
  /-- Does an interactive session show the values of expressions? -/
  echo : Datum := .bool true
  /-- Do diagnostics show the source? -/
  showSource : Datum := .bool true
  /-- How many faults the parser collects before it stops. -/
  maxErrors : Datum := .int 20
  /-- What an interactive session shows when it waits for input. -/
  prompt : Datum := .text "> "

/-- Why there are no settings. -/
inductive SettingsFault where
  | unknownKeys (names : List String)
  /-- A key that is not a text. -/
  | keyNotText
  | missing (path : String)
  | notMapping (path : String)
  | malformed (path : String)
  /-- A document with a scalar that has no value. -/
  | noValue (failure : Document.Failure)
  | unreadable (path : String) (fault : ReadFault)

namespace SettingsFault

/-- The report of the fault. -/
def message : SettingsFault → String
  | unknownKeys names => "Unknown configuration key(s): " ++ String.intercalate ", " names
  | keyNotText => "Configuration keys must be texts"
  | missing path => "Configuration file not found: " ++ path
  | notMapping path => "Configuration file must contain a mapping: " ++ path
  | malformed path => "Invalid YAML in " ++ path ++ ": " ++ Document.Failure.malformed.message
  | noValue failure => failure.message
  | unreadable path fault => fault.message path

end SettingsFault

namespace Settings

/-- The settings by their names, in the order in which they are written. -/
def entries (s : Settings) : List (String × Datum) :=
  [("prelude", s.prelude), ("echo", s.echo), ("show_source", s.showSource),
   ("max_errors", s.maxErrors), ("prompt", s.prompt)]

/-- The names of the settings. -/
def names : List String :=
  ({} : Settings).entries.map Prod.fst

/-- The settings with one of them given by its name. -/
def set (s : Settings) (name : String) (d : Datum) : Settings :=
  match name with
  | "prelude" => { s with prelude := d }
  | "echo" => { s with echo := d }
  | "show_source" => { s with showSource := d }
  | "max_errors" => { s with maxErrors := d }
  | "prompt" => { s with prompt := d }
  | _ => s

/-- The settings that a mapping gives. Of two entries with one name the later
counts. -/
def ofMapping (entries : List (Datum × Datum)) : Except SettingsFault Settings :=
  let known := entries.filterMap fun (key, d) => key.text?.map (·, d)
  let unknown := (known.map Prod.fst).filter fun name => !names.contains name
  if known.length < entries.length then .error .keyNotText
  else if !unknown.isEmpty then .error (.unknownKeys (sortedTexts unknown.eraseDups))
  else .ok (known.foldl (fun s (name, d) => s.set name d) {})

/-- The settings that the text of a file gives. A document that holds nothing leaves
every setting at its default. -/
def ofText (read : DocumentReader) (path text : String) : Except SettingsFault Settings :=
  match read text with
  | .error .malformed => .error (.malformed path)
  | .error failure => .error (.noValue failure)
  | .ok (.mapping entries) => ofMapping entries
  | .ok d => if d.truthy then .error (.notMapping path) else .ok {}

/-- An incomplete character at the end of a settings file is met when everything
before it has been taken, and is reported as a text of its own. -/
def readFault : ReadFault → ReadFault
  | .encoding e => .encoding (if e.fault = .unexpectedEnd then { e with start := 0 } else e)
  | fault => fault

/-- Reads settings from a file. -/
def load (read : DocumentReader) (files : Files) (path : String) :
    Except SettingsFault Settings :=
  match files.read (tidyPath path) with
  | .ok text => ofText read (tidyPath path) text
  | .error (.unopened .isDirectory) =>
    .error (.unreadable (tidyPath path) (.unopened .isDirectory))
  | .error (.unopened _) => .error (.missing (tidyPath path))
  | .error fault => .error (.unreadable (tidyPath path) (readFault fault))

/-- Are these the same settings? -/
def same (s t : Settings) : Bool :=
  (s.entries.zip t.entries).all fun ((_, a), (_, b)) => a.same b

/-- The limit of faults that the settings give. -/
def errorLimit (s : Settings) : ErrorLimit :=
  match s.maxErrors with
  | .bool b => .count (if b then 1 else 0)
  | .int n => .count n
  | .real x => .real x
  | _ => .unordered

end Settings

end Lox
