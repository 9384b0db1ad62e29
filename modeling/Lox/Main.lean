import Lox.Command.Arguments
import Lox.Yaml.Reader

/-!
# The program

Reads the files that the command can come to need, hands them to it, and writes what it
says. An interactive session is fed line by line.
-/

namespace Lox
namespace Program

/-- The bytes of a file, or why it cannot be opened; nothing if there is none. -/
def bytes? (path : AbsPath) : IO (Option (Except Denial (List UInt8))) := do
  try
    let bytes ← IO.FS.readBinFile path.text
    pure (some (.ok bytes.toList))
  catch
    | .permissionDenied _ number reason => pure (some (.error ⟨number.toNat, reason⟩))
    | _ => pure none

/-- The files with one more, if there is one. -/
def addFile (files : Files) (path : AbsPath) : IO Files := do
  match ← bytes? path with
  | none => pure files
  | some (.error denial) => pure { files with denials := files.denials ++ [(path.names, denial)] }
  | some (.ok bytes) => pure { files with contents := files.contents ++ [(path.names, bytes)] }

/-- The files that a source asks to import. -/
def wantedBy (im : Importer) (source : List Char) : List AbsPath :=
  im.wanted (scan source).tokens

/-- Adds files, and all that they import. -/
partial def gather (im : Importer) : List AbsPath → IO Files
  | [] => pure im.files
  | path :: rest => do
    if (im.files.file? path).isSome then gather im rest
    else
      let files ← addFile im.files path
      let im := { im with files := files }
      match (files.file? path).map decodeUtf8 with
      | some (.ok text) => gather im (wantedBy im (unifyNewlines text) ++ rest)
      | _ => gather im rest

/-- The file of an action. -/
def fileOf : Action → Option String
  | .run file => some file
  | .check file => some file
  | .ast file _ => some file
  | .tokens file => some file
  | .repl => none

/-- The files that an action needs. -/
def filesFor (working : AbsPath) (a : Arguments) : IO Files := do
  let files : Files := { working := working }
  let files ←
    match a.config with
    | none => pure files
    | some path => addFile files (working.follow path)
  match fileOf a.action with
  | none => pure files
  | some file =>
    let path := working.follow file
    gather ⟨path.parent, files⟩ [path]

/-- Writes what a run gave. -/
def write (out : List String) (log : List LogEntry) (verbose : Bool) : IO Unit := do
  let r : CommandResult := { out := out, log := log }
  (← IO.getStdout).putStr r.stdout
  (← IO.getStderr).putStr (r.stderr verbose)

/-- Says what broke the command, and gives the number to end with. -/
def breakDown (b : Breakdown) : IO UInt32 := do
  (← IO.getStderr).putStrLn b.message
  pure 1

/-- The number that the program ends with. -/
def finish : Ending → IO UInt32
  | .exit code => pure code.number.toUInt32
  | .broken b => breakDown b

/-- The seconds of the wall clock, as they show in the time of a file that was just made. -/
def seconds : IO Float := do
  let (_, path) ← IO.FS.createTempFile
  let made := (← path.metadata).modified
  IO.FS.removeFile path
  pure (Float.ofInt made.sec + made.nsec.toFloat / 1000000000)

/-- What the clock shows to a unit. It is read when the unit begins, because nothing that
a unit writes is seen before it ends. -/
def clock : IO (Nat → Float) := do
  let now ← seconds
  pure fun _ => now

/-- Feeds what is typed to an interactive session. -/
partial def interact (verbose : Bool) (r : Repl) : IO UInt32 := do
  (← IO.getStdout).putStr r.prompt
  (← IO.getStdout).flush
  let line ← (← IO.getStdin).getLine
  if line.isEmpty then
    (← IO.getStdout).putStr "\n"
    pure 0
  else
    let line := (Command.typedLines line).headD ""
    let im := r.session.importer
    let files ← gather im (wantedBy im line.toList)
    let machine := { r.session.machine with readings := ← clock }
    let session := { r.session with files := files, machine := machine }
    let (report, next) := { r with session := session }.feed line
    write (Command.asLines report.printed) report.log verbose
    match report.escape with
    | some e => breakDown (.escape e)
    | none => interact verbose next

/-- Runs the command. -/
def run (words : List String) : IO UInt32 := do
  let readings ← clock
  let working := (AbsPath.mk [] false).follow (← IO.currentDir).toString
  match Arguments.ofWords words with
  | .error _ =>
    let here := { files := {}, documents := Yaml.read, readings := readings }
    let (out, err, ending) := Command.invoke here "" words
    write [out] [.text err] false
    finish ending
  | .ok a =>
    let files ← filesFor working a
    let here : Circumstances := { files := files, documents := Yaml.read, readings := readings }
    match a.action, Command.settings Yaml.read files a.config with
    | .repl, .ok settings =>
      match Session.start settings files working readings with
      | (log, .error e) =>
        write [] log a.verbose
        breakDown (.escape e)
      | (log, .ok session) =>
        write [bannerText] log a.verbose
        interact a.verbose { session := session }
    | _, _ =>
      let r := Command.perform here "" a
      write r.out r.log a.verbose
      finish r.ending

end Program
end Lox

def main (words : List String) : IO UInt32 :=
  Lox.Program.run words
