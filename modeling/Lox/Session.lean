import Lox.Eval.Run
import Lox.Resolver
import Lox.Settings

/-!
# Sessions

A session runs units of source one after the other on one machine, so that what a
unit defines is there for the next. A unit in which the lexer, the parser or the
resolver finds a fault is rejected and never run; it leaves the machine as it was.

Besides its machine a session keeps what its sinks collect while a unit runs, the lines
that diagnostics are shown with, and the distances that were resolved. All of that is
written before it is known whether a unit is rejected.

A unit that was typed in may lack its last semicolon, and shows the value of its last
expression.
-/

namespace Lox

/-! ## The prelude

Functions that are written in the language itself. They are run as the first unit of
a session, so that every later one can use them. -/

/-- The name of the prelude as a file. -/
def preludeName : String := "<prelude>"

/-- The text of the prelude: powers with whole exponents. -/
def preludeSource : String :=
  "fun pow(base, exponent) \x7b\n" ++
  "  if (exponent < 0) return 1 / pow(base, -exponent);\n" ++
  "  var result = 1;\n" ++
  "  while (exponent > 0) \x7b\n" ++
  "    result = result * base;\n" ++
  "    exponent = exponent - 1;\n" ++
  "  \x7d\n" ++
  "  return result;\n" ++
  "\x7d\n"

/-! ## What a unit gives -/

/-- What a run writes besides what the program prints: texts for the user, and notes
for the trace. -/
inductive LogEntry where
  | text (s : String)
  | note (n : Note)

/-- What ends a run that neither completes nor reports an error of the program. -/
inductive Escape where
  | halt (h : Halt)
  | fault (f : Fault)
  /-- The budget of the recursion is used up. -/
  | spent

/-- The report of what ended a run. -/
def Escape.message : Escape → String
  | halt h => h.message
  | fault f => f.message
  | spent => "the budget of the recursion is used up"

/-- How a unit ended. -/
inductive Outcome where
  | completed
  /-- It was not run, because of the faults in it. -/
  | rejected (faults : List Diagnostic)
  /-- An error ended the run. -/
  | failed (e : RuntimeError)
  | escaped (e : Escape)

/-- What running a unit gave. -/
structure UnitReport where
  outcome : Outcome
  /-- What was printed, the shown value included. -/
  printed : List String := []
  log : List LogEntry := []

/-- What the units of a session leave in it, besides what they do to its machine. -/
structure Traces where
  /-- The lines of the last unit. -/
  lines : List String := []
  /-- What the last unit printed. -/
  output : List String := []
  /-- The error that stopped the last unit. -/
  error : Option RuntimeError := none
  /-- The slots of all references that were ever resolved, by their numbers. -/
  slots : Array Slot := #[]

/-- A session. -/
structure Session where
  settings : Settings
  files : Files
  /-- Where imports are looked for. -/
  base : AbsPath
  machine : Machine
  traces : Traces := {}

/-- The tokens of a unit that was typed in: with a semicolon at the end, unless there
is one, or a brace. -/
def closeUnit (tokens : List Token) : List Token :=
  match tokens.dropLast.getLast?, tokens.getLast? with
  | some last, some finish =>
    if last.kind = .semicolon ∨ last.kind = .rightBrace then tokens
    else
      tokens.dropLast ++
        [{ kind := .semicolon, lexeme := ";", line := last.line
           column := last.column + last.lexeme.length },
         finish]
  | _, _ => tokens

/-- Is this a statement whose value is shown: an expression, but no assignment? -/
def showsValue : Stmt Slot → Bool
  | .expression (.assign ..) => false
  | .expression (.set ..) => false
  | .expression _ => true
  | _ => false

/-- A unit that was read: its program, or what is wrong with it. -/
structure UnitReading where
  program : List (Stmt Slot)
  faults : List Diagnostic
  notes : List Note
  halt : Option Halt := none

namespace UnitReading

/-- Reads tokens whose scan left the diagnostics `found`. Resolution is left out if
anything is wrong already. -/
def ofTokens (im : Importer) (limit : ErrorLimit) (name : Option String) (tokens : List Token)
    (found : List Diagnostic) : UnitReading :=
  let parsed := parseProgram im limit tokens name
  let faults := found ++ parsed.diagnostics
  let notes := parsed.state.notes
  match parsed.halt with
  | some halt => ⟨[], faults, notes, some halt⟩
  | none =>
    if faults.isEmpty then
      let r := resolveProgram parsed.program
      ⟨r.program, r.diagnostics, notes ++ [r.note], none⟩
    else ⟨[], faults, notes, none⟩

/-- Reads a source. -/
def ofSource (im : Importer) (limit : ErrorLimit) (name : Option String) (typed : Bool)
    (source : String) : UnitReading :=
  let found := scan source.toList
  let tokens := if typed then closeUnit found.tokens else found.tokens
  let r := ofTokens im limit name tokens (found.diagnostics (sourceLines source))
  { r with notes := .scanned found.tokens.length found.faults.length (noteName name) :: r.notes }

end UnitReading

namespace Session

def importer (s : Session) : Importer := ⟨s.base, s.files⟩

/-- The text of a diagnostic of a unit with these lines. -/
def describe (s : Session) (lines : List String) (d : Diagnostic) : LogEntry :=
  .text ((d.locate lines).render s.settings.showSource.truthy ++ "\n")

/-- The session before a unit: nothing is left of the last one but its slots. -/
def opened (s : Session) (source : String) : Session :=
  { s with traces := { lines := sourceLines source, slots := s.traces.slots } }

/-- Collects what is printed. -/
def collect (s : Session) (texts : List String) : Session :=
  { s with traces := { s.traces with output := s.traces.output ++ texts } }

/-- Remembers what stopped the unit. -/
def stop (s : Session) (e : RuntimeError) : Session :=
  { s with traces := { s.traces with error := some e } }

/-- A program with the slots that are kept under the numbers of its references. -/
def withSlots (slots : Array Slot) (program : List (Stmt Nat)) : List (Stmt Slot) :=
  Stmt.mapAll id (fun _ node => slots.getD node none) 0 program

/-- Resolves a program. Its references get the next numbers, and the distance of a local
one is kept under its number as soon as it is found. -/
def resolve (s : Session) (program : List (Stmt Unit)) :
    List (Stmt Nat) × Resolver Nat (Array Slot) × Session :=
  let (program, next) := Stmt.numberAll program s.traces.slots.size
  let unresolved := Array.replicate (next - s.traces.slots.size) none
  let r := Stmt.walkAll program {
    onResolve := fun node distance slots => slots.setIfInBounds node (some distance)
    distances := s.traces.slots ++ unresolved }
  (program, r, { s with traces := { s.traces with slots := r.distances } })

/-- Shows the value of a completed unit, if it is to be shown. -/
def echo (s : Session) (typed : Bool) (program : List (Stmt Slot)) : Session :=
  if typed && s.settings.echo.truthy && program.getLast?.any showsValue then
    match s.machine.lastValue with
    | .nil => s
    | v =>
      let (text, m) := s.machine.write v
      { s with machine := m }.collect [text]
  else s

/-- Runs the program of a unit. -/
def execute (s : Session) (typed : Bool) (program : List (Stmt Slot))
    (budget : Nat := stepBudget) : UnitReport × Session :=
  let (finish, m) := s.machine.interpretWith budget program
  let s := { s with machine := m }.collect m.output.toList
  match finish with
  | .completed =>
    let s := s.echo typed program
    (⟨.completed, s.traces.output, []⟩, s)
  | .error e =>
    let s := s.stop e
    let log := [.note (.stopped e.token.line e.message), s.describe s.traces.lines e.toDiagnostic]
    (⟨.failed (s.traces.error.getD e), s.traces.output, log⟩, s)
  | .fault f => (⟨.escaped (.fault f), s.traces.output, []⟩, s)
  | .spent => (⟨.escaped .spent, s.traces.output, []⟩, s)

/-- Rejects a unit. -/
def reject (s : Session) (name : Option String) (notes : List Note) (faults : List Diagnostic) :
    UnitReport × Session :=
  let rejection := .note (.rejected (noteName name) faults.length)
  let log := notes.map LogEntry.note ++ rejection :: faults.map (s.describe s.traces.lines)
  (⟨.rejected faults, s.traces.output, log⟩, s)

/-- Runs a program that was parsed, after the notes about that. -/
def runProgram (s : Session) (name : Option String) (typed : Bool) (notes : List Note)
    (program : List (Stmt Unit)) (budget : Nat := stepBudget) : UnitReport × Session :=
  let (program, r, s) := s.resolve program
  let notes := notes ++ [r.note]
  let faults := r.faults.map ScopeViolation.toDiagnostic
  if faults.isEmpty then
    let (report, s) := s.execute typed (withSlots s.traces.slots program) budget
    ({ report with log := notes.map LogEntry.note ++ report.log }, s)
  else s.reject name notes faults

/-- Runs tokens whose scan left the note `scanned` and the diagnostics `found`. -/
def runTokens (s : Session) (name : Option String) (typed : Bool) (scanned : Note)
    (tokens : List Token) (found : List Diagnostic) (budget : Nat := stepBudget) :
    UnitReport × Session :=
  let parsed := parseProgram s.importer s.settings.errorLimit tokens name
  let faults := found ++ parsed.diagnostics
  let notes := scanned :: parsed.state.notes
  match parsed.halt with
  | some halt => (⟨.escaped (.halt halt), s.traces.output, notes.map LogEntry.note⟩, s)
  | none =>
    if faults.isEmpty then s.runProgram name typed notes parsed.program budget
    else s.reject name notes faults

/-- Runs a unit. `name` is the file it comes from, `typed` says that it was typed in. Any
budget that a run does not spend gives the same run. -/
def run (s : Session) (source : String) (name : Option String := none) (typed : Bool := false)
    (budget : Nat := stepBudget) : UnitReport × Session :=
  let s := s.opened source
  let found := scan source.toList
  let tokens := if typed then closeUnit found.tokens else found.tokens
  let scanned := .scanned found.tokens.length found.faults.length (noteName name)
  s.runTokens name typed scanned tokens (found.diagnostics s.traces.lines) budget

/-- Runs a file. Imports in it are looked for beside it. -/
def runFile (s : Session) (path : String) : Except ReadFault (UnitReport × Session) :=
  match s.files.read path with
  | .error fault => .error fault
  | .ok source =>
    let beside := { s with base := (s.files.working.follow path).parent }
    let (report, after) := beside.run source (some path)
    .ok (report, { after with base := s.base })

/-- A session before anything has run in it, not even the prelude. -/
def bare (settings : Settings) (files : Files) (base : AbsPath) (readings : Nat → Float) :
    Session where
  settings := settings
  files := files
  base := base
  machine := Machine.start NativeTable.standard readings

/-- The note about the native functions of a table. -/
def installedNote (t : NativeTable) : Note :=
  .installed t.functions.length t.vectorClass.name

/-- A session after its prelude, if the settings ask for one, and what that wrote. -/
def start (settings : Settings) (files : Files) (base : AbsPath) (readings : Nat → Float) :
    List LogEntry × Except Escape Session :=
  let s := bare settings files base readings
  let installed : LogEntry := .note (installedNote NativeTable.standard)
  if settings.prelude.truthy then
    let (report, s) := s.run preludeSource (some preludeName)
    let log := installed :: report.log
    match report.outcome with
    | .escaped e => (log, .error e)
    | _ => (log ++ [.note .preludeLoaded], .ok s)
  else ([installed], .ok s)

end Session

/-- Runs a source in a session of its own. -/
def runSource (settings : Settings) (files : Files) (base : AbsPath) (readings : Nat → Float)
    (source : String) : Except Escape UnitReport :=
  match Session.start settings files base readings with
  | (_, .error e) => .error e
  | (_, .ok s) =>
    let (report, _) := s.run source
    .ok report

/-! ## All or nothing

Tokens, programs and resolutions for those who have no use for faulty ones. Where
there are faults, the first of them is the answer. -/

/-- The first fault of a source, by the phase that finds it. -/
inductive FirstFault where
  | lexical (d : Diagnostic)
  | syntactic (d : Diagnostic)
  | scoping (d : Diagnostic)
  /-- The parse ended before its time. -/
  | halted (h : Halt)

namespace Strict

/-- The tokens of a source without lexical faults. -/
def tokens (source : String) : Except FirstFault (List Token) :=
  let found := scan source.toList
  match found.diagnostics (sourceLines source) with
  | d :: _ => .error (.lexical d)
  | [] => .ok found.tokens

/-- The program that tokens without syntax faults stand for. -/
def program (im : Importer) (tokens : List Token) : Except FirstFault (List (Stmt Unit)) :=
  let parsed := parseProgram im (.count 20) tokens
  match parsed.halt, parsed.diagnostics with
  | some halt, _ => .error (.halted halt)
  | none, d :: _ => .error (.syntactic d)
  | none, [] => .ok parsed.program

/-- The resolution of a program that keeps the rules of scoping. -/
def resolution (program : List (Stmt Unit)) : Except FirstFault Resolution :=
  let r := resolveProgram program
  match r.diagnostics with
  | d :: _ => .error (.scoping d)
  | [] => .ok r

end Strict

end Lox
