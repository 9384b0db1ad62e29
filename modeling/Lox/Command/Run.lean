import Lox.Command.Repl
import Lox.Tree.Outline
import Lox.Tree.Prefixed

/-!
# The command

What the command writes and how it ends is a function of its arguments, of the lines
that are typed in, and of the files there are. The exit code tells the kinds of failure
apart; a file or setting that cannot be dealt with at all ends the command without one.
-/

namespace Lox

/-- What is to be done. -/
inductive Action where
  | run (file : String)
  | check (file : String)
  | ast (file : String) (expression : Bool)
  | tokens (file : String)
  | repl
deriving DecidableEq, Repr

/-- The arguments of the command. -/
structure Arguments where
  verbose : Bool := false
  config : Option String := none
  action : Action := .repl
deriving DecidableEq, Repr

/-- The exit codes. -/
inductive ExitCode where
  | success
  | usage
  | badSource
  | noInput
  | failure
deriving DecidableEq, Repr

/-- The number of an exit code. -/
def ExitCode.number : ExitCode → Nat
  | success => 0
  | usage => 64
  | badSource => 65
  | noInput => 66
  | failure => 70

/-- What ends the command without an exit code. -/
inductive Breakdown where
  | settings (fault : SettingsFault)
  | file (path : String) (fault : ReadFault)
  | escape (e : Escape)

/-- The report of what ended the command. -/
def Breakdown.message : Breakdown → String
  | settings fault => fault.message
  | file path fault => fault.message path
  | escape e => e.message

/-- How the command ends. -/
inductive Ending where
  | exit (code : ExitCode)
  | broken (b : Breakdown)

/-- What the command does: the texts it writes on standard output, what it logs, and
how it ends. -/
structure CommandResult where
  out : List String := []
  log : List LogEntry := []
  ending : Ending := .exit .success

/-- The name of the command. -/
def commandName : String := "treelox"

/-- What the command shows when an interactive session starts. -/
def bannerText : String := commandName ++ " REPL - Ctrl-D to exit\n"

namespace CommandResult

/-- Ends with an exit code. -/
def exit (code : ExitCode) (out : List String) (log : List LogEntry) : CommandResult :=
  ⟨out, log, .exit code⟩

/-- Ends without one. -/
def broken (b : Breakdown) (out : List String) (log : List LogEntry) : CommandResult :=
  ⟨out, log, .broken b⟩

/-- Something more that is written before. -/
def after (p : CommandResult) (out : List String) (log : List LogEntry) : CommandResult :=
  ⟨out ++ p.out, log ++ p.log, p.ending⟩

/-- The text on standard output. -/
def stdout (p : CommandResult) : String := String.join p.out

/-- The text on standard error. Notes are written only if the run is traced. -/
def stderr (p : CommandResult) (verbose : Bool) : String :=
  String.join (p.log.map fun e =>
    match e with
    | .text s => s
    | .note n => if verbose then n.render ++ "\n" else "")

end CommandResult

/-- Where and when the command is started, and how the documents are read that settings
are given in. -/
structure Circumstances where
  files : Files
  documents : DocumentReader
  /-- What the clock shows whenever it is read. -/
  readings : Nat → Float

namespace Command

/-- Texts as lines. -/
def asLines (texts : List String) : List String :=
  texts.map (· ++ "\n")

/-- The source in a file; or how the command ends if there is none. -/
def source (files : Files) (file : String) : Except CommandResult String :=
  match files.read (tidyPath file) with
  | .ok text => .ok text
  | .error (.unopened _) =>
    .error (.exit .noInput [] [.text ("Error: File not found: " ++ tidyPath file ++ "\n")])
  | .error fault => .error (.broken (.file file fault) [] [])

/-- The exit code of an outcome. -/
def codeOf : Outcome → Ending
  | .completed => .exit .success
  | .rejected _ => .exit .badSource
  | .failed _ => .exit .failure
  | .escaped e => .broken (.escape e)

/-- Runs a file in a session of its own. -/
def run (here : Circumstances) (settings : Settings) (file : String) : CommandResult :=
  match source here.files file with
  | .error p => p
  | .ok _ =>
    match Session.start settings here.files here.files.working here.readings with
    | (log, .error e) => .broken (.escape e) [] log
    | (log, .ok s) =>
      match s.runFile file with
      | .error fault => .broken (.file file fault) [] log
      | .ok (report, _) =>
        ⟨asLines report.printed, log ++ report.log, codeOf report.outcome⟩

/-- The diagnostics of a command as one text. -/
def report (settings : Settings) (ds : List Diagnostic) : LogEntry :=
  .text (Diagnostic.renderAll ds settings.showSource.truthy ++ "\n")

/-- Where the imports of a file are looked for that is not run. -/
def importerFor (files : Files) (file : String) : Importer :=
  ⟨(files.working.follow (tidyPath file)).parent.single, files⟩

/-- Looks for faults in a file. -/
def check (here : Circumstances) (settings : Settings) (file : String) : CommandResult :=
  match source here.files file with
  | .error p => p
  | .ok text =>
    let reading := UnitReading.ofSource (importerFor here.files file) settings.errorLimit
      (some file) false text
    let log := reading.notes.map LogEntry.note
    match reading.halt with
    | some halt => .broken (.escape (.halt halt)) [] log
    | none =>
      if reading.faults.isEmpty then
        let count := toString reading.program.length
        .exit .success
          ["OK: " ++ lastName file ++ " - " ++ count ++ " statement(s), no errors\n"] log
      else
        let located := reading.faults.map (·.locate (sourceLines text))
        .exit .badSource [] (log ++ [report settings located])

/-- Shows a tree, or the faults of the parse that should have given it. -/
def showTree (tree : String) (faults : List Diagnostic) (log : List LogEntry) : CommandResult :=
  if faults.isEmpty then .exit .success [tree ++ "\n"] log
  else .exit .badSource [] (log ++ [.text (Diagnostic.renderAll faults false ++ "\n")])

/-- Shows the syntax tree of a file, or of the expression that it begins with. -/
def ast (here : Circumstances) (settings : Settings) (file : String) (expression : Bool) :
    CommandResult :=
  match source here.files file with
  | .error p => p
  | .ok text =>
    let found := scan text.toList
    let log : List LogEntry :=
      [.note (.scanned found.tokens.length found.faults.length (noteName (some file)))]
    match found.diagnostics (sourceLines text) with
    | d :: _ =>
      .exit .badSource []
        (log ++ [.text (d.render settings.showSource.truthy ++ "\n")])
    | [] =>
      if expression then
        let (e, s) := parseExpression found.tokens
        showTree ((e.map Expr.prefixed).getD "") (s.faults.map SyntaxFault.toDiagnostic)
          (log ++ s.notes.map LogEntry.note)
      else
        let r := parseProgram (importerFor here.files file) settings.errorLimit found.tokens
          (some file)
        let log := log ++ r.state.notes.map LogEntry.note
        match r.halt with
        | some halt => .broken (.escape (.halt halt)) [] log
        | none => showTree (outlineText 0 r.program) r.diagnostics log

/-- A number set flush left in a column. -/
def padRight (width : Nat) (text : String) : String :=
  text ++ String.ofList (List.replicate (width - text.length) ' ')

/-- The line of a token, after its place. -/
def tokenLine (t : Token) : String :=
  Diagnostic.padLeft 4 (toString t.line) ++ ":" ++ padRight 3 (toString t.column) ++ " " ++
    t.render

/-- Shows the tokens of a file, also when there are faults among them. -/
def tokens (here : Circumstances) (settings : Settings) (file : String) : CommandResult :=
  match source here.files file with
  | .error p => p
  | .ok text =>
    let found := scan text.toList
    let note : LogEntry :=
      .note (.scanned found.tokens.length found.faults.length (noteName (some file)))
    let out := asLines (found.tokens.map tokenLine)
    match found.diagnostics (sourceLines text) with
    | [] => .exit .success out [note]
    | ds => .exit .badSource out [note, report settings ds]

/-- Feeds lines to an interactive session until they end. -/
def interact (r : Repl) : List String → CommandResult
  | [] => .exit .success [r.prompt, "\n"] []
  | line :: rest =>
    let (report, next) := r.feed line
    let out := r.prompt :: asLines report.printed
    match report.escape with
    | some e => .broken (.escape e) out report.log
    | none => (interact next rest).after out report.log

/-- The lines that are typed in. Only a newline ends a line. -/
def typedLines (input : String) : List String :=
  let lines := input.splitOn "\n"
  if lines.getLast? = some "" then lines.dropLast else lines

/-- Runs an interactive session. -/
def repl (here : Circumstances) (settings : Settings) (input : String) : CommandResult :=
  match Session.start settings here.files here.files.working here.readings with
  | (log, .error e) => .broken (.escape e) [] log
  | (log, .ok s) => (interact { session := s } (typedLines input)).after [bannerText] log

/-- The settings of a file, or how the command ends if they cannot be read. -/
def settings (documents : DocumentReader) (files : Files) :
    Option String → Except CommandResult Settings
  | none => .ok {}
  | some path =>
    match Settings.load documents files path with
    | .ok s => .ok s
    | .error fault =>
      let told (code : ExitCode) (opening : String) : CommandResult :=
        .exit code [] [.text (opening ++ fault.message ++ "\n")]
      .error <|
        match fault with
        | .missing _ => told .noInput "Error: "
        | .keyNotText => .broken (.settings fault) [] []
        | .unreadable _ (.unopened _) => .broken (.settings fault) [] []
        | .noValue failure =>
          if failure.isEscape then .broken (.settings fault) [] []
          else told .usage "Error: invalid configuration: "
        | _ => told .usage "Error: invalid configuration: "

/-- Does what the arguments say. -/
def perform (here : Circumstances) (input : String) (a : Arguments) : CommandResult :=
  match settings here.documents here.files a.config with
  | .error p => p
  | .ok s =>
    match a.action with
    | .run file => run here s file
    | .check file => check here s file
    | .ast file expression => ast here s file expression
    | .tokens file => tokens here s file
    | .repl => repl here s input

end Command

end Lox
