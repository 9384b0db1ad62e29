import Lox.Session

/-!
# Interactive sessions

Lines are typed in one after the other. Lines that leave brackets open are collected
until the brackets are closed; what was collected is a unit, and is run unless it is
blank.
-/

namespace Lox

/-- The name of a unit that was typed in. -/
def typedName : String := "<stdin>"

/-- What is shown while the lines of a unit are collected. -/
def continuationPrompt : String := "... "

/-- An interactive session. -/
structure Repl where
  session : Session
  /-- The lines of a unit that is not complete yet. -/
  pending : Option String := none

/-- What a line wrote. -/
structure LineReport where
  printed : List String := []
  log : List LogEntry := []
  /-- What ended the session, if anything did. -/
  escape : Option Escape := none

namespace Repl

/-- What is shown while a line is waited for. -/
def prompt (r : Repl) : String :=
  match r.pending with
  | none => r.session.settings.prompt.shown
  | some _ => continuationPrompt

/-- The note about scanning a text to see whether it is complete. -/
def scanNote (text : String) : LogEntry :=
  let found := scan text.toList
  .note (.scanned found.tokens.length found.faults.length (noteName none))

/-- Runs a complete unit. -/
def runUnit (r : Repl) (text : String) : LineReport × Repl :=
  let (report, session) := r.session.run text (some typedName) true
  let escape :=
    match report.outcome with
    | .escaped e => some e
    | _ => none
  (⟨report.printed, report.log, escape⟩, { session := session })

/-- Takes a line. -/
def feed (r : Repl) (line : String) : LineReport × Repl :=
  let text :=
    match r.pending with
    | none => line
    | some before => before ++ "\n" ++ line
  let note := scanNote text
  if needsMore text.toList then (⟨[], [note], none⟩, { r with pending := some text })
  else if isBlank text then (⟨[], [note], none⟩, { r with pending := none })
  else
    let (report, r) := r.runUnit text
    ({ report with log := note :: report.log }, r)

end Repl

end Lox
