import Lox.Proofs.Context.Rendering
import Lox.Proofs.Resolution.Slots

/-!
# What a unit gives and what it leaves

A run of a unit writes into the session all the while: its lines, the slots of its
references, what it prints, the error that stops it. What it gives depends on nothing
that earlier units wrote there: `Session.run_report` says it as a function of the lines, of
what is read, and of the machine. Besides the machine, only the traces change
(`Session.run_after`), and of the traces of earlier units only the slots are left, with
those of the unit behind them (`Session.run_traces`).
-/

namespace Lox

/-- The error that ended a unit. -/
def Outcome.error? : Outcome → Option RuntimeError
  | failed e => some e
  | _ => none

/-- Did the unit run to its end? -/
def Outcome.isCompleted : Outcome → Bool
  | completed => true
  | _ => false

theorem Outcome.isCompleted_iff {o : Outcome} : o.isCompleted = true ↔ o = .completed := by
  cases o <;> simp [isCompleted]

namespace Session

variable (s : Session) (source : String) (name : Option String) (typed : Bool)
  (program : List (Stmt Slot)) (budget : Nat)

/-- The value that a completed unit shows at its end. -/
def shownValue (m : Machine) : List String :=
  if typed && s.settings.echo.truthy && program.getLast?.any showsValue then
    match m.lastValue with
    | .nil => []
    | v => [m.render v]
  else []

/-- What a unit shows at its end is the text of the last value, or nothing. -/
theorem shownValue_cases (m : Machine) :
    s.shownValue typed program m = [] ∨ s.shownValue typed program m = [m.render m.lastValue] := by
  rw [shownValue]
  split
  · split
    · exact .inl rfl
    · exact .inr rfl
  · exact .inl rfl

/-- What running the program of a unit with these lines gives, and the machine after it. -/
def executed (lines : List String) : UnitReport × Machine :=
  let (finish, m) := s.machine.interpretWith budget program
  let printed := m.output.toList
  match finish with
  | .completed => (⟨.completed, printed ++ s.shownValue typed program m, []⟩, m)
  | .error e =>
    let log := [.note (.stopped e.token.line e.message), s.describe lines e.toDiagnostic]
    (⟨.failed e, printed, log⟩, m)
  | .fault f => (⟨.escaped (.fault f), printed, []⟩, m)
  | .spent => (⟨.escaped .spent, printed, []⟩, m)

/-- What a unit with these lines gives once it is read, and the machine after it. -/
def respond (budget : Nat) (lines : List String) (reading : UnitReading) :
    UnitReport × Machine :=
  let notes := reading.notes.map LogEntry.note
  match reading.halt with
  | some halt => (⟨.escaped (.halt halt), [], notes⟩, s.machine)
  | none =>
    if reading.faults.isEmpty then
      let (report, m) := s.executed typed reading.program budget lines
      ({ report with log := notes ++ report.log }, m)
    else
      let rejection := .note (.rejected (noteName name) reading.faults.length)
      let log := notes ++ rejection :: reading.faults.map (s.describe lines)
      (⟨.rejected reading.faults, [], log⟩, s.machine)

/-- The traces that a unit with these lines leaves, if this is what is read of it and what it
gave. -/
def left (lines : List String) (reading : UnitReading) (report : UnitReport) : Traces where
  lines := lines
  output := report.printed
  error := report.outcome.error?
  slots := s.traces.slots ++ (Stmt.nodesAll reading.program).toArray

/-- What is read of a unit. -/
def reading : UnitReading :=
  UnitReading.ofSource s.importer s.settings.errorLimit name typed source

/-! ## Running a program -/

theorem echo_eq : s.echo typed program = s.collect (s.shownValue typed program s.machine) := by
  have hnothing : s.collect [] = s := by
    rw [collect, List.append_nil]
  rw [echo, shownValue]
  split
  · cases s.machine.lastValue with
    | nil => exact hnothing.symm
    | _ =>
        dsimp only
        rw [s.machine.write_eq]
  · exact hnothing.symm

/-- A program that is run gives what `executed` says, and changes nothing but the machine and
the traces. -/
theorem execute_eq (houtput : s.traces.output = []) (herror : s.traces.error = none) :
    let r := s.executed typed program budget s.traces.lines
    (s.execute typed program budget).1 = r.1 ∧
      (s.execute typed program budget).2 = { s with
        machine := r.2
        traces := { s.traces with output := r.1.printed, error := r.1.outcome.error? } } := by
  obtain ⟨_, _, _, _, lines, output, error, slots⟩ := s
  obtain rfl : output = [] := houtput
  obtain rfl : error = none := herror
  simp only [execute, executed]
  generalize Machine.interpretWith budget _ program = r
  obtain ⟨finish, m⟩ := r
  cases finish with
  | completed =>
      simp only [echo_eq]
      exact ⟨rfl, rfl⟩
  | _ => exact ⟨rfl, rfl⟩

/-! ## Running a unit -/

/-- A run gives what `respond` says of what was read, and changes nothing but the machine and
the traces. -/
structure Answers (reading : UnitReading) (r : UnitReport × Session) : Prop where
  report : r.1 = (s.respond name typed budget s.traces.lines reading).1
  after : r.2 = { s with
    machine := (s.respond name typed budget s.traces.lines reading).2
    traces := s.left s.traces.lines reading r.1 }

variable {s name typed budget}

theorem runProgram_answers (houtput : s.traces.output = []) (herror : s.traces.error = none)
    (notes : List Note) {program : List (Stmt Unit)} (h : Stmt.ListedAll program) :
    s.Answers name typed budget
      ⟨(resolveProgram program).program, (resolveProgram program).diagnostics,
        notes ++ [(resolveProgram program).note], none⟩
      (s.runProgram name typed notes program budget) := by
  obtain ⟨hprogram, hfaults, hnote, hsession⟩ := s.resolve_eq h
  have hread : withSlots (s.resolve program).2.2.traces.slots (s.resolve program).1 =
      (resolveProgram program).program := by
    have hslots := withSlots_numberAll h s.traces.slots #[]
    rw [Array.append_empty] at hslots
    rw [hprogram, hsession]
    exact hslots
  rw [runProgram]
  simp only [hread, hfaults, hnote]
  rw [hsession]
  generalize hr : resolveProgram program = r
  have hdiagnostics : r.faults.map ScopeViolation.toDiagnostic = r.diagnostics := rfl
  rw [hdiagnostics]
  by_cases hclean : r.diagnostics.isEmpty = true
  · obtain ⟨hreport, hafter⟩ := execute_eq (s.keeping (Stmt.nodesAll r.program)) typed
      r.program budget houtput herror
    rw [if_pos hclean]
    refine ⟨?_, ?_⟩
    · simp only [respond, if_pos hclean, hreport]
      rfl
    · simp only [respond, if_pos hclean, hreport]
      exact hafter
  · rw [if_neg hclean]
    refine ⟨?_, ?_⟩
    · simp only [respond, if_neg hclean, reject]
      exact congrArg (UnitReport.mk _ · _) houtput
    · simp only [respond, if_neg hclean, reject]
      exact congrArg (Session.mk _ _ _ _) (congrArg (Traces.mk _ _ · _) herror)

theorem runTokens_answers (houtput : s.traces.output = []) (herror : s.traces.error = none)
    (scanned : Note) (tokens : List Token) (found : List Diagnostic) :
    let r := UnitReading.ofTokens s.importer s.settings.errorLimit name tokens found
    s.Answers name typed budget { r with notes := scanned :: r.notes }
      (s.runTokens name typed scanned tokens found budget) := by
  have hlisted := parseProgram_listed s.importer s.settings.errorLimit tokens name
  simp only [runTokens, UnitReading.ofTokens]
  generalize parseProgram s.importer s.settings.errorLimit tokens name = parsed at hlisted
  have hkept (reading : UnitReading) (report : UnitReport) (hnothing : reading.program = [])
      (hprinted : report.printed = s.traces.output) (hended : report.outcome.error? = none) :
      s = { s with traces := s.left s.traces.lines reading report } := by
    rw [left, hnothing, hprinted, hended, ← herror]
    exact congrArg (fun slots => { s with traces := { s.traces with slots := slots } })
      Array.append_empty.symm
  cases parsed.halt with
  | some halt =>
      exact ⟨congrArg (UnitReport.mk _ · _) houtput, hkept _ _ rfl rfl rfl⟩
  | none =>
      by_cases hclean : (found ++ parsed.diagnostics).isEmpty = true
      · simp only [if_pos hclean]
        exact runProgram_answers houtput herror (scanned :: parsed.state.notes) hlisted
      · simp only [if_neg hclean]
        refine ⟨?_, ?_⟩
        · simp only [respond, if_neg hclean, reject]
          exact congrArg (UnitReport.mk _ · _) houtput
        · simp only [respond, if_neg hclean, reject]
          exact hkept _ _ rfl rfl rfl

variable (s name typed budget)

/-- A unit answers what is read of it, whatever earlier units left. -/
theorem run_answers :
    (s.opened source).Answers name typed budget (s.reading source name typed)
      (s.run source name typed budget) :=
  runTokens_answers (s := s.opened source) rfl rfl _ _ _

/-- What a unit gives does not depend on what earlier ones left. -/
theorem run_report :
    (s.run source name typed budget).1 =
      (s.respond name typed budget (sourceLines source) (s.reading source name typed)).1 :=
  (s.run_answers source name typed budget).report

/-- A unit leaves its lines, what it printed, and its error. Its slots come behind those that
are kept. -/
theorem run_traces :
    (s.run source name typed budget).2.traces = s.left (sourceLines source)
      (s.reading source name typed) (s.run source name typed budget).1 := by
  rw [(s.run_answers source name typed budget).after]
  rfl

theorem run_after :
    (s.run source name typed budget).2 = { s with
      machine :=
        (s.respond name typed budget (sourceLines source) (s.reading source name typed)).2
      traces := (s.run source name typed budget).2.traces } := by
  conv => lhs; rw [(s.run_answers source name typed budget).after]
  rw [run_traces]
  rfl

/-- A run leaves the settings, the files and the base. -/
theorem run_keeps :
    (s.run source name typed budget).2.settings = s.settings ∧
      (s.run source name typed budget).2.files = s.files ∧
      (s.run source name typed budget).2.base = s.base := by
  rw [run_after]
  exact ⟨rfl, rfl, rfl⟩

theorem run_slots :
    (s.run source name typed budget).2.traces.slots =
      s.traces.slots ++ (Stmt.nodesAll (s.reading source name typed).program).toArray := by
  rw [run_traces]
  rfl

end Session
end Lox
