import Lox.Proofs.Scoping.Runs
import Lox.Proofs.Traces

/-!
# Histories of a session

A session is used step by step: units are run, typed in or from a file, a text is asked
whether it needs more, and what the machine holds is looked at. Each step has an
answer, which holds everything it returned, printed and reported, and the session
goes on to the next step.

A unit with a fault in it is read and nothing else. Whether it has one is decided
before the machine is touched, by its text, the settings and the files alone, so the
run of such a unit can be taken out of a history and nobody can tell.
-/

namespace Lox

/-- What can be done with a session. -/
inductive SessionStep where
  | run (source : String) (name : Option String) (typed : Bool)
  | file (path : String)
  | needsMore (text : String)
  /-- A look at the machine, whatever it is that is looked for. -/
  | inspect (question : Machine → String)

/-- What a step gives back. -/
inductive Answer where
  | report (r : UnitReport)
  | unreadable (fault : ReadFault)
  | needsMore (b : Bool)
  | inspected (text : String)

/-- The faults of a unit that was not run. -/
def Answer.rejection? : Answer → Option (List Diagnostic)
  | report r =>
    match r.outcome with
    | .rejected faults => some faults
    | _ => none
  | _ => none

/-- What ended the run of a unit that neither completed nor reported an error. -/
def Answer.escape? : Answer → Option Escape
  | report r =>
    match r.outcome with
    | .escaped e => some e
    | _ => none
  | _ => none

/-- What a run of a program that ends so escapes with. -/
def UnitEnd.escape? : UnitEnd → Option Escape
  | fault f => some (.fault f)
  | spent => some .spent
  | _ => none

/-- What a step printed. -/
def Answer.printed : Answer → List String
  | report r => r.printed
  | _ => []

/-- The program of a unit that was read, if nothing is wrong with it. -/
def UnitReading.accepted? (r : UnitReading) : Option (List (Stmt Slot)) :=
  if r.faults.isEmpty && r.halt.isNone then some r.program else none

theorem UnitReading.accepted?_accepted {im : Importer} {limit : ErrorLimit}
    {name : Option String} {typed : Bool} {source : String} {program : List (Stmt Slot)}
    (h : (ofSource im limit name typed source).accepted? = some program) : Accepted program := by
  rw [accepted?] at h
  split at h
  · next hclean =>
      cases h
      rw [Bool.and_eq_true] at hclean
      exact ofSource_accepted (List.isEmpty_iff.mp hclean.1)
        (Option.isNone_iff_eq_none.mp hclean.2)
  · cases h

/-- The machine after a unit, which runs a program if it is accepted. -/
def Machine.afterUnit (m : Machine) : Option (List (Stmt Slot)) → Machine
  | none => m
  | some program => (m.interpret program).2

namespace Session

def perform (s : Session) : SessionStep → Answer × Session
  | .run source name typed =>
    let (report, s) := s.run source name typed
    (.report report, s)
  | .file path =>
    match s.runFile path with
    | .error fault => (.unreadable fault, s)
    | .ok (report, s) => (.report report, s)
  | .needsMore text => (.needsMore (Lox.needsMore text.toList), s)
  | .inspect question => (.inspected (question s.machine), s)

/-- The answers of some steps, and the session after them. -/
def performAll (s : Session) : List SessionStep → List Answer × Session
  | [] => ([], s)
  | step :: rest =>
    let (answer, s) := s.perform step
    let (answers, s) := s.performAll rest
    (answer :: answers, s)

variable (s : Session)

theorem performAll_cons (step : SessionStep) (rest : List SessionStep) :
    s.performAll (step :: rest) =
      ((s.perform step).1 :: ((s.perform step).2.performAll rest).1,
        ((s.perform step).2.performAll rest).2) := rfl

theorem performAll_append (before after : List SessionStep) :
    s.performAll (before ++ after) =
      ((s.performAll before).1 ++ ((s.performAll before).2.performAll after).1,
        ((s.performAll before).2.performAll after).2) := by
  induction before generalizing s with
  | nil => rfl
  | cons step before ih =>
      simp only [List.cons_append, performAll]
      rw [ih]

theorem length_performAll (steps : List SessionStep) :
    (s.performAll steps).1.length = steps.length := by
  induction steps generalizing s with
  | nil => rfl
  | cons step steps ih =>
      simp only [performAll, List.length_cons]
      rw [ih]

/-! ## The programs of a history -/

/-- What is read in a step that is to run a unit. -/
def readingOf? : SessionStep → Option UnitReading
  | .run source name typed =>
    some (UnitReading.ofSource s.importer s.settings.errorLimit name typed source)
  | .file path =>
    match s.files.read path with
    | .error _ => none
    | .ok source =>
      let beside : Importer := ⟨(s.files.working.follow path).parent, s.files⟩
      some (UnitReading.ofSource beside s.settings.errorLimit (some path) false source)
  | _ => none

/-- The program that a step runs, if its unit is accepted. -/
def program? (step : SessionStep) : Option (List (Stmt Slot)) :=
  (s.readingOf? step).bind (·.accepted?)

/-- The programs that are run in a history, one after the other. -/
def programs (steps : List SessionStep) : List (List (Stmt Slot)) :=
  steps.filterMap s.program?

theorem programs_accepted (steps : List SessionStep) :
    ∀ program ∈ s.programs steps, Accepted program := by
  intro program hprogram
  obtain ⟨step, _, h⟩ := List.mem_filterMap.mp hprogram
  obtain ⟨r, hr, h⟩ := Option.bind_eq_some_iff.mp h
  cases step with
  | run source name typed =>
      cases hr
      exact UnitReading.accepted?_accepted h
  | file path =>
      simp only [readingOf?] at hr
      split at hr
      · cases hr
      · cases hr
        exact UnitReading.accepted?_accepted h
  | needsMore text => cases hr
  | inspect question => cases hr

/-- Running a program leaves the machine on which it was interpreted. -/
theorem executed_machine (typed : Bool) (program : List (Stmt Slot)) (n : Nat)
    (lines : List String) :
    (s.executed typed program n lines).2 = (s.machine.interpretWith n program).2 := by
  rw [executed]
  generalize s.machine.interpretWith n program = finish
  obtain ⟨finish, m⟩ := finish
  cases finish <;> rfl

section

variable (name : Option String) (typed : Bool) (n : Nat) (lines : List String) {r : UnitReading}

/-- What an accepted unit gives is what running its program gives. -/
theorem respond_of_accepted {p : List (Stmt Slot)} (h : r.accepted? = some p) :
    (s.respond name typed n lines r).1.outcome = (s.executed typed p n lines).1.outcome ∧
      (s.respond name typed n lines r).1.printed = (s.executed typed p n lines).1.printed ∧
      (s.respond name typed n lines r).2 = (s.executed typed p n lines).2 := by
  rw [UnitReading.accepted?] at h
  split at h
  · next hclean =>
      cases h
      rw [Bool.and_eq_true, Option.isNone_iff_eq_none] at hclean
      simp only [respond, hclean.1, hclean.2, if_true]
      trivial
  · cases h

/-- A unit that is not accepted prints nothing and leaves the machine alone. -/
theorem respond_of_not_accepted (h : r.accepted? = none) :
    (s.respond name typed n lines r).1.printed = [] ∧
      (s.respond name typed n lines r).2 = s.machine := by
  rw [UnitReading.accepted?] at h
  simp only [respond]
  cases hhalt : r.halt with
  | some halt => exact ⟨rfl, rfl⟩
  | none =>
      cases hfaults : r.faults.isEmpty with
      | false => exact ⟨rfl, rfl⟩
      | true => simp [hhalt, hfaults] at h

theorem respond_machine (r : UnitReading) :
    (s.respond name typed stepBudget lines r).2 = s.machine.afterUnit r.accepted? := by
  cases h : r.accepted? with
  | none => exact (s.respond_of_not_accepted name typed stepBudget lines h).2
  | some p =>
      obtain ⟨_, _, hmachine⟩ := s.respond_of_accepted name typed stepBudget lines h
      exact hmachine.trans (s.executed_machine typed p stepBudget lines)

end

/-- A unit runs its program on the machine if it is accepted. Besides that it leaves its
traces, and does nothing else with the session. -/
theorem run_session (source : String) (name : Option String) (typed : Bool) :
    (s.run source name typed).2 = { s with
      machine := s.machine.afterUnit (UnitReading.ofSource s.importer s.settings.errorLimit name
        typed source).accepted?
      traces := (s.run source name typed).2.traces } := by
  have hafter := s.run_after source name typed stepBudget
  rw [respond_machine] at hafter
  exact hafter

/-- What escapes from a unit is that it could not be read, or escapes from its program. -/
theorem run_escape {source : String} {name : Option String} {typed : Bool} {e : Escape}
    (h : (s.run source name typed).1.outcome = .escaped e) :
    (∃ halt, e = .halt halt) ∨ ∃ p,
      (UnitReading.ofSource s.importer s.settings.errorLimit name typed source).accepted? =
        some p ∧ (s.machine.interpret p).1.escape? = some e := by
  rw [run_report, reading] at h
  simp only [respond, UnitReading.accepted?] at h ⊢
  generalize UnitReading.ofSource s.importer s.settings.errorLimit name typed source = r at h
  cases hhalt : r.halt with
  | some halt =>
      rw [hhalt] at h
      cases h
      exact .inl ⟨halt, rfl⟩
  | none =>
      rw [hhalt] at h
      cases hfaults : r.faults.isEmpty with
      | false =>
          rw [hfaults] at h
          cases h
      | true =>
          rw [hfaults] at h
          refine .inr ⟨r.program, rfl, ?_⟩
          simp only [executed, if_true] at h
          rw [Machine.interpret]
          generalize s.machine.interpretWith stepBudget r.program = finish at h ⊢
          obtain ⟨finish, m⟩ := finish
          cases finish with
          | completed => cases h
          | error error => cases h
          | fault f => cases h; rfl
          | spent => cases h; rfl

theorem perform_session (step : SessionStep) :
    (s.perform step).2 = { s with
      machine := s.machine.afterUnit (s.program? step)
      traces := (s.perform step).2.traces } := by
  cases step with
  | run source name typed => exact s.run_session source name typed
  | file path =>
      simp only [perform, runFile, program?, readingOf?]
      cases s.files.read path with
      | error fault => rfl
      | ok source =>
          have hbeside := run_session { s with base := (s.files.working.follow path).parent }
            source (some path) false
          dsimp only at hbeside ⊢
          rw [hbeside]
          rfl
  | needsMore text => rfl
  | inspect question => rfl

theorem perform_escape {step : SessionStep} {e : Escape}
    (h : (s.perform step).1.escape? = some e) :
    (∃ halt, e = .halt halt) ∨
      ∃ p, s.program? step = some p ∧ (s.machine.interpret p).1.escape? = some e := by
  have houtcome : ∀ r : UnitReport, (Answer.report r).escape? = some e →
      r.outcome = .escaped e := by
    intro r hr
    simp only [Answer.escape?] at hr
    split at hr
    · next he =>
        cases hr
        exact he
    · cases hr
  cases step with
  | run source name typed => exact s.run_escape (houtcome _ h)
  | file path =>
      simp only [perform, runFile, program?, readingOf?] at h ⊢
      cases hread : s.files.read path with
      | error fault =>
          rw [hread] at h
          cases h
      | ok source =>
          rw [hread] at h
          let beside := { s with base := (s.files.working.follow path).parent }
          exact beside.run_escape (houtcome (beside.run source (some path)).1 h)
  | needsMore text => cases h
  | inspect question => cases h

/-- The machine is used by the programs of a history and by nothing else. -/
theorem performAll_session (steps : List SessionStep) :
    (s.performAll steps).2 = { s with
      machine := (s.machine.runAll stepBudget (s.programs steps)).2
      traces := (s.performAll steps).2.traces } := by
  induction steps generalizing s with
  | nil => rfl
  | cons step steps ih =>
      have hstep := s.perform_session step
      have hrest := ih (s.perform step).2
      rw [performAll_cons]
      generalize ((s.perform step).2.performAll steps).2 = after at hrest
      rw [hrest, hstep, programs, programs, List.filterMap_cons]
      cases s.program? step <;> rfl

/-- What escapes from a history is that a unit could not be read, or escapes from one of
its programs. -/
theorem performAll_escape {steps : List SessionStep} {answer : Answer} {e : Escape}
    (hanswer : answer ∈ (s.performAll steps).1) (h : answer.escape? = some e) :
    (∃ halt, e = .halt halt) ∨
      ∃ finish ∈ (s.machine.runAll stepBudget (s.programs steps)).1, finish.escape? = some e := by
  induction steps generalizing s with
  | nil => cases hanswer
  | cons step steps ih =>
      have hprograms : (s.perform step).2.programs steps = s.programs steps := by
        rw [perform_session]
        rfl
      have hmachine := congrArg Session.machine (s.perform_session step)
      rw [performAll_cons] at hanswer
      rw [programs, List.filterMap_cons]
      rcases List.mem_cons.mp hanswer with rfl | hanswer
      · rcases s.perform_escape h with hhalt | ⟨p, hp, he⟩
        · exact .inl hhalt
        · rw [hp]
          exact .inr ⟨_, List.mem_cons_self, he⟩
      · rcases ih _ hanswer with hhalt | ⟨finish, hfinish, he⟩
        · exact .inl hhalt
        · refine .inr ⟨finish, ?_, he⟩
          rw [hprograms, hmachine] at hfinish
          cases hp : s.program? step with
          | none =>
              rw [hp] at hfinish
              exact hfinish
          | some p =>
              rw [hp] at hfinish
              exact List.mem_cons_of_mem _ hfinish

/-! ## Units that are not run -/

theorem executed_not_rejected (lines : List String) (typed : Bool) (program : List (Stmt Slot))
    (faults : List Diagnostic) :
    (s.executed typed program stepBudget lines).1.outcome ≠ .rejected faults := by
  rw [executed]
  generalize s.machine.interpretWith stepBudget program = finish
  obtain ⟨finish, m⟩ := finish
  cases finish <;> simp

/-- A unit is rejected exactly if reading it comes to its end and finds a fault. The
machine has no say in it. -/
theorem run_rejected_iff (source : String) (name : Option String) (typed : Bool)
    (faults : List Diagnostic) :
    (s.run source name typed).1.outcome = .rejected faults ↔
      let r := UnitReading.ofSource s.importer s.settings.errorLimit name typed source
      r.halt = none ∧ r.faults = faults ∧ faults ≠ [] := by
  rw [run_report, reading]
  simp only [respond]
  generalize UnitReading.ofSource s.importer s.settings.errorLimit name typed source = r
  cases hhalt : r.halt with
  | some halt => simp
  | none =>
      cases hfaults : r.faults with
      | nil =>
          simp only [List.isEmpty_nil, if_true]
          constructor
          · exact fun h => absurd h (s.executed_not_rejected _ _ _ _)
          · rintro ⟨_, rfl, hne⟩
            exact absurd rfl hne
      | cons f rest =>
          simp only [List.isEmpty_cons]
          constructor
          · intro h
            cases h
            exact ⟨trivial, rfl, List.cons_ne_nil _ _⟩
          · rintro ⟨_, rfl, _⟩
            rfl

theorem run_rejected {source : String} {name : Option String} {typed : Bool}
    {faults : List Diagnostic} (h : (s.run source name typed).1.outcome = .rejected faults) :
    (s.run source name typed).1.printed = [] ∧
      (s.run source name typed).2 = { s with traces := (s.run source name typed).2.traces } := by
  obtain ⟨hhalt, hfaults, hne⟩ := (s.run_rejected_iff source name typed faults).mp h
  have hfalse : (UnitReading.ofSource s.importer s.settings.errorLimit name typed
      source).faults.isEmpty = false := by
    rw [hfaults]
    exact List.isEmpty_eq_false_iff.mpr hne
  refine ⟨?_, ?_⟩
  · rw [run_report, reading]
    simp only [respond, hhalt, hfalse]
    rfl
  · have hsession := s.run_session source name typed
    rw [UnitReading.accepted?, hfalse] at hsession
    exact hsession

/-- A step that was rejected printed nothing. It left its traces in the session and changed
nothing else. -/
theorem perform_rejected {step : SessionStep} (h : (s.perform step).1.rejection?.isSome) :
    (s.perform step).1.printed = [] ∧
      (s.perform step).2 = { s with traces := (s.perform step).2.traces } := by
  have houtcome : ∀ r : UnitReport, (Answer.report r).rejection?.isSome →
      ∃ faults, r.outcome = .rejected faults := by
    intro r hr
    rw [Answer.rejection?] at hr
    split at hr
    · exact ⟨_, by assumption⟩
    · cases hr
  cases step with
  | run source name typed =>
      obtain ⟨faults, hfaults⟩ := houtcome _ h
      exact s.run_rejected hfaults
  | file path =>
      simp only [perform, runFile] at h ⊢
      cases hread : s.files.read path with
      | error fault =>
          rw [hread] at h
          cases h
      | ok source =>
          rw [hread] at h
          obtain ⟨faults, hfaults⟩ := houtcome _ h
          obtain ⟨hprinted, hsession⟩ := run_rejected _ hfaults
          refine ⟨hprinted, ?_⟩
          dsimp only at hsession ⊢
          rw [hsession]
  | needsMore text => cases h
  | inspect question => cases h

/-! ## What units leave besides the machine -/

/-- The sessions differ at most in the traces of their units. -/
structure Alike (s s' : Session) : Prop where
  settings : s'.settings = s.settings
  files : s'.files = s.files
  base : s'.base = s.base
  machine : s'.machine = s.machine

variable {s} {s' : Session}

theorem alike_of_traces {traces : Traces} (h : s' = { s with traces := traces }) :
    s.Alike s' := by
  rw [h]
  exact ⟨rfl, rfl, rfl, rfl⟩

theorem Alike.eq (h : s.Alike s') : s' = { s with traces := s'.traces } := by
  obtain ⟨settings, files, base, machine, traces⟩ := s'
  obtain ⟨rfl, rfl, rfl, rfl⟩ := h
  rfl

/-- A unit is answered the same, and does the same to the session, whatever traces others have
left in it. -/
theorem Alike.run (h : s.Alike s') (source : String) (name : Option String) (typed : Bool) :
    (s'.run source name typed).1 = (s.run source name typed).1 ∧
      (s.run source name typed).2.Alike (s'.run source name typed).2 := by
  obtain ⟨traces, rfl⟩ : ∃ traces, s' = { s with traces := traces } := ⟨_, h.eq⟩
  refine ⟨?_, ?_⟩
  · rw [run_report, run_report]
    rfl
  · rw [run_session s, run_session { s with traces := traces }]
    exact ⟨rfl, rfl, rfl, rfl⟩

theorem Alike.perform (h : s.Alike s') (step : SessionStep) :
    (s'.perform step).1 = (s.perform step).1 ∧ (s.perform step).2.Alike (s'.perform step).2 := by
  obtain ⟨traces, rfl⟩ : ∃ traces, s' = { s with traces := traces } := ⟨_, h.eq⟩
  cases step with
  | run source name typed =>
      obtain ⟨hreport, hafter⟩ := h.run source name typed
      exact ⟨congrArg Answer.report hreport, hafter⟩
  | file path =>
      simp only [Session.perform, runFile]
      cases s.files.read path with
      | error fault => exact ⟨rfl, h⟩
      | ok source =>
          have hbeside : Alike { s with base := (s.files.working.follow path).parent }
              { s with base := (s.files.working.follow path).parent, traces := traces } :=
            ⟨rfl, rfl, rfl, rfl⟩
          obtain ⟨hreport, hafter⟩ := hbeside.run source (some path) false
          exact ⟨congrArg Answer.report hreport,
            ⟨hafter.settings, hafter.files, rfl, hafter.machine⟩⟩
  | needsMore text => exact ⟨rfl, h⟩
  | inspect question => exact ⟨rfl, h⟩

theorem Alike.performAll (h : s.Alike s') (steps : List SessionStep) :
    (s'.performAll steps).1 = (s.performAll steps).1 ∧
      (s.performAll steps).2.Alike (s'.performAll steps).2 := by
  induction steps generalizing s s' with
  | nil => exact ⟨rfl, h⟩
  | cons step steps ih =>
      obtain ⟨hanswer, hafter⟩ := h.perform step
      obtain ⟨hanswers, hend⟩ := ih hafter
      exact ⟨congrArg₂ List.cons hanswer hanswers, hend⟩

/-! ## Slots of earlier units -/

variable (s)

/-- The statements of a unit as they are parsed. -/
def parsed (source : String) (name : Option String) (typed : Bool) : List (Stmt Unit) :=
  let found := scan source.toList
  let tokens := if typed then closeUnit found.tokens else found.tokens
  (parseProgram s.importer s.settings.errorLimit tokens name).program

/-- The program of a unit with the numbers that the session gives its references. -/
def numbered (source : String) (name : Option String) (typed : Bool) : List (Stmt Nat) :=
  (Stmt.numberAll (s.parsed source name typed) s.traces.slots.size).1

/-- The program of a step with the numbers that the session gives its references. -/
def numbered? : SessionStep → Option (List (Stmt Nat))
  | .run source name typed => some (s.numbered source name typed)
  | .file path =>
    match s.files.read path with
    | .error _ => none
    | .ok source =>
      let beside := { s with base := (s.files.working.follow path).parent }
      some (beside.numbered source (some path) false)
  | _ => none

/-- The programs that were run in a history are those that are read off the slots. -/
def ReadOff (steps : List SessionStep) (slots : Array Slot) : Prop :=
  ∀ before step after, steps = before ++ step :: after →
    ∀ p, (s.performAll before).2.program? step = some p →
      ∃ q, (s.performAll before).2.numbered? step = some q ∧ withSlots slots q = p

/-- What is accepted of a unit is its program as it was parsed, resolved. -/
theorem program_of_accepted {source : String} {name : Option String} {typed : Bool}
    {p : List (Stmt Slot)} (h : (s.reading source name typed).accepted? = some p) :
    (s.reading source name typed).program = p ∧
      (resolveProgram (s.parsed source name typed)).program = p := by
  have hlisted := fun tokens => parseProgram_listed s.importer s.settings.errorLimit tokens name
  rw [reading, UnitReading.ofSource, UnitReading.ofTokens] at h ⊢
  rw [parsed]
  dsimp only at h ⊢
  generalize (if typed then closeUnit (scan source.toList).tokens
    else (scan source.toList).tokens) = tokens at h ⊢
  generalize parseProgram s.importer s.settings.errorLimit tokens name = parsed at h ⊢
  cases hhalt : parsed.halt with
  | some halt =>
      rw [hhalt] at h
      simp [UnitReading.accepted?] at h
  | none =>
      rw [hhalt] at h
      dsimp only at h ⊢
      split at h
      · next hclean =>
          rw [if_pos hclean]
          simp only [UnitReading.accepted?] at h
          split at h
          · cases h
            exact ⟨rfl, rfl⟩
          · cases h
      · next hfaulty =>
          simp [UnitReading.accepted?, hfaulty] at h

/-- Whatever slots come behind them later, those of a unit that was run are there. -/
theorem run_readOff {source : String} {name : Option String} {typed : Bool} {p : List (Stmt Slot)}
    (h : (s.reading source name typed).accepted? = some p) (later : Array Slot) :
    withSlots ((s.run source name typed).2.traces.slots ++ later)
      (s.numbered source name typed) = p := by
  obtain ⟨hprogram, hresolved⟩ := s.program_of_accepted h
  rw [run_slots, hprogram, ← hresolved]
  exact withSlots_numberAll (parseProgram_listed ..) s.traces.slots later

theorem perform_readOff {step : SessionStep} {p : List (Stmt Slot)}
    (h : s.program? step = some p) : ∃ q, s.numbered? step = some q ∧
      ∀ later, withSlots ((s.perform step).2.traces.slots ++ later) q = p := by
  cases step with
  | run source name typed => exact ⟨_, rfl, s.run_readOff h⟩
  | file path =>
      simp only [program?, readingOf?, numbered?, perform, runFile] at h ⊢
      cases hread : s.files.read path with
      | error fault =>
          rw [hread] at h
          cases h
      | ok source =>
          rw [hread] at h
          let beside := { s with base := (s.files.working.follow path).parent }
          exact ⟨_, rfl, beside.run_readOff h⟩
  | needsMore text => cases h
  | inspect question => cases h

/-- The slots of a step come behind those that are kept. -/
theorem perform_slots (step : SessionStep) :
    ∃ later, (s.perform step).2.traces.slots = s.traces.slots ++ later := by
  cases step with
  | run source name typed => exact ⟨_, s.run_slots source name typed stepBudget⟩
  | file path =>
      simp only [perform, runFile]
      cases s.files.read path with
      | error fault => exact ⟨#[], Array.append_empty.symm⟩
      | ok source =>
          let beside := { s with base := (s.files.working.follow path).parent }
          exact ⟨_, beside.run_slots source (some path) false stepBudget⟩
  | needsMore text => exact ⟨#[], Array.append_empty.symm⟩
  | inspect question => exact ⟨#[], Array.append_empty.symm⟩

theorem performAll_slots (steps : List SessionStep) :
    ∃ later, (s.performAll steps).2.traces.slots = s.traces.slots ++ later := by
  induction steps generalizing s with
  | nil => exact ⟨#[], Array.append_empty.symm⟩
  | cons step steps ih =>
      obtain ⟨first, hfirst⟩ := s.perform_slots step
      obtain ⟨rest, hrest⟩ := ih (s.perform step).2
      refine ⟨first ++ rest, ?_⟩
      rw [performAll_cons, hrest, hfirst, Array.append_assoc]

/-- After a history, and with any slots behind, all of its programs are read off the slots. -/
theorem performAll_readOff (steps : List SessionStep) (later : Array Slot) :
    s.ReadOff steps ((s.performAll steps).2.traces.slots ++ later) := by
  rintro before step after rfl p hp
  obtain ⟨q, hq, hread⟩ := (s.performAll before).2.perform_readOff hp
  obtain ⟨rest, hrest⟩ := ((s.performAll before).2.perform step).2.performAll_slots after
  refine ⟨q, hq, ?_⟩
  rw [performAll_append, performAll_cons, hrest, Array.append_assoc]
  exact hread (rest ++ later)

/-- A rejected unit leaves no trace. It prints nothing and the machine after it is the
one before it, with every frame, instance and vector and the last value. Its slots come
behind those of the units before it, which are read as they were. Whatever is done later is
answered, and leaves the session but for the traces of its units, as if the unit had never
been read. -/
theorem rejected_leavesNoTrace (before after : List SessionStep) (step : SessionStep)
    (h : ((s.performAll before).2.perform step).1.rejection?.isSome) :
    let rejected := (s.performAll before).2.perform step
    let history := before ++ step :: after
    rejected.1.printed = [] ∧ rejected.2.machine = (s.performAll before).2.machine ∧
      s.ReadOff before rejected.2.traces.slots ∧
      s.ReadOff history (s.performAll history).2.traces.slots ∧
      (s.performAll history).1.eraseIdx before.length = (s.performAll (before ++ after)).1 ∧
      (s.performAll (before ++ after)).2.Alike (s.performAll history).2 := by
  intro rejected history
  obtain ⟨hprinted, hsession⟩ := perform_rejected _ h
  have halike : (s.performAll before).2.Alike rejected.2 := alike_of_traces hsession
  obtain ⟨slots, hslots⟩ := (s.performAll before).2.perform_slots step
  obtain ⟨hanswers, hend⟩ := halike.performAll after
  refine ⟨hprinted, halike.machine, ?_, ?_, ?_, ?_⟩
  · show s.ReadOff before ((s.performAll before).2.perform step).2.traces.slots
    rw [hslots]
    exact s.performAll_readOff before slots
  · have hread := s.performAll_readOff history #[]
    rwa [Array.append_empty] at hread
  · rw [performAll_append, performAll_append, performAll_cons, ← s.length_performAll before,
      List.eraseIdx_append_of_length_le (Nat.le_refl _), Nat.sub_self, List.eraseIdx_cons_zero]
    exact congrArg ((s.performAll before).1 ++ ·) hanswers
  · rw [performAll_append, performAll_append, performAll_cons]
    exact hend

/-- A unit without a value for its variable, between one that makes a function and one
that calls it. A third one is wrong only in what it returns: its distances are kept behind
those of the function. -/
theorem rejected_leavesNoTrace_missingValue :
    let s := bare {} {} ⟨[], false⟩ (fun _ => 0)
    let before := [SessionStep.run "var a = nil; fun f(b) \x7b return b; \x7d" none false]
    let step := SessionStep.run "\x7b var c; c; \x7d return a;" none true
    let after := [SessionStep.run "f(a)" none true, .inspect fun m => m.render m.lastValue]
    let history := before ++ step :: after
    (s.performAll history).2.traces.slots.toList = [some 0, some 0, none, none, none] ∧
      s.ReadOff before ((s.performAll before).2.perform step).2.traces.slots ∧
      (s.performAll history).1.eraseIdx 1 = (s.performAll (before ++ after)).1 ∧
      (s.performAll (before ++ after)).2.Alike (s.performAll history).2 := by
  intro s before step after history
  have h : ((s.performAll before).2.perform step).1.rejection?.isSome := by decide +kernel
  obtain ⟨_, _, hread, _, hanswers, halike⟩ := s.rejected_leavesNoTrace before after step h
  exact ⟨by decide +kernel, hread, hanswers, halike⟩

end Session
end Lox
