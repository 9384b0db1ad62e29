import Lox.Proofs.Context.Restoring
import Lox.Proofs.FreshSessions
import Lox.Proofs.Histories

/-!
# Sessions in their surroundings

However a unit ends, the machine is in the environment that the unit found, so from the
first unit on every unit begins in that of the globals. The vectors that the machine is in
the middle of writing are the same, too, and there are none from the first unit on. A file
is run with another place for imports, and afterwards the session has its own again.
-/

namespace Lox

open Eval

/-- However a unit ends, its environment is current again, and no vector is left that it
was writing. -/
theorem interpretWith_resumes (budget : Nat) (m : Machine) (program : List (Stmt Slot)) :
    m.fresh.Resumes (m.interpretWith budget program).2 := by
  have hunit := (restoresAll budget).execUnit program m.fresh
  rwa [Machine.interpretWith_machine]

namespace Session

/-- What a session does not change: where imports are looked for, the environment of its
machine, and the vectors that this is in the middle of writing. -/
structure SameSurroundings (s s' : Session) : Prop where
  base : s'.base = s.base
  env : s'.machine.env = s.machine.env
  writing : s'.machine.writing = s.machine.writing

/-- A session is in its old surroundings after whatever is done with it. -/
structure Restores (s : Session) : Prop where
  /-- A program that is run on the machine, whatever its budget and its end. -/
  interpret : ∀ budget program,
    (s.machine.interpretWith budget program).2.env = s.machine.env ∧
      (s.machine.interpretWith budget program).2.writing = s.machine.writing
  /-- A file that is run, whatever the end of its run. -/
  file : ∀ path report after, s.runFile path = .ok (report, after) → s.SameSurroundings after
  /-- Units, files and looks at the session, one after the other. -/
  perform : ∀ steps, s.SameSurroundings (s.performAll steps).2

variable (s : Session)

theorem SameSurroundings.refl : s.SameSurroundings s :=
  ⟨rfl, rfl, rfl⟩

variable {s} in
theorem SameSurroundings.trans {s₁ s₂ : Session} (h : s.SameSurroundings s₁)
    (h' : s₁.SameSurroundings s₂) : s.SameSurroundings s₂ :=
  ⟨h'.base.trans h.base, h'.env.trans h.env, h'.writing.trans h.writing⟩

theorem afterUnit_surroundings (m : Machine) (program : Option (List (Stmt Slot))) :
    (m.afterUnit program).env = m.env ∧ (m.afterUnit program).writing = m.writing := by
  cases program with
  | none => exact ⟨rfl, rfl⟩
  | some program =>
      obtain ⟨henv, hwriting, _⟩ := interpretWith_resumes stepBudget m program
      exact ⟨henv, hwriting⟩

theorem run_surroundings (source : String) (name : Option String) (typed : Bool) :
    s.SameSurroundings (s.run source name typed).2 := by
  rw [run_session]
  obtain ⟨henv, hwriting⟩ := afterUnit_surroundings s.machine
    (UnitReading.ofSource s.importer s.settings.errorLimit name typed source).accepted?
  exact ⟨rfl, henv, hwriting⟩

theorem runFile_surroundings {path : String} {report : UnitReport} {after : Session}
    (h : s.runFile path = .ok (report, after)) : s.SameSurroundings after := by
  rw [runFile] at h
  split at h
  · cases h
  · cases h
    obtain ⟨_, henv, hwriting⟩ := run_surroundings _ _ _ _
    exact ⟨rfl, henv, hwriting⟩

theorem perform_surroundings (step : SessionStep) : s.SameSurroundings (s.perform step).2 := by
  cases step with
  | run source name typed => exact s.run_surroundings source name typed
  | file path =>
      rw [perform]
      cases hfile : s.runFile path with
      | error fault => exact .refl s
      | ok result => exact s.runFile_surroundings hfile
  | needsMore text => exact .refl s
  | inspect question => exact .refl s

theorem performAll_surroundings (steps : List SessionStep) :
    s.SameSurroundings (s.performAll steps).2 := by
  induction steps generalizing s with
  | nil => exact .refl s
  | cons step rest ih => exact (s.perform_surroundings step).trans (ih (s.perform step).2)

/-- A session begins in the environment of the globals and in the middle of no vector, with a
prelude or without. -/
theorem start_surroundings {settings : Settings} {files : Files} {base : AbsPath}
    {readings : Nat → Float} {log : List LogEntry} {s : Session}
    (h : start settings files base readings = (log, .ok s)) :
    (bare settings files base readings).SameSurroundings s := by
  obtain hs | hs := start_eq h
  · rw [hs]
    exact .refl _
  · rw [hs]
    exact run_surroundings _ preludeSource (some preludeName) false

end Session

/-- The evaluator restores its surroundings in every step and on every way out, and a
session is in its old surroundings after every unit and every file. Those of one that was
started are its base, the globals, and no vector that is being written. Whoever writes a
value has the same vectors marked afterwards, also if he gave up. -/
theorem surroundings_restored :
    (∀ n, RestoresAll n) ∧
      (∀ s : Session, s.Restores) ∧
      (∀ settings files base readings log s,
        Session.start settings files base readings = (log, .ok s) →
          ∀ steps, (s.performAll steps).2.base = base ∧
            (s.performAll steps).2.machine.env = globalEnv ∧
            (s.performAll steps).2.machine.writing = []) ∧
      ∀ objects limit (v : Value) writing, (v.write objects limit writing).2 = writing := by
  refine ⟨restoresAll, fun s => ⟨?_, ?_, s.performAll_surroundings⟩, ?_, Value.write_set⟩
  · intro budget program
    obtain ⟨henv, hwriting, _⟩ := interpretWith_resumes budget s.machine program
    exact ⟨henv, hwriting⟩
  · exact fun path report after => s.runFile_surroundings
  · intro settings files base readings log s h steps
    obtain ⟨hbase, henv, hwriting⟩ :=
      (Session.start_surroundings h).trans (s.performAll_surroundings steps)
    exact ⟨hbase, henv, hwriting⟩

/-- An error in a block of a method ends the run of a file that lies elsewhere, which has
written a vector that holds itself. The next unit begins where the file did. -/
theorem surroundings_restored_error :
    let source := "class A \x7b m(x) \x7b x.append(x); print x; \x7b var y = nil; y(); \x7d " ++
      "\x7d \x7d A().m([nil]);"
    let files : Files := { contents := [(["code", "a.lox"], source.toUTF8.toList)] }
    let s := Session.bare { prelude := .bool false } files ⟨["home"], false⟩ (fun _ => 0)
    let steps := [SessionStep.file "/code/a.lox", .run "print A;" none false]
    (s.performAll steps).1.map Answer.printed = [["[nil, [...]]"], ["A"]] ∧
      (s.performAll steps).2.base = ⟨["home"], false⟩ ∧
      (s.performAll steps).2.machine.env = globalEnv ∧
      (s.performAll steps).2.machine.writing = [] := by
  intro source files s steps
  have hstart : Session.start { prelude := .bool false } files ⟨["home"], false⟩ (fun _ => 0) =
      ([.note (Session.installedNote NativeTable.standard)], .ok s) := rfl
  refine ⟨by decide +kernel, ?_⟩
  exact surroundings_restored.2.2.1 _ _ _ _ _ _ hstart steps

end Lox
