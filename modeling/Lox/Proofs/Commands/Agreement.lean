import Lox.Proofs.Commands.Paths
import Lox.Proofs.FreshSessions

/-!
# The commands agree

The commands that look at a file without running it read it on their own: one of them up
to its tokens, one up to its tree, one with resolution. A run reads it once more, in a
session and beside the file. All of them find the same, for the tidy form of a path leads
to the same file and to the same place for imports, and the prelude of the session leaves
no report before that of the file.

Without two slashes at the front of a path there is only one root, which `check` and `ast`
take for granted when they look for imports.
-/

namespace Lox

open Eval

/-! ## Logs -/

/-- What is seen of a log that is not traced: its texts. -/
def logTexts (log : List LogEntry) : List String :=
  log.filterMap fun
    | .text s => some s
    | .note _ => none

theorem logTexts_note (n : Note) (log : List LogEntry) :
    logTexts (.note n :: log) = logTexts log := rfl

theorem logTexts_append (log log' : List LogEntry) :
    logTexts (log ++ log') = logTexts log ++ logTexts log' :=
  List.filterMap_append

theorem logTexts_notes (notes : List Note) : logTexts (notes.map LogEntry.note) = [] := by
  induction notes with
  | nil => rfl
  | cons n notes ih => exact ih

theorem logTexts_texts {α : Type} (f : α → String) (l : List α) :
    logTexts (l.map fun a => .text (f a)) = l.map f := by
  induction l with
  | nil => rfl
  | cons a l ih => exact congrArg (f a :: ·) ih

theorem CommandResult.stderr_untraced (p : CommandResult) :
    p.stderr false = String.join (logTexts p.log) := by
  rw [CommandResult.stderr]
  induction p.log with
  | nil => rfl
  | cons e log ih =>
      rw [List.map_cons, String.join_cons, ih]
      cases e with
      | text s => exact String.join_cons.symm
      | note n => exact String.empty_append

/-- The text of a diagnostic of a source, with the line that it points at. -/
def Settings.describe (settings : Settings) (source : String) (d : Diagnostic) : String :=
  (d.locate (sourceLines source)).render settings.showSource.truthy

/-! ## Units -/

namespace Session

variable (s : Session)

/-- How a unit from a file ends, by what its reading gives. -/
inductive RunEnd (source : String) (r : UnitReading) : UnitReport → Prop
  | halted {halt : Halt} {report : UnitReport} : r.halt = some halt →
      report.outcome = .escaped (.halt halt) → RunEnd source r report
  | rejected {report : UnitReport} : r.halt = none → r.faults ≠ [] →
      report.outcome = .rejected r.faults → report.printed = [] →
      logTexts report.log = r.faults.map (fun d => s.settings.describe source d ++ "\n") →
      RunEnd source r report
  | executed {report : UnitReport} : r.halt = none → r.faults = [] →
      report.outcome = (s.machine.interpret r.program).1.outcome →
      (report.outcome = .completed → logTexts report.log = []) → RunEnd source r report

theorem run_end (source : String) (name : Option String) :
    s.RunEnd source (UnitReading.ofSource s.importer s.settings.errorLimit name false source)
      (s.run source name).1 := by
  rw [run_report, reading]
  simp only [respond]
  generalize UnitReading.ofSource s.importer s.settings.errorLimit name false source = r
  cases hhalt : r.halt with
  | some halt => exact .halted hhalt rfl
  | none =>
      cases hfaults : r.faults with
      | cons d ds =>
          refine .rejected hhalt (by simp [hfaults]) (by simp [hfaults]) rfl ?_
          simp only [List.isEmpty_cons, Bool.false_eq_true, if_false]
          rw [logTexts_append, logTexts_notes, List.nil_append, logTexts_note, hfaults]
          exact logTexts_texts _ _
      | nil =>
          simp only [List.isEmpty_nil, if_true, executed]
          generalize hfinish : s.machine.interpretWith stepBudget r.program = finish
          obtain ⟨finish, m⟩ := finish
          have houtcome : (s.machine.interpret r.program).1.outcome = finish.outcome := by
            rw [Machine.interpret, hfinish]
          cases finish with
          | completed =>
              refine .executed hhalt hfaults houtcome.symm fun _ => ?_
              rw [logTexts_append, logTexts_notes]
              rfl
          | error e => exact .executed hhalt hfaults houtcome.symm fun h => by cases h
          | fault f => exact .executed hhalt hfaults houtcome.symm fun h => by cases h
          | spent => exact .executed hhalt hfaults houtcome.symm fun h => by cases h

variable {s}

/-- A file is read as a unit, with imports beside it. -/
theorem runFile_end {s' : Session} {path : String} {report : UnitReport}
    (h : s.runFile path = .ok (report, s')) :
    ∃ text, s.files.read path = .ok text ∧
      { s with base := (s.files.working.follow path).parent }.RunEnd text
        (UnitReading.ofSource ⟨(s.files.working.follow path).parent, s.files⟩
          s.settings.errorLimit (some path) false text) report := by
  simp only [runFile] at h
  cases hread : s.files.read path with
  | error fault =>
      rw [hread] at h
      cases h
  | ok text =>
      rw [hread] at h
      cases h
      exact ⟨text, rfl, run_end _ text (some path)⟩

/-- What a unit wrote if its outcome has an exit code. -/
theorem RunEnd.exit {source : String} {r : UnitReading} {report : UnitReport} {code : ExitCode}
    (h : s.RunEnd source r report) (hcode : Command.codeOf report.outcome = .exit code) :
    r.halt = none ∧
      (r.faults = [] ∧ (code = .success ∨ code = .failure) ∨
        r.faults ≠ [] ∧ code = .badSource ∧ report.printed = [] ∧
          logTexts report.log = r.faults.map (s.settings.describe source · ++ "\n")) := by
  cases h with
  | halted _ houtcome =>
      rw [houtcome] at hcode
      cases hcode
  | rejected hhalt hfaults houtcome hprinted htexts =>
      rw [houtcome] at hcode
      exact ⟨hhalt, .inr ⟨hfaults, (Ending.exit.inj hcode).symm, hprinted, htexts⟩⟩
  | executed hhalt hfaults houtcome _ =>
      refine ⟨hhalt, .inl ⟨hfaults, ?_⟩⟩
      rw [houtcome] at hcode
      cases hfinish : (s.machine.interpret r.program).1 with
      | completed =>
          rw [hfinish] at hcode
          exact .inl (Ending.exit.inj hcode).symm
      | error e =>
          rw [hfinish] at hcode
          exact .inr (Ending.exit.inj hcode).symm
      | fault f =>
          rw [hfinish] at hcode
          cases hcode
      | spent =>
          rw [hfinish] at hcode
          cases hcode

end Session

/-! ## The prelude -/

/-- Does the statement declare a function? -/
def Stmt.isFunction {δ : Type} : Stmt δ → Bool
  | .function _ => true
  | _ => false

/-- The prelude declares a function and does nothing else. -/
theorem preludeProgram_functions : ∃ f, preludeProgram = [.function f] := by
  have hshape : (preludeProgram.length == 1 && preludeProgram.all Stmt.isFunction) = true := by
    delta preludeProgram
    decide +kernel
  rw [Bool.and_eq_true, beq_iff_eq, List.length_eq_one_iff] at hshape
  obtain ⟨⟨s, hs⟩, hall⟩ := hshape
  rw [hs, List.all_cons, List.all_nil, Bool.and_true] at hall
  cases s with
  | function f => exact ⟨f, hs⟩
  | _ => cases hall

/-- A unit that declares a function or nothing completes, if the budget suffices. -/
theorem execUnit_prelude {program : List (Stmt Slot)}
    (h : program = [] ∨ ∃ f, program = [.function f]) (n : Nat) (m : Machine) :
    (execUnit n program m).finish.1 = .completed ∨ (execUnit n program m).finish.1 = .spent := by
  match n with
  | 0 =>
      rw [execUnit]
      exact .inr rfl
  | 1 =>
      rcases h with rfl | ⟨f, rfl⟩
      · rw [execUnit]
        exact .inl rfl
      · rw [execUnit, exec]
        exact .inr rfl
  | n + 2 =>
      rcases h with rfl | ⟨f, rfl⟩
      · rw [execUnit]
        exact .inl rfl
      · rw [execUnit, exec, execUnit]
        exact .inl rfl

/-- Unless a fault is allowed, nothing is read of a source but its tokens. -/
theorem ofSource_unread {im : Importer} {limit : ErrorLimit} {name : Option String}
    {source : String} (hlimit : limit.reachedBy 0 ≠ some false)
    (hscanned : (scan source.toList).faults = [])
    (hhalt : (UnitReading.ofSource im limit name false source).halt = none) :
    (UnitReading.ofSource im limit name false source).faults = [] ∧
      (UnitReading.ofSource im limit name false source).program = [] := by
  obtain ⟨halt, heq, _⟩ := program_unread im limit hlimit
    (im.supply (scan source.toList).tokens)
    (rfl : (ParseState.ofTokens (scan source.toList).tokens).faults = [])
  have hfaults :
      (Parse.skipSemicolons (ParseState.ofTokens (scan source.toList).tokens)).faults = [] := rfl
  have hfound : (scan source.toList).diagnostics (sourceLines source) = [] :=
    List.map_eq_nil_iff.mpr hscanned
  cases halt with
  | none =>
      simp [UnitReading.ofSource, UnitReading.ofTokens, parseProgram, heq, hfound, ParseState.note,
        ParseResult.diagnostics, ParseResult.faults, hfaults, resolveProgram, Stmt.resolveAll,
        Resolution.diagnostics, Stmt.scopeFaultsAll]
  | some halt =>
      simp [UnitReading.ofSource, UnitReading.ofTokens, parseProgram, heq] at hhalt

/-- Nothing is wrong with the prelude, and what is read of it is its function or nothing. -/
theorem prelude_reading {im : Importer} {limit : ErrorLimit}
    (hhalt : (UnitReading.ofSource im limit (some preludeName) false preludeSource).halt = none) :
    let r := UnitReading.ofSource im limit (some preludeName) false preludeSource
    r.faults = [] ∧ (r.program = [] ∨ ∃ f, r.program = [.function f]) := by
  by_cases hlimit : limit.reachedBy 0 = some false
  · obtain ⟨f, hf⟩ := preludeProgram_functions
    have haccepted := (accepted?_eq_some im limit (some preludeName) importFree_prelude
      hlimit).mpr ⟨_, readsAs_prelude, rfl⟩
    rw [UnitReading.accepted?] at haccepted
    split at haccepted
    · next hclean =>
        rw [Bool.and_eq_true, List.isEmpty_iff] at hclean
        rw [hf, Stmt.resolveAll, Stmt.resolveAll, Stmt.resolve] at haccepted
        exact ⟨hclean.1, .inr ⟨_, Option.some.inj haccepted⟩⟩
    · cases haccepted
  · have hread := ofSource_unread hlimit readsAs_prelude.scanned hhalt
    exact ⟨hread.1, .inl hread.2⟩

/-- The prelude leaves no report. -/
theorem Session.run_prelude_texts (s : Session)
    (h : ∀ e, (s.run preludeSource (some preludeName)).1.outcome ≠ .escaped e) :
    logTexts (s.run preludeSource (some preludeName)).1.log = [] := by
  have hend := s.run_end preludeSource (some preludeName)
  have hread := @prelude_reading s.importer s.settings.errorLimit
  generalize (s.run preludeSource (some preludeName)).1 = report at h hend
  cases hend with
  | halted _ houtcome => exact absurd houtcome (h _)
  | rejected hhalt hfaults _ _ _ => exact absurd (hread hhalt).1 hfaults
  | executed hhalt _ houtcome htexts =>
      have hcompleted := execUnit_prelude (hread hhalt).2 stepBudget s.machine.fresh
      rw [Machine.interpret, Machine.interpretWith_eq] at houtcome
      rcases hcompleted with hcompleted | hspent
      · rw [hcompleted] at houtcome
        exact htexts houtcome
      · rw [hspent] at houtcome
        exact absurd houtcome (h _)

/-- A session that was started has its settings and files, and no report was written. -/
theorem Session.start_texts {settings : Settings} {files : Files} {base : AbsPath}
    {readings : Nat → Float} {log : List LogEntry} {s : Session}
    (h : start settings files base readings = (log, .ok s)) :
    logTexts log = [] ∧ s.settings = settings ∧ s.files = files := by
  have hsession := start_eq h
  have htexts := (bare settings files base readings).run_prelude_texts
  refine ⟨?_, ?_⟩
  · rw [start] at h
    split at h
    · generalize (bare settings files base readings).run preludeSource (some preludeName) = r
        at h htexts
      obtain ⟨report, s'⟩ := r
      dsimp only at h htexts
      split at h
      · cases h
      · next hends =>
          cases h
          rw [logTexts_append, logTexts_note, htexts fun e he => hends e he]
          rfl
    · cases h
      rfl
  · rcases hsession with hs | hs
    · rw [hs]
      exact ⟨rfl, rfl⟩
    · rw [hs, run_session]
      exact ⟨rfl, rfl⟩

/-! ## Commands -/

namespace Command

variable (here : Circumstances) (settings : Settings) (file : String)

/-- What the commands read of the text of a file. -/
def reading (text : String) : UnitReading :=
  UnitReading.ofSource (importerFor here.files file) settings.errorLimit (some file) false text

/-- The commands agree on a file. -/
structure Agree : Prop where
  /-- `check` and `run` end with the same code, but for errors of a run without faults. -/
  codes : ∀ c r, (check here settings file).ending = .exit c →
    (run here settings file).ending = .exit r →
      (c = .noInput ↔ r = .noInput) ∧ (c = .badSource ↔ r = .badSource) ∧
        (c = .success ↔ r = .success ∨ r = .failure)
  /-- They report the same faults in the same words; `check` sets them apart with blank
  lines and adds their number. -/
  reports : ∀ r, (check here settings file).ending = .exit .badSource →
    (run here settings file).ending = .exit r →
      ∃ text, here.files.read file = .ok text ∧
        let described := (reading here settings file text).faults.map (settings.describe text)
        (run here settings file).stdout = "" ∧ (check here settings file).stdout = "" ∧
        (run here settings file).stderr false = String.join (described.map (· ++ "\n")) ∧
        (check here settings file).stderr false =
          String.intercalate "\n\n"
            (described ++ [toString described.length ++ " error(s)"]) ++ "\n"
  /-- What is wrong with the tokens is wrong with the tree. -/
  tokens : (tokens here settings file).ending = .exit .badSource →
    (ast here settings file false).ending = .exit .badSource
  /-- What is wrong with the tree is wrong with the program. -/
  ast : (ast here settings file false).ending = .exit .badSource →
    ∀ c, (check here settings file).ending = .exit c → c = .badSource

variable {here settings file}

/-- A file is looked up under the tidy form of its path. If there is none, a command ends
with the code for it, and if it cannot be decoded with no code. -/
theorem source_cases :
    (∃ text, source here.files file = .ok text ∧ here.files.read (tidyPath file) = .ok text) ∨
      ∃ p, source here.files file = .error p ∧ ∀ c, p.ending = .exit c → c = .noInput := by
  rw [source]
  cases here.files.read (tidyPath file) with
  | ok text => exact .inl ⟨text, rfl, rfl⟩
  | error fault =>
      cases fault with
      | unopened fault => exact .inr ⟨_, rfl, fun c hc => (Ending.exit.inj hc).symm⟩
      | encoding e => exact .inr ⟨_, rfl, fun c hc => by cases hc⟩

/-- Without a source the commands do the same. -/
theorem agree_of_source_error {p : CommandResult} (h : source here.files file = .error p)
    (hp : ∀ c, p.ending = .exit c → c = .noInput) : Agree here settings file := by
  have hsame : run here settings file = p ∧ check here settings file = p ∧
      ast here settings file false = p ∧ tokens here settings file = p := by
    simp [run, check, ast, tokens, h]
  obtain ⟨hrun, hcheck, hast, htokens⟩ := hsame
  have hbad : p.ending ≠ .exit .badSource := fun hc => by cases hp _ hc
  refine ⟨fun c r hc hr => ?_, fun r hc _ => ?_, fun ht => ?_, fun ha => ?_⟩
  · rw [hcheck] at hc
    rw [hrun] at hr
    rw [hp c hc, hp r hr]
    simp
  · exact absurd (hcheck ▸ hc) hbad
  · exact absurd (htokens ▸ ht) hbad
  · exact absurd (hast ▸ ha) hbad

section

variable {text : String}

/-- A run of a file ends as its reading says, which is the reading of the other
commands. -/
theorem run_end (hworking : here.files.working.doubled = false)
    (hfile : isDoubleRooted file = false) (hsource : source here.files file = .ok text)
    (htidy : here.files.read (tidyPath file) = .ok text) {r : ExitCode}
    (hr : (run here settings file).ending = .exit r) :
    here.files.read file = .ok text ∧ (reading here settings file text).halt = none ∧
      ((reading here settings file text).faults = [] ∧ (r = .success ∨ r = .failure) ∨
        (reading here settings file text).faults ≠ [] ∧ r = .badSource ∧
          (run here settings file).out = [] ∧
          logTexts (run here settings file).log =
            (reading here settings file text).faults.map (settings.describe text · ++ "\n")) := by
  simp only [run, hsource] at hr ⊢
  cases hstart : Session.start settings here.files here.files.working here.readings with
  | mk log started =>
      rw [hstart] at hr
      cases started with
      | error e => cases hr
      | ok s =>
          obtain ⟨hlog, rfl, hfiles⟩ := Session.start_texts hstart
          dsimp only at hr ⊢
          rcases hrun : s.runFile file with fault | ⟨report, s'⟩
          · rw [hrun] at hr
            cases hr
          · rw [hrun] at hr
            dsimp only at hr ⊢
            obtain ⟨text', hread, hend⟩ := Session.runFile_end hrun
            rw [hfiles] at hread hend
            obtain rfl := Files.read_tidyPath hread htidy
            have hreading : UnitReading.ofSource ⟨(here.files.working.follow file).parent,
                here.files⟩ s.settings.errorLimit (some file) false text' =
                  reading here s.settings file text' := by
              rw [reading, importerFor, follow_tidyPath hworking hfile]
            rw [hreading] at hend
            obtain ⟨hhalt, hclean | ⟨hfaults, hcode, hprinted, htexts⟩⟩ := hend.exit hr
            · exact ⟨hread, hhalt, .inl hclean⟩
            · refine ⟨hread, hhalt, .inr ⟨hfaults, hcode, ?_, ?_⟩⟩
              · rw [hprinted]
                rfl
              · rw [logTexts_append, hlog, htexts]
                rfl

/-- So does the check. -/
theorem check_end (hsource : source here.files file = .ok text) {c : ExitCode}
    (hc : (check here settings file).ending = .exit c) :
    (reading here settings file text).halt = none ∧
      ((reading here settings file text).faults = [] ∧ c = .success ∨
        (reading here settings file text).faults ≠ [] ∧ c = .badSource ∧
          (check here settings file).out = [] ∧
          logTexts (check here settings file).log =
            [Diagnostic.renderAll ((reading here settings file text).faults.map
              (·.locate (sourceLines text))) settings.showSource.truthy ++ "\n"]) := by
  have hreading : UnitReading.ofSource (importerFor here.files file) settings.errorLimit
      (some file) false text = reading here settings file text := rfl
  simp only [check, hsource, hreading] at hc ⊢
  generalize reading here settings file text = reading at hc ⊢
  cases hhalt : reading.halt with
  | some halt =>
      rw [hhalt] at hc
      cases hc
  | none =>
      rw [hhalt] at hc
      refine ⟨rfl, ?_⟩
      cases hfaults : reading.faults with
      | nil =>
          rw [hfaults] at hc
          exact .inl ⟨rfl, (Ending.exit.inj hc).symm⟩
      | cons d ds =>
          rw [hfaults] at hc
          refine .inr ⟨List.cons_ne_nil d ds, (Ending.exit.inj hc).symm, rfl, ?_⟩
          show logTexts (reading.notes.map LogEntry.note ++ _) = _
          rw [logTexts_append, logTexts_notes]
          rfl

/-- The texts of several diagnostics, and how many there are. -/
theorem renderAll_located {ds : List Diagnostic} (h : ds ≠ []) :
    Diagnostic.renderAll (ds.map (·.locate (sourceLines text))) settings.showSource.truthy =
      String.intercalate "\n\n" (ds.map (settings.describe text) ++
        [toString (ds.map (settings.describe text)).length ++ " error(s)"]) := by
  have hne : (ds.map (·.locate (sourceLines text))).isEmpty = false := by
    simpa using h
  rw [Diagnostic.renderAll]
  simp only [hne, Bool.false_eq_true, if_false, List.map_map, List.length_map]
  rfl

/-- Faults of the tokens and of the tree are among those that the reading finds. -/
theorem faults_ne_nil
    (h : (scan text.toList).diagnostics (sourceLines text) ≠ [] ∨
      (parseProgram (importerFor here.files file) settings.errorLimit (scan text.toList).tokens
        (some file)).diagnostics ≠ []) :
    (reading here settings file text).faults ≠ [] := by
  simp only [reading, UnitReading.ofSource, UnitReading.ofTokens, Bool.false_eq_true, if_false]
  generalize (scan text.toList).diagnostics (sourceLines text) = found at h ⊢
  generalize parseProgram (importerFor here.files file) settings.errorLimit
    (scan text.toList).tokens (some file) = parsed at h ⊢
  have hfaults : found ++ parsed.diagnostics ≠ [] := by
    rcases h with h | h <;> simp [h]
  cases hparsed : parsed.halt with
  | some halt => simpa [hparsed] using hfaults
  | none =>
      rw [← List.isEmpty_eq_false_iff] at hfaults
      simpa [hparsed, hfaults] using List.isEmpty_eq_false_iff.mp hfaults

theorem ast_badSource (hsource : source here.files file = .ok text)
    (h : (ast here settings file false).ending = .exit .badSource) :
    (scan text.toList).diagnostics (sourceLines text) ≠ [] ∨
      (parseProgram (importerFor here.files file) settings.errorLimit (scan text.toList).tokens
        (some file)).diagnostics ≠ [] := by
  simp only [ast, hsource] at h
  cases hfound : (scan text.toList).diagnostics (sourceLines text) with
  | cons d ds => exact .inl (List.cons_ne_nil d ds)
  | nil =>
      rw [hfound] at h
      simp only [Bool.false_eq_true, if_false] at h
      split at h
      · cases h
      · refine .inr fun hnone => ?_
        rw [hnone] at h
        cases h

theorem codes_agree (hworking : here.files.working.doubled = false)
    (hfile : isDoubleRooted file = false) (hsource : source here.files file = .ok text)
    (htidy : here.files.read (tidyPath file) = .ok text) {c r : ExitCode}
    (hc : (check here settings file).ending = .exit c)
    (hr : (run here settings file).ending = .exit r) :
    (c = .noInput ↔ r = .noInput) ∧ (c = .badSource ↔ r = .badSource) ∧
      (c = .success ↔ r = .success ∨ r = .failure) := by
  obtain ⟨_, hcheck⟩ := check_end hsource hc
  obtain ⟨_, _, hrun⟩ := run_end hworking hfile hsource htidy hr
  rcases hcheck with ⟨hnone, rfl⟩ | ⟨hsome, rfl, _⟩
  · rcases hrun with ⟨_, rfl | rfl⟩ | ⟨hsome, _⟩
    · simp
    · simp
    · exact absurd hnone hsome
  · rcases hrun with ⟨hnone, _⟩ | ⟨_, rfl, _⟩
    · exact absurd hnone hsome
    · simp

theorem reports_agree (hworking : here.files.working.doubled = false)
    (hfile : isDoubleRooted file = false) (hsource : source here.files file = .ok text)
    (htidy : here.files.read (tidyPath file) = .ok text) {r : ExitCode}
    (hc : (check here settings file).ending = .exit .badSource)
    (hr : (run here settings file).ending = .exit r) :
    ∃ text, here.files.read file = .ok text ∧
      let described := (reading here settings file text).faults.map (settings.describe text)
      (run here settings file).stdout = "" ∧ (check here settings file).stdout = "" ∧
      (run here settings file).stderr false = String.join (described.map (· ++ "\n")) ∧
      (check here settings file).stderr false =
        String.intercalate "\n\n"
          (described ++ [toString described.length ++ " error(s)"]) ++ "\n" := by
  obtain ⟨_, hcheck⟩ := check_end hsource hc
  obtain ⟨hread, _, hrun⟩ := run_end hworking hfile hsource htidy hr
  rcases hcheck with ⟨_, hcode⟩ | ⟨hfaults, _, hout, htexts⟩
  · cases hcode
  · rcases hrun with ⟨hnone, _⟩ | ⟨_, _, hout', htexts'⟩
    · exact absurd hnone hfaults
    · refine ⟨text, hread, ?_, ?_, ?_, ?_⟩
      · rw [CommandResult.stdout, hout']
        rfl
      · rw [CommandResult.stdout, hout]
        rfl
      · rw [CommandResult.stderr_untraced, htexts', List.map_map]
        rfl
      · rw [CommandResult.stderr_untraced, htexts, renderAll_located hfaults]
        rw [String.join_cons, String.join_nil, String.append_empty]

theorem ast_badSource_of_tokens (hsource : source here.files file = .ok text)
    (h : (tokens here settings file).ending = .exit .badSource) :
    (ast here settings file false).ending = .exit .badSource := by
  simp only [tokens, ast, hsource] at h ⊢
  cases hfound : (scan text.toList).diagnostics (sourceLines text) with
  | nil =>
      rw [hfound] at h
      cases h
  | cons d ds => rfl

theorem check_badSource_of_ast (hsource : source here.files file = .ok text)
    (h : (ast here settings file false).ending = .exit .badSource) {c : ExitCode}
    (hc : (check here settings file).ending = .exit c) : c = .badSource := by
  obtain ⟨_, hcheck⟩ := check_end hsource hc
  have hfaults := faults_ne_nil (ast_badSource hsource h)
  rcases hcheck with ⟨hnone, _⟩ | ⟨_, hcode, _⟩
  · exact absurd hnone hfaults
  · exact hcode

end

end Command

/-- The commands agree. Under a path without two slashes at its front, `check`, `ast` and
`tokens` find wrong with a file what a run of it finds, and report it in the same words. The
working directory is the path of a directory as the system names it, with one slash at its
front; so a file is below the root with two slashes only if its own path says so. -/
theorem commands_agree (here : Circumstances) (settings : Settings) (file : String)
    (hworking : here.files.working.doubled = false) (hfile : isDoubleRooted file = false) :
    Command.Agree here settings file := by
  rcases @Command.source_cases here file with ⟨text, hsource, htidy⟩ | ⟨p, hsource, hp⟩
  · exact ⟨fun _ _ => Command.codes_agree hworking hfile hsource htidy,
      fun _ => Command.reports_agree hworking hfile hsource htidy,
      Command.ast_badSource_of_tokens hsource,
      fun hast _ => Command.check_badSource_of_ast hsource hast⟩
  · exact Command.agree_of_source_error hsource hp

/-- A file with an import that cannot be read, beside one that can, under a path with a
detour. -/
theorem commands_agree_import :
    let texts : List (List String × String) :=
      [(["home", "a.lox"], "import \"b.lox\"; import \"c.lox\"; print this;"),
        (["home", "b.lox"], "var b = ; \x7b var c; var c; \x7d")]
    let here : Circumstances :=
      { files := { working := ⟨["home"], false⟩
                   contents := texts.map fun (names, text) => (names, text.toUTF8.toList) }
        documents := fun _ => .ok .null
        readings := fun _ => 0 }
    let file := ".//../home/a.lox"
    (Command.check here {} file).ending = .exit .badSource ∧
      Command.Agree here {} file := by
  intro texts here file
  have hending : ((Command.check here {} file).ending matches .exit .badSource) = true := by
    decide +kernel
  refine ⟨?_, commands_agree here {} file rfl (by decide)⟩
  split at hending
  · next h => exact h
  · cases hending

end Lox
