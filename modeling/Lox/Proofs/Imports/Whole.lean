import Lox.Proofs.Imports.Expansion
import Lox.Proofs.Imports.Progress
import Lox.Proofs.Joining.Units

/-!
# Units that complete were read to their end

The limit of faults is asked for between the rounds of a parse and nowhere else. A round that
has begun goes on to its end, with every fault in the blocks, bodies and arguments that it
reads, or in the file that it imports. So a parse can find more faults than its limit, but all
of the excess is of one round: the one in which the limit was reached, which is the last.

A parse is over at the end of its tokens or at its limit of faults. If the limit lets any fault
through, a parse that found none is over at the end. So a unit that completes was read as a
whole, the files it imports included, and all that was read of it was run, one declaration
after the other.

A limit of zero or less is reached before the first token. Under such a limit nothing is read
of a unit, and it completes all the same.
-/

namespace Lox

open ParseState Parse

/-! ## What the limit of faults bounds -/

/-- How the faults of a parse from `start` compare with a limit of `n`. -/
inductive ParseResult.Limited (im : Importer) (n : Int) (start : ParseState) (r : ParseResult) :
    Prop
  | below : r.faults.length < n → Limited im n start r
  /-- There were fewer before the last round, which is the one from `s` to `s'`. After it
  nothing but semicolons was taken. -/
  | reached {seen seen' : List AbsPath} {s s' : ParseState} :
      Rounds im (.count n) start seen s → Next im (.count n) (seen, s) (seen', s') →
      s.faults.length < n → n ≤ s'.faults.length →
      r.faults = s'.faults → r.state.ahead = (skipSemicolons s').ahead → Limited im n start r

namespace Parse

variable {im : Importer} {n : Int} {seen seen' : List AbsPath} {start s s' : ParseState}

theorem reachedBy_count_eq_true {faults : Nat} :
    (ErrorLimit.count n).reachedBy faults = some true ↔ n ≤ faults := by
  simp [ErrorLimit.reachedBy]

theorem reachedBy_count_eq_false {faults : Nat} :
    (ErrorLimit.count n).reachedBy faults = some false ↔ faults < n := by
  simp [ErrorLimit.reachedBy]

/-- A parse that has reached its limit takes semicolons and nothing else. -/
theorem program_of_reached {limit : ErrorLimit}
    (h : limit.reachedBy s.faults.length = some true) (budget : Nat) :
    program im limit (budget + 1) seen s = ⟨[], seen, skipSemicolons s, none⟩ := by
  have h' : limit.reachedBy (skipSemicolons s).faults.length = some true := h
  cases ha : (skipSemicolons s).ahead with
  | nil => simp only [program, ha]
  | cons t rest => simp only [program, ha, h']

/-- From a round below the limit on, a parse finds fewer faults than the limit or reaches it in
its last round. -/
theorem program_limited (budget : Nat) (hrounds : Rounds im (.count n) start seen s)
    (hs : s.Ended) (hbudget : unreadAt im seen s < budget) (hbelow : s.faults.length < n) :
    (program im (.count n) budget seen s).Limited im n start := by
  induction budget generalizing seen s with
  | zero => omega
  | succ budget ih =>
      rcases program_ends_or_next im (.count n) seen hs with
        ⟨r, _, _, hfaults, heq⟩ | ⟨seen', s', hnext⟩
      · rw [heq budget]
        exact .below (hfaults ▸ hbelow)
      · have hstate := (hnext.program_eq budget).1
        have hadvances := hnext.advances hs
        have hless := hadvances.less
        have hrounds' : Rounds im (.count n) start seen' s' := .tail hrounds hnext
        by_cases hbelow' : (s'.faults.length : Int) < n
        · have hlimited := ih hrounds' hadvances.ended (by omega) hbelow'
          cases hlimited with
          | below h => exact .below (by rwa [ParseResult.faults, hstate])
          | reached hr hn hb hreached hfaults hahead =>
              exact .reached hr hn hb hreached ((congrArg ParseState.faults hstate).trans hfaults)
                ((congrArg ParseState.ahead hstate).trans hahead)
        · -- The budget was enough for one round more.
          obtain ⟨budget, rfl⟩ : ∃ k, budget = k + 1 := ⟨budget - 1, by omega⟩
          have hreached := Int.not_lt.mp hbelow'
          rw [program_of_reached (reachedBy_count_eq_true.mpr hreached)] at hstate
          exact .reached hrounds hnext hbelow hreached (by rw [ParseResult.faults, hstate]; rfl)
            (by rw [hstate])

end Parse

theorem ParseResult.Limited.of_state {im : Importer} {n : Int} {start : ParseState}
    {r r' : ParseResult} (h : r.Limited im n start) (hfaults : r'.faults = r.faults)
    (hahead : r'.state.ahead = r.state.ahead) : r'.Limited im n start := by
  cases h with
  | below h => exact .below (hfaults ▸ h)
  | reached hr hn hb hreached hf ha =>
      exact .reached hr hn hb hreached (hfaults.trans hf) (hahead.trans ha)

/-- If no round finds more than `k` faults, the limit is exceeded by less than `k`. -/
theorem ParseResult.Limited.length_lt {im : Importer} {n : Int} {start : ParseState}
    {r : ParseResult} (h : r.Limited im n start) (k : Nat)
    (hrounds : ∀ seen s seen' s', Rounds im (.count n) start seen s →
      Next im (.count n) (seen, s) (seen', s') → s'.faults.length ≤ s.faults.length + k) :
    r.faults.length < n + k := by
  cases h with
  | below h => omega
  | reached hr hn hbelow _ hfaults _ =>
      have hround := hrounds _ _ _ _ hr hn
      rw [hfaults]
      omega

/-- A limit of at least one bounds the faults of a parse up to its last round: there are fewer
faults than the limit, or there were fewer before that round began, and nothing is read after
it. So a parse of rounds that find at most one fault each finds at most as many as its limit,
and in general the excess is what one round can find. -/
theorem parseProgram_limited (im : Importer) (tokens : List Token) (name : Option String) {n : Int}
    (hn : 1 ≤ n) :
    (parseProgram im (.count n) tokens name).Limited im n (ofTokens tokens) ∧
      ∀ k : Nat,
        (∀ seen s seen' s', Rounds im (.count n) (ofTokens tokens) seen s →
          Next im (.count n) (seen, s) (seen', s') → s'.faults.length ≤ s.faults.length + k) →
        (parseProgram im (.count n) tokens name).faults.length < n + k := by
  have hfirst : (ofTokens tokens).faults.length < n := by
    rw [show (ofTokens tokens).faults = [] from rfl, List.length_nil]
    omega
  have hprogram := program_limited (im.supply tokens + 1) .refl (ended_ofTokens tokens)
    (unreadAt_ofTokens_lt im tokens) hfirst
  obtain ⟨notes, hstate, _⟩ := parseProgram_state im (.count n) tokens name
  have hlimited : (parseProgram im (.count n) tokens name).Limited im n (ofTokens tokens) :=
    hprogram.of_state (by rw [ParseResult.faults, hstate]; rfl) (by rw [hstate])
  exact ⟨hlimited, fun k hrounds => hlimited.length_lt k hrounds⟩

/-- A block with two faults in it, read under a limit of one. -/
theorem parseProgram_limited_block :
    let im : Importer := ⟨⟨[], false⟩, { contents := [] }⟩
    let tokens := (scan "\x7b ) ; ) ; \x7d )".toList).tokens
    (1 : Int) ≤ 1 ∧ (parseProgram im (.count 1) tokens).faults.length = 2 ∧
      (parseProgram im (.count 1) tokens).Limited im 1 (ofTokens tokens) ∧
      ∀ k : Nat,
        (∀ seen s seen' s', Rounds im (.count 1) (ofTokens tokens) seen s →
          Next im (.count 1) (seen, s) (seen', s') → s'.faults.length ≤ s.faults.length + k) →
        (parseProgram im (.count 1) tokens).faults.length < (1 : Int) + k := by
  intro im tokens
  have hlength : (parseProgram im (.count 1) tokens).faults.length = 2 := by decide +kernel
  exact ⟨Int.le_refl 1, hlength, parseProgram_limited im tokens none (Int.le_refl 1)⟩

/-! ## What completes -/

open Grammar

/-- A parse has read all of its tokens, with those of its files in place of the imports. -/
structure ParseResult.ReadsWhole (im : Importer) (tokens : List Token) (r : ParseResult) :
    Prop where
  ahead : r.state.ahead = []
  reads : ∃ out, Expands im [] (tokens.takeWhile (·.kind != .eof)) out r.imported ∧
    ∀ eof : Token, eof.kind = .eof → Program .nearest (out ++ [eof]) r.program

/-- Statements run to their ends, one after the other. -/
inductive Executes : List (Stmt Slot) → Machine → Machine → Prop
  | nil (m : Machine) : Executes [] m m
  | cons {budget : Nat} {stmt : Stmt Slot} {rest : List (Stmt Slot)} {completion : Completion}
      {m m₁ m₂ : Machine} :
      Eval.exec budget stmt m = .ok completion m₁ → Executes rest m₁ m₂ →
      Executes (stmt :: rest) m m₂

/-- The tokens of a unit. -/
def unitTokens (typed : Bool) (source : String) : List Token :=
  if typed then closeUnit (scan source.toList).tokens else (scan source.toList).tokens

/-- A unit was scanned without a fault and read as a whole, and after its last statement the
machine is `m`. -/
structure Session.RunsWhole (s : Session) (source : String) (name : Option String) (typed : Bool)
    (m : Machine) : Prop where
  scanned : (scan source.toList).faults = []
  reads : (parseProgram s.importer s.settings.errorLimit (unitTokens typed source) name).ReadsWhole
    s.importer (unitTokens typed source)
  executes :
    let parsed := parseProgram s.importer s.settings.errorLimit (unitTokens typed source) name
    Executes (resolveProgram parsed.program).program s.machine.fresh m

/-! ## Parses -/

section

variable {im : Importer} {limit : ErrorLimit} {tokens : List Token} {name : Option String}

/-- No parse leaves tokens unread without a fault, if the limit lets a fault through. -/
theorem parseProgram_ahead (hlimit : limit.reachedBy 0 = some false)
    (hhalt : (parseProgram im limit tokens name).halt = none)
    (hfaults : (parseProgram im limit tokens name).faults = []) :
    (parseProgram im limit tokens name).state.ahead = [] := by
  have hended := program_ended limit _ (ended_ofTokens tokens) (unreadAt_ofTokens_lt im tokens)
  obtain ⟨notes, hstate, _⟩ := parseProgram_state im limit tokens name
  cases parseProgram_ends im limit tokens name with
  | garbled hh => simp [hhalt] at hh
  | stops hstops =>
      cases hstops with
      | unordered hh | pathNotText hh => simp [hhalt] at hh
      | atLimit _ hreached => simp [hfaults, hlimit] at hreached
      | atEnd _ hk =>
          rw [hstate] at hk ⊢
          exact hended.current_kind.mp hk

theorem parseProgram_readsWhole (hlimit : limit.reachedBy 0 = some false)
    (hhalt : (parseProgram im limit tokens name).halt = none)
    (hfaults : (parseProgram im limit tokens name).faults = []) :
    (parseProgram im limit tokens name).ReadsWhole im tokens := by
  refine ⟨parseProgram_ahead hlimit hhalt hfaults, ?_⟩
  obtain ⟨_, _, hsame⟩ := parseProgram_state im limit tokens name
  generalize hr : program im limit (im.supply tokens + 1) [] (ofTokens tokens) = r at hsame
  have hhalt' : r.halt = none := hsame.symm.trans hhalt
  obtain ⟨_, hprogram, hfaults', _⟩ := parseProgram_of_halt_none name hr hhalt'
  have himported : (parseProgram im limit tokens name).imported = r.imported := by
    simp only [parseProgram, hr, hhalt']
  rw [hfaults'] at hfaults
  have hreads : ∀ eof : Token, eof.kind = .eof →
      ∃ out, ReadsExpansion im [] (ofTokens tokens) eof r out := fun eof hk => by
    subst hr
    exact program_expands hlimit hk _ (ofTokens_finish tokens) hhalt' hfaults
  obtain ⟨out, hexpands, _⟩ := hreads _ (ofTokens_finish tokens)
  rw [hprogram, himported]
  refine ⟨out, hexpands, fun eof hk => ?_⟩
  obtain ⟨out', hexpands', hderives⟩ := hreads eof hk
  obtain ⟨rfl, _⟩ := hexpands.unique hexpands'
  exact hderives

/-! ## Runs -/

/-- The program of an accepted unit is what the parse of its tokens gave. -/
theorem UnitReading.of_accepted? {typed : Bool} {source : String} {program : List (Stmt Slot)}
    (h : (ofSource im limit name typed source).accepted? = some program) :
    let parsed := parseProgram im limit (unitTokens typed source) name
    (scan source.toList).faults = [] ∧ parsed.halt = none ∧ parsed.faults = [] ∧
      (resolveProgram parsed.program).program = program := by
  have htokens : (if typed then closeUnit (scan source.toList).tokens
      else (scan source.toList).tokens) = unitTokens typed source := rfl
  simp only [ofSource, ofTokens, accepted?, htokens] at h ⊢
  generalize parseProgram im limit (unitTokens typed source) name = parsed at h ⊢
  cases hhalt : parsed.halt with
  | some halt => simp [hhalt] at h
  | none =>
      rw [hhalt] at h
      cases hempty : ((scan source.toList).diagnostics (sourceLines source) ++
          parsed.diagnostics).isEmpty with
      | false => simp [hempty] at h
      | true =>
          obtain ⟨hscanned, hparsed⟩ := List.append_eq_nil_iff.mp (List.isEmpty_iff.mp hempty)
          simp only [hempty, if_true] at h
          split at h
          · cases h
            exact ⟨List.map_eq_nil_iff.mp hscanned, rfl, List.map_eq_nil_iff.mp hparsed, rfl⟩
          · cases h

end

theorem executes_of_execUnit {n : Nat} {program : List (Stmt Slot)} {m m' : Machine}
    (h : Eval.execUnit n program m = .ok () m') : Executes program m m' := by
  induction program generalizing n m with
  | nil =>
      cases n with
      | zero => cases h
      | succ n =>
          rw [Eval.execUnit] at h
          cases h
          exact .nil m'
  | cons stmt rest ih =>
      cases n with
      | zero => cases h
      | succ n =>
          rw [Eval.execUnit, Eval.bind_apply] at h
          cases hstmt : Eval.exec n stmt m with
          | ok completion m₁ =>
              rw [hstmt] at h
              exact .cons hstmt (ih h)
          | abort reason m₁ =>
              rw [hstmt] at h
              cases h

/-- A program that completes has run all of its statements. -/
theorem Machine.executes_of_completed {m : Machine} {program : List (Stmt Slot)}
    (h : (m.interpret program).1 = .completed) :
    Executes program m.fresh (m.interpret program).2 := by
  obtain ⟨n, hn⟩ := m.interpret_eq program
  rw [hn] at h ⊢
  cases hrun : Eval.execUnit n program m.fresh with
  | ok _ m' => exact executes_of_execUnit hrun
  | abort reason m' =>
      rw [hrun] at h
      cases reason <;> cases h

namespace Session

/-- Under a limit of at least one, a parse leaves no token unread without a fault, and a unit
that completes has been read and run as a whole: each of its tokens and those of the files it
imports was read, and each declaration was run. A limit of zero or less stops every parse before
the first token and without a fault, so that any source that can be scanned completes, and
nothing of it is run. -/
theorem completed_runsWhole {s : Session} {n : Int} (hlimit : s.settings.maxErrors = .int n)
    (source : String) (name : Option String) (typed : Bool) :
    (1 ≤ n →
      (∀ tokens,
        let parsed := parseProgram s.importer s.settings.errorLimit tokens name
        parsed.halt = none → parsed.faults = [] → parsed.state.ahead = []) ∧
      ((s.run source name typed).1.outcome = .completed →
        s.RunsWhole source name typed (s.run source name typed).2.machine)) ∧
    (n ≤ 0 → (scan source.toList).faults = [] →
      (s.run source name typed).1.outcome = .completed ∧
        (s.run source name typed).2.machine = s.machine.fresh) := by
  have hcount : s.settings.errorLimit = .count n := by rw [Settings.errorLimit, hlimit]
  refine ⟨fun hpos => ?_, fun hstop hscanned => ?_⟩
  · have hopen : s.settings.errorLimit.reachedBy 0 = some false := by
      rw [hcount]
      exact reachedBy_count_eq_false.mpr (by omega)
    refine ⟨fun tokens hhalt hfaults => parseProgram_ahead hopen hhalt hfaults, fun h => ?_⟩
    obtain ⟨program, haccepted⟩ := s.accepted_of_completed h
    obtain ⟨hscanned, hhalt, hfaults, hprogram⟩ := UnitReading.of_accepted? haccepted
    obtain ⟨m, hm⟩ := s.completed_of_accepted haccepted h
    have hcompleted : (s.machine.interpret program).1 = .completed := congrArg Prod.fst hm
    refine ⟨hscanned, parseProgram_readsWhole hopen hhalt hfaults, ?_⟩
    dsimp only
    rw [hprogram, run_session, haccepted]
    exact Machine.executes_of_completed hcompleted
  · have hreached : s.settings.errorLimit.reachedBy 0 = some true := by
      rw [hcount]
      exact reachedBy_count_eq_true.mpr hstop
    have haccepted : (UnitReading.ofSource s.importer s.settings.errorLimit name typed
        source).accepted? = some [] :=
      (accepted?_of_reached _ _ name hreached).mpr ⟨hscanned, rfl⟩
    have hnothing : s.machine.interpret [] = (.completed, s.machine.fresh) := rfl
    rw [s.run_outcome haccepted, run_session, haccepted, Machine.afterUnit, hnothing]
    exact ⟨rfl, rfl⟩

/-- A unit that was typed in and imports a file, under a limit of one and under one of zero. -/
theorem completed_runsWhole_typed :
    let files : Files := { contents := [(["a"], "var a = [nil];".toList.map Char.toUInt8)] }
    let one := bare { maxErrors := .int 1 } files ⟨[], false⟩ (fun _ => 0)
    let zero := bare { maxErrors := .int 0 } files ⟨[], false⟩ (fun _ => 0)
    let source := "import \"a\"; print a; a"
    one.settings.maxErrors = .int 1 ∧ zero.settings.maxErrors = .int 0 ∧
      one.RunsWhole source none true (one.run source none true).2.machine ∧
      (zero.run source none true).1.outcome = .completed ∧
      (zero.run source none true).2.machine = zero.machine.fresh := by
  intro files one zero source
  have hcompleted : (one.run source none true).1.outcome = .completed :=
    Outcome.isCompleted_iff.mp (by decide +kernel)
  have hscanned : (scan source.toList).faults = [] := List.isEmpty_iff.mp (by decide +kernel)
  have hrun := ((completed_runsWhole (rfl : one.settings.maxErrors = .int 1) source none true).1
    (by decide)).2 hcompleted
  have hstop := (completed_runsWhole (rfl : zero.settings.maxErrors = .int 0) source none true).2
    (by decide) hscanned
  exact ⟨rfl, rfl, hrun, hstop⟩

end Session

end Lox
