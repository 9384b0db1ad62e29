import Lox.Proofs.Budget
import Lox.Proofs.Typed.Shortened

/-!
# Units that were typed in

A unit that is accepted as it stands is closed, so it is read in the same way when it was typed
in. It runs in the same way, and may show one more text at its end: that of the value of its last
statement, which is the last value that the run has left. Expressions that ran as statements
inside of functions have left their values before.
-/

namespace Lox

open Eval

/-! ## One run -/

section

variable {n k : Nat} {m m₁ m₂ : Machine}

theorem Outlasts.ok {α : Type} {x y : Eval α} {a : α} (h : Outlasts x y) (hx : x m = .ok a m₁) :
    y m = .ok a m₁ := by
  rcases h m with ⟨_, hspent⟩ | heq
  · rw [hspent] at hx
    cases hx
  · rw [← heq, hx]

/-- Whatever the budgets are, an expression has one value and one effect. -/
theorem eval_unique {e : Expr Slot} {v w : Value} (h : eval n e m = .ok v m₁)
    (h' : eval k e m = .ok w m₂) : v = w ∧ m₁ = m₂ := by
  have hmax := (eval_outruns (Nat.le_max_left n k) e).outlasts.ok h
  rw [(eval_outruns (Nat.le_max_right n k) e).outlasts.ok h'] at hmax
  cases hmax
  exact ⟨rfl, rfl⟩

theorem exec_unique {s : Stmt Slot} {c d : Completion} (h : exec n s m = .ok c m₁)
    (h' : exec k s m = .ok d m₂) : c = d ∧ m₁ = m₂ := by
  have hmax := (exec_outruns (Nat.le_max_left n k) s).outlasts.ok h
  rw [(exec_outruns (Nat.le_max_right n k) s).outlasts.ok h'] at hmax
  cases hmax
  exact ⟨rfl, rfl⟩

theorem Executes.unique {ss : List (Stmt Slot)} (h : Executes ss m m₁) (h' : Executes ss m m₂) :
    m₁ = m₂ := by
  induction h with
  | nil =>
      cases h'
      rfl
  | cons hs _ ih =>
      cases h' with
      | cons hs' hrest =>
          obtain ⟨-, rfl⟩ := exec_unique hs hs'
          exact ih hrest

theorem Executes.concat {ss : List (Stmt Slot)} {s : Stmt Slot} (h : Executes (ss ++ [s]) m m₂) :
    ∃ n c m₁, Executes ss m m₁ ∧ exec n s m₁ = .ok c m₂ := by
  induction ss generalizing m with
  | nil =>
      cases h with
      | cons hs hrest =>
          cases hrest
          exact ⟨_, _, m, .nil m, hs⟩
  | cons s' ss ih =>
      cases h with
      | cons hs hrest =>
          obtain ⟨n, c, m₁, hss, hlast⟩ := ih hrest
          exact ⟨n, c, m₁, .cons hs hss, hlast⟩

/-- An expression that runs as a statement leaves its value. -/
theorem exec_expression_ok {e : Expr Slot} {c : Completion}
    (h : exec n (.expression e) m = .ok c m₁) :
    ∃ k v m₂, eval k e m = .ok v m₂ ∧ m₁ = { m₂ with lastValue := v } := by
  cases n with
  | zero => cases h
  | succ n =>
      rw [exec, bind_apply] at h
      cases he : eval n e m with
      | abort reason m' =>
          rw [he] at h
          cases h
      | ok v m' =>
          rw [he] at h
          cases h
          exact ⟨n, v, m', he, rfl⟩

end

/-! ## What is shown -/

namespace Session

/-- The text that a program shows at its end if it was typed in: the program completes, and its
last statement is an expression that is no assignment, with a value other than `nil`. -/
inductive Echoes (s : Session) (program : List (Stmt Slot)) : String → Prop
  | value {before : List (Stmt Slot)} {e : Expr Slot} {n : Nat} {m₁ m₂ : Machine} {v : Value} :
      s.settings.echo.truthy = true → (s.machine.interpret program).1 = .completed →
      program = before ++ [.expression e] →
      (∀ name slot value, e ≠ .assign name slot value) →
      (∀ object name value, e ≠ .set object name value) →
      Executes before s.machine.fresh m₁ → eval n e m₁ = .ok v m₂ → v ≠ .nil →
      Echoes s program (m₂.render v)

/-- What a typed unit shows, after the end of its program. -/
def shown (s : Session) (program : List (Stmt Slot)) : List String :=
  match s.machine.interpret program with
  | (.completed, m) => s.shownValue true program m
  | _ => []

variable {s : Session} {program : List (Stmt Slot)} {source : String} {name : Option String}

theorem length_shown_le : (s.shown program).length ≤ 1 := by
  rw [shown]
  split
  · rw [shownValue]
    split
    · split <;> simp
    · simp
  · simp

theorem showsValue_iff {stmt : Stmt Slot} : showsValue stmt = true ↔
    ∃ e, stmt = .expression e ∧ (∀ name slot value, e ≠ .assign name slot value) ∧
      ∀ object name value, e ≠ .set object name value := by
  cases stmt with
  | expression e => cases e <;> simp [showsValue]
  | _ => simp [showsValue]

/-- After a last statement that is an expression, its value is the last value. -/
theorem interpret_concat {before : List (Stmt Slot)} {e : Expr Slot} {m : Machine}
    (h : (m.interpret (before ++ [.expression e])).1 = .completed) :
    ∃ n v m₁ m₂, Executes before m.fresh m₁ ∧ eval n e m₁ = .ok v m₂ ∧
      (m.interpret (before ++ [.expression e])).2 = { m₂ with lastValue := v } := by
  obtain ⟨_, _, m₁, hbefore, hlast⟩ := (Machine.executes_of_completed h).concat
  obtain ⟨n, v, m₂, heval, hm⟩ := exec_expression_ok hlast
  exact ⟨n, v, m₁, m₂, hbefore, heval, hm⟩

theorem mem_shown_concat {before : List (Stmt Slot)} {e : Expr Slot} {v : Value} {m : Machine}
    (hecho : s.settings.echo.truthy = true) (hshows : showsValue (.expression e) = true)
    (hcompleted : (s.machine.interpret (before ++ [.expression e])).1 = .completed)
    (hfinal : (s.machine.interpret (before ++ [.expression e])).2 = { m with lastValue := v })
    {text : String} :
    text ∈ s.shown (before ++ [.expression e]) ↔ v ≠ .nil ∧ text = m.render v := by
  rw [shown]
  generalize s.machine.interpret (before ++ [.expression e]) = r at hcompleted hfinal
  obtain ⟨finish, m'⟩ := r
  obtain rfl : finish = .completed := hcompleted
  obtain rfl : m' = { m with lastValue := v } := hfinal
  simp only [shownValue, hecho, List.getLast?_concat, Option.any_some, hshows, Bool.and_self,
    if_true]
  cases v with
  | nil => simp
  | _ =>
      rw [List.mem_singleton]
      exact ⟨fun h => ⟨(fun hnil => by cases hnil), h⟩, fun h => h.2⟩

theorem of_mem_shown {text : String} (h : text ∈ s.shown program) :
    s.settings.echo.truthy = true ∧ (s.machine.interpret program).1 = .completed ∧
      ∃ before e, program = before ++ [.expression e] ∧ showsValue (.expression e) = true := by
  rw [shown] at h
  split at h
  · next m hrun =>
      rw [shownValue] at h
      split at h
      · next hshows =>
          simp only [Bool.true_and, Bool.and_eq_true, Option.any_eq_true] at hshows
          obtain ⟨hecho, stmt, hlast, hshows⟩ := hshows
          obtain ⟨before, rfl⟩ := List.getLast?_eq_some_iff.mp hlast
          obtain ⟨e, rfl, -⟩ := showsValue_iff.mp hshows
          exact ⟨hecho, by rw [hrun], before, e, rfl, hshows⟩
      · cases h
  · cases h

/-- What is shown is the text of the value that the last statement itself has. -/
theorem mem_shown {text : String} : text ∈ s.shown program ↔ s.Echoes program text := by
  constructor
  · intro h
    obtain ⟨hecho, hcompleted, before, e, rfl, hshows⟩ := of_mem_shown h
    obtain ⟨n, v, m₁, m₂, hbefore, heval, hfinal⟩ := interpret_concat hcompleted
    obtain ⟨hv, rfl⟩ := (mem_shown_concat hecho hshows hcompleted hfinal).mp h
    obtain ⟨_, heq, hassign, hset⟩ := showsValue_iff.mp hshows
    cases heq
    exact .value hecho hcompleted rfl hassign hset hbefore heval hv
  · rintro ⟨hecho, hcompleted, rfl, hassign, hset, hbefore, heval, hv⟩
    obtain ⟨n', v', m₁', m₂', hbefore', heval', hfinal⟩ := interpret_concat hcompleted
    obtain rfl := hbefore.unique hbefore'
    obtain ⟨rfl, rfl⟩ := eval_unique heval heval'
    have hshows := showsValue_iff.mpr ⟨_, rfl, hassign, hset⟩
    exact (mem_shown_concat hecho hshows hcompleted hfinal).mpr ⟨hv, rfl⟩

/-! ## Typed in, or not -/

end Session

/-- A unit that is accepted as it stands is closed. -/
theorem closeUnit_of_accepted? {im : Importer} {limit : ErrorLimit} {name : Option String}
    {source : String} {program : List (Stmt Slot)} (hlimit : limit.reachedBy 0 = some false)
    (h : (UnitReading.ofSource im limit name false source).accepted? = some program) :
    closeUnit (scan source.toList).tokens = (scan source.toList).tokens := by
  obtain ⟨-, hhalt, hfaults, -⟩ := UnitReading.of_accepted? h
  obtain ⟨ts, eof, htokens, hk, hlex⟩ := scan_tokens source.toList
  have hunit : unitTokens false source = ts ++ [eof] := htokens
  rw [hunit] at hhalt hfaults
  have hassembles := (parseProgram_gives_iff hlimit (fun t ht => (hlex t ht).ne_eof) hk).mp
    ⟨hhalt, hfaults, rfl⟩
  rw [htokens]
  exact closeUnit_of_closed eof hassembles.closedUnit

namespace Session

variable {s : Session} {program : List (Stmt Slot)} {source : String} {name : Option String}

theorem respond_typed (s : Session) (name : Option String) (lines : List String)
    {r : UnitReading} (h : r.accepted? = some program) :
    s.respond name true stepBudget lines r =
      ({ (s.respond name false stepBudget lines r).1 with
          printed := (s.respond name false stepBudget lines r).1.printed ++ s.shown program },
        (s.respond name false stepBudget lines r).2) := by
  rw [UnitReading.accepted?] at h
  split at h
  · next hclean =>
      cases h
      rw [Bool.and_eq_true, Option.isNone_iff_eq_none] at hclean
      simp only [respond, hclean.1, hclean.2, if_true, executed, shown, Machine.interpret]
      generalize s.machine.interpretWith stepBudget r.program = finish
      obtain ⟨finish, m⟩ := finish
      cases finish <;> simp [shownValue]
  · cases h

/-- What an accepted unit does when it was typed in: the same, and it shows what is shown. -/
theorem run_typed (hlimit : s.settings.errorLimit.reachedBy 0 = some false)
    (h : (UnitReading.ofSource s.importer s.settings.errorLimit name false source).accepted? =
      some program) :
    let plain := s.run source name
    s.run source name true =
      ({ plain.1 with printed := plain.1.printed ++ s.shown program },
        { plain.2 with traces := { plain.2.traces with
            output := plain.2.traces.output ++ s.shown program } }) := by
  have hreading : s.reading source name true = s.reading source name false := by
    simp only [reading, UnitReading.ofSource, closeUnit_of_accepted? hlimit h, if_true,
      Bool.false_eq_true, if_false]
  have haccepted : (s.reading source name false).accepted? = some program := h
  have hrespond := s.respond_typed name (sourceLines source) haccepted
  have hreport := s.run_report source name true stepBudget
  have hafter := s.run_after source name true stepBudget
  rw [run_traces, hreport, hreading, hrespond] at hafter
  rw [hreading, hrespond] at hreport
  refine Prod.ext ?_ ?_
  · rw [hreport, s.run_report source name false]
  · rw [hafter, s.run_after source name false, run_traces, s.run_report source name false]
    rfl

/-- Typing a unit in is running it, and showing the value of its last expression.

A program that ends in a semicolon can be typed in without it and gives the same statements. The
one exception is a semicolon that completes what the file of an import leaves open: the tokens in
front of it are closed by the import's own semicolon, and what stands for them is not. There
nothing is given for the rest.

An accepted unit that was typed in leaves the same session with the same outcome and log, and
after the same texts it shows at most one more, which is the one more in its output: the text of
the value of its last statement, if that is an expression other than an assignment, the value is
not `nil`, the unit completed, and texts are to be shown. -/
theorem typed_agrees :
    (∀ (im : Importer) (limit : ErrorLimit) (name : Option String) (source : String)
      (ts : List Token) (t eof : Token) (p : List (Stmt Unit)),
      (scan source.toList).faults = [] → (scan source.toList).tokens = ts ++ [t, eof] →
      t.kind = .semicolon → (parseProgram im limit (unitTokens false source) name).Gives p →
      ∃ before after, source.toList = before ++ ';' :: after ∧
        t.StandsAt source.toList before.length ∧
        (limit.reachedBy 0 = some false → (scan (before ++ after)).faults = []) ∧
        let parsed := parseProgram im limit (unitTokens true (String.ofList (before ++ after))) name
        let closes := limit.reachedBy 0 = some false → ClosedUnit ts →
          ∃ out paths, Expands im [] ts out paths ∧ ClosedUnit out
        (parsed.Gives p ↔ closes) ∧ (¬ closes → ∀ q, ¬ parsed.Gives q)) ∧
    ∀ (s : Session) (name : Option String) (source : String) (program : List (Stmt Slot)),
      s.settings.errorLimit.reachedBy 0 = some false →
      (UnitReading.ofSource s.importer s.settings.errorLimit name false source).accepted? =
        some program →
      (s.run source name true).1.outcome = (s.run source name).1.outcome ∧
        (s.run source name true).1.log = (s.run source name).1.log ∧
        ∃ shown : List String,
          (s.run source name true).1.printed = (s.run source name).1.printed ++ shown ∧
          (s.run source name true).2 = { (s.run source name).2 with
            traces := { (s.run source name).2.traces with
              output := (s.run source name).2.traces.output ++ shown } } ∧
          shown.length ≤ 1 ∧ ∀ text, text ∈ shown ↔ s.Echoes program text := by
  constructor
  · intro im limit name source ts t eof p hscanned htokens ht hp
    obtain ⟨before, after, hsource, hstands, hfaults, hiff, hcloses⟩ :=
      parseProgram_shortened hscanned htokens ht hp
    exact ⟨before, after, hsource, hstands, hfaults, hiff, fun h q hq => h (hcloses q hq)⟩
  · intro s name source program hlimit h
    rw [run_typed hlimit h]
    exact ⟨rfl, rfl, s.shown program, rfl, rfl, length_shown_le, fun _ => mem_shown⟩

/-- A function from a file, in which an expression runs as a statement. -/
theorem typed_agrees_function :
    let files : Files :=
      { contents := [(["a"], "fun f() { 1; return 2; }".toList.map Char.toUInt8)] }
    let s := bare {} files ⟨[], false⟩ (fun _ => 0)
    let source := "import \"a\"; f();"
    s.settings.errorLimit.reachedBy 0 = some false ∧ (scan source.toList).faults = [] ∧
      ∃ ts t eof p, (scan source.toList).tokens = ts ++ [t, eof] ∧ t.kind = .semicolon ∧
        (parseProgram s.importer s.settings.errorLimit (unitTokens false source)).Gives p ∧
        (∃ before after, source.toList = before ++ ';' :: after ∧
          (parseProgram s.importer s.settings.errorLimit
            (unitTokens true (String.ofList (before ++ after)))).Gives p) ∧
        ∃ program, (UnitReading.ofSource s.importer s.settings.errorLimit none false
            source).accepted? = some program ∧
          (s.run source none true).1.printed = (s.run source).1.printed ++ ["2"] ∧
          s.Echoes program "2" := by
  intro files s source
  have hlimit : s.settings.errorLimit.reachedBy 0 = some false := by decide
  have hscanned : (scan source.toList).faults = [] := List.isEmpty_iff.mp (by decide +kernel)
  have hkinds : (scan source.toList).tokens.map (·.kind) = [.importWord, .string, .semicolon,
      .identifier, .leftParen, .rightParen] ++ [.semicolon, .eof] := by decide +kernel
  obtain ⟨ts, rest, htokens, hts, hrest⟩ := List.map_eq_append_iff.mp hkinds
  obtain ⟨t, ends, rfl, ht, hends⟩ := List.map_eq_cons_iff.mp hrest
  obtain ⟨eof, rfl, -⟩ := List.map_eq_singleton_iff.mp hends
  have hgives : (parseProgram s.importer s.settings.errorLimit (unitTokens false source)).Gives
      (parseProgram s.importer s.settings.errorLimit (unitTokens false source)).program :=
    ⟨Option.isNone_iff_eq_none.mp (by decide +kernel), List.isEmpty_iff.mp (by decide +kernel), rfl⟩
  obtain ⟨before, after, hsource, -, -, hshort, -⟩ :=
    typed_agrees.1 _ _ _ _ ts t eof _ hscanned htokens ht hgives
  have hopen : ¬ ClosedUnit ts := by
    intro hclosed
    have hlast : (ts.map (·.kind)).getLast? = some .rightParen := by rw [hts]; rfl
    rw [List.getLast?_map, Option.map_eq_some_iff] at hlast
    obtain ⟨u, hu, hk⟩ := hlast
    have hcloses := hclosed u hu
    rw [hk] at hcloses
    cases hcloses
  have haccepted : (UnitReading.ofSource s.importer s.settings.errorLimit none false
      source).accepted?.isSome = true := by decide +kernel
  obtain ⟨program, haccepted⟩ := Option.isSome_iff_exists.mp haccepted
  obtain ⟨-, -, shown, hprinted, -, -, hshown⟩ :=
    typed_agrees.2 s none source program hlimit haccepted
  have hplain : (s.run source).1.printed = [] := List.isEmpty_iff.mp (by decide +kernel)
  have htyped : (s.run source none true).1.printed = ["2"] := by decide +kernel
  obtain rfl : ["2"] = shown := by rwa [htyped, hplain, List.nil_append] at hprinted
  exact ⟨hlimit, hscanned, ts, t, eof, _, htokens, ht, hgives,
    ⟨before, after, hsource, hshort.mpr fun _ hclosed => absurd hclosed hopen⟩,
    program, haccepted, hprinted, (hshown _).mp List.mem_cons_self⟩

/-- The semicolon of an import closes the tokens, and its file leaves a statement open. -/
theorem typed_disagrees_openImport :
    let im : Importer :=
      ⟨⟨[], false⟩, { contents := [(["a.lox"], "print 1".toList.map Char.toUInt8)] }⟩
    let source := "import \"a.lox\";;"
    (UnitReading.ofSource im (.count 20) none false source).accepted?.isSome = true ∧
      (scan source.toList).tokens.map (·.kind) =
        [.importWord, .string, .semicolon, .semicolon, .eof] ∧
      source = "import \"a.lox\";" ++ ";" ∧
      (parseProgram im (.count 20) (unitTokens false source)).program.length = 1 ∧
      (parseProgram im (.count 20) (unitTokens true "import \"a.lox\";")).program.length = 0 ∧
      (parseProgram im (.count 20) (unitTokens true "import \"a.lox\";")).faults.length = 1 := by
  decide +kernel

end Session
end Lox
