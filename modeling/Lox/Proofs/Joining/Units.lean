import Lox.Proofs.Joining.Reading
import Lox.Proofs.Relocation
import Lox.Proofs.Simulation.Units

/-!
# Units compose

A session runs two units one after the other, or both as one unit. It makes no
difference to what is printed, how the second ends, and what is left on the machine.
-/

namespace Lox

open Eval Grammar Parse

/-! ## Programs -/

/-- Only a unit that completes runs to the end of its statements. -/
theorem Machine.execUnit_of_completed {n : Nat} {m m₁ : Machine} {ss : List (Stmt Slot)}
    (h : m.interpretWith n ss = (.completed, m₁)) : execUnit n ss m.fresh = .ok () m₁ := by
  rw [interpretWith_eq] at h
  generalize execUnit n ss m.fresh = r at h ⊢
  cases r with
  | ok _ m => cases h; rfl
  | abort a m => cases a <;> cases h

/-- The statements of a second unit do the same behind those of a first, which has completed,
as they do in a unit of their own. They have the budget that the first leaves. -/
theorem Machine.interpretWith_append {n k : Nat} {m m₁ : Machine} {ss us us' : List (Stmt Slot)}
    (hss : m.interpretWith n ss = (.completed, m₁)) (hk : n ≤ k + ss.length)
    (hus : (relocation m₁.output).StmtsRel () us us') :
    (m₁.interpretWith k us).1.outcome.Alike
        (m.interpretWith (k + ss.length) (ss ++ us')).1.outcome ∧
      (relocation m₁.output).MachineRel () (m₁.interpretWith k us).2
        (m.interpretWith (k + ss.length) (ss ++ us')).2 := by
  have hends : (m.interpretWith n ss).1 ≠ .spent := by
    rw [hss]
    exact UnitEnd.noConfusion
  rw [← interpretWith_larger hk hends] at hss
  rw [interpretWith_eq, interpretWith_eq, execUnit_append_eq, Eval.bind_apply,
    execUnit_of_completed hss, Nat.add_sub_cancel]
  obtain ⟨halike, _, _, _, _, hmachine⟩ :=
    Comparison.execUnit_finish k (Relocation.machineRel_fresh m₁) rfl hus
  exact ⟨halike, hmachine⟩

/-! ## Runs and their budgets -/

/-- The run came to an end within its budget. -/
def UnitReport.Ends (r : UnitReport) : Prop :=
  r.outcome ≠ .escaped .spent

/-- The same was printed, and the runs ended alike. -/
structure UnitReport.Alike (r r' : UnitReport) : Prop where
  outcome : r.outcome.Alike r'.outcome
  printed : r'.printed = r.printed

/-- A run with each budget. The one that ends is the same with any larger budget, and one that
does not has printed no less there. -/
structure Settles (x : Nat → UnitReport × Session) : Prop where
  settled : ∀ n k, n ≤ k → (x n).1.Ends →
    (x k).1 = (x n).1 ∧ (x k).2.machine = (x n).2.machine
  prints : ∀ n k, n ≤ k → (x n).1.printed <+: (x k).1.printed

/-- The two runs do the same, where each has `slack` more of a budget than the other needs. If
one of them ends so does the other, alike and on related machines, and what one of them prints
the other prints, too, whether they end or not. -/
structure RunsAlike (slack : Nat) (R : Machine → Machine → Prop)
    (x y : Nat → UnitReport × Session) : Prop where
  ends : ∀ n k, n + slack ≤ k → (x n).1.Ends →
    (x n).1.Alike (y k).1 ∧ R (x n).2.machine (y k).2.machine
  ends' : ∀ n k, n + slack ≤ k → (y n).1.Ends →
    (x k).1.Alike (y n).1 ∧ R (x k).2.machine (y n).2.machine
  prints : ∀ n k, n + slack ≤ k → (x n).1.printed <+: (y k).1.printed
  prints' : ∀ n k, n + slack ≤ k → (y n).1.printed <+: (x k).1.printed

/-- If the second run does with `d` more of a budget what the first does, from a budget of `n₀`
on, nothing more has to be known of their budgets. -/
theorem RunsAlike.of_exact {R : Machine → Machine → Prop} {x y : Nat → UnitReport × Session}
    (n₀ d : Nat) (hx : Settles x) (hy : Settles y)
    (h : ∀ n, n₀ ≤ n → (x n).1.Alike (y (n + d)).1 ∧ R (x n).2.machine (y (n + d)).2.machine) :
    RunsAlike (n₀ + d) R x y := by
  have hexact (k : Nat) (hk : n₀ + d ≤ k) : (x (k - d)).1.Alike (y k).1 ∧
      R (x (k - d)).2.machine (y k).2.machine := by
    have hk' := h (k - d) (by omega)
    rwa [Nat.sub_add_cancel (by omega)] at hk'
  constructor
  · intro n k hk hends
    obtain ⟨hreport, hmachine⟩ := hx.settled n (k - d) (by omega) hends
    rw [← hreport, ← hmachine]
    exact hexact k (by omega)
  · intro n k hk hends
    obtain ⟨hreport, hmachine⟩ := hy.settled n (k + d) (by omega) hends
    rw [← hreport, ← hmachine]
    exact h k (by omega)
  · intro n k hk
    rw [(hexact k (by omega)).1.printed]
    exact hx.prints n (k - d) (by omega)
  · intro n k hk
    rw [← (h k (by omega)).1.printed]
    exact hy.prints n (k + d) (by omega)

/-! ## Sessions -/

theorem SourceUnit.Accepted.accepted? {u : SourceUnit} (h : u.Accepted) :
    u.reading.accepted? = some u.reading.program := by
  rw [UnitReading.accepted?, h.1, h.2]
  rfl

namespace Session

variable (s : Session) {source : String} {name : Option String}

/-- What a unit gives, with each budget. -/
def runs (source : String) (name : Option String) (typed : Bool) : Nat → UnitReport × Session :=
  fun n => s.run source name typed n

/-- What a unit gives with a budget, it gives with a larger one, too. -/
theorem runs_settle (source : String) (name : Option String) (typed : Bool) :
    Settles (s.runs source name typed) := by
  have hrespond (n k : Nat) (hk : n ≤ k) (lines : List String) (r : UnitReading) :
      ((s.respond name typed n lines r).1.Ends →
        s.respond name typed k lines r = s.respond name typed n lines r) ∧
      (s.respond name typed n lines r).1.printed <+:
        (s.respond name typed k lines r).1.printed := by
    simp only [respond]
    cases r.halt with
    | some halt => exact ⟨fun _ => rfl, List.prefix_rfl⟩
    | none =>
        cases r.faults.isEmpty with
        | false => exact ⟨fun _ => rfl, List.prefix_rfl⟩
        | true =>
            have hlarger : (s.machine.interpretWith n r.program).1 ≠ .spent →
                s.machine.interpretWith k r.program = s.machine.interpretWith n r.program :=
              Machine.interpretWith_larger hk
            have hprints : (s.machine.interpretWith n r.program).2.output.toList <+:
                (s.machine.interpretWith k r.program).2.output.toList :=
              Machine.interpretWith_prints hk
            simp only [executed, if_true]
            generalize s.machine.interpretWith n r.program = x at hlarger hprints
            generalize s.machine.interpretWith k r.program = y at hlarger hprints
            obtain ⟨finish, m⟩ := x
            cases finish with
            | spent =>
                refine ⟨fun h => absurd rfl h, ?_⟩
                obtain ⟨finish, m'⟩ := y
                cases finish with
                | completed => exact hprints.trans (List.prefix_append _ _)
                | _ => exact hprints
            | _ =>
                rw [hlarger UnitEnd.noConfusion]
                exact ⟨fun _ => rfl, List.prefix_rfl⟩
  constructor
  · intro n k hk hends
    obtain ⟨hsame, -⟩ := hrespond n k hk (sourceLines source) (s.reading source name typed)
    rw [runs, run_report] at hends
    rw [runs, runs, run_report, run_report, run_after, s.run_after source name typed n, hsame hends]
    exact ⟨rfl, rfl⟩
  · intro n k hk
    rw [runs, runs, run_report, run_report]
    exact (hrespond n k hk _ _).2

/-- An accepted unit ends as its program does. -/
theorem run_outcome {typed : Bool} {p : List (Stmt Slot)}
    (h : (UnitReading.ofSource s.importer s.settings.errorLimit name typed source).accepted? =
      some p) (n : Nat := stepBudget) :
    (s.run source name typed n).1.outcome = (s.machine.interpretWith n p).1.outcome := by
  rw [run_report]
  refine (s.respond_of_accepted name typed n _ h).1.trans ?_
  rw [executed]
  generalize s.machine.interpretWith n p = finish
  obtain ⟨finish, m⟩ := finish
  cases finish <;> rfl

/-- An accepted unit that was not typed in gives what its program does. -/
theorem run_accepted {p : List (Stmt Slot)}
    (h : (UnitReading.ofSource s.importer s.settings.errorLimit name false source).accepted? =
      some p) (n : Nat := stepBudget) :
    (s.run source name false n).1.outcome = (s.machine.interpretWith n p).1.outcome ∧
      (s.run source name false n).1.printed = (s.machine.interpretWith n p).2.output.toList ∧
      (s.run source name false n).2 = { s with
        machine := (s.machine.interpretWith n p).2
        traces := (s.run source name false n).2.traces } := by
  obtain ⟨_, hprinted, hmachine⟩ :=
    s.respond_of_accepted name false n (sourceLines source) h
  have hafter := s.run_after source name false n
  refine ⟨s.run_outcome h n, ?_, ?_⟩
  · rw [run_report]
    refine hprinted.trans ?_
    rw [executed]
    generalize s.machine.interpretWith n p = finish
    obtain ⟨finish, m⟩ := finish
    cases finish with
    | completed => exact List.append_nil _
    | _ => rfl
  · rw [show (s.respond name false n (sourceLines source) (s.reading source name false)).2 = _ from
      hmachine, executed] at hafter
    generalize s.machine.interpretWith n p = finish at hafter ⊢
    obtain ⟨finish, m⟩ := finish
    cases finish <;> exact hafter

/-- Only an accepted unit completes. -/
theorem accepted_of_completed {typed : Bool} {n : Nat}
    (h : (s.run source name typed n).1.outcome = .completed) :
    ∃ p, (UnitReading.ofSource s.importer s.settings.errorLimit name typed source).accepted? =
      some p := by
  rw [run_report, respond, reading] at h
  generalize UnitReading.ofSource s.importer s.settings.errorLimit name typed source = r at h ⊢
  cases hhalt : r.halt with
  | some halt =>
      rw [hhalt] at h
      cases h
  | none =>
      rw [hhalt] at h
      cases hfaults : r.faults.isEmpty with
      | false =>
          rw [hfaults] at h
          cases h
      | true => exact ⟨r.program, by simp [UnitReading.accepted?, hhalt, hfaults]⟩

/-- If an accepted unit completes, its program runs to its end. -/
theorem completed_of_accepted {typed : Bool} {n : Nat} {p : List (Stmt Slot)}
    (h : (s.reading source name typed).accepted? = some p)
    (hcompleted : (s.run source name typed n).1.outcome = .completed) :
    ∃ m, s.machine.interpretWith n p = (.completed, m) := by
  rw [s.run_outcome h n] at hcompleted
  generalize s.machine.interpretWith n p = finish at hcompleted ⊢
  obtain ⟨finish, m⟩ := finish
  cases finish with
  | completed => exact ⟨m, rfl⟩
  | _ => cases hcompleted

/-- What two units give that are run one after the other, each with its budget. -/
def runTwo (first second : String) (name name' : Option String) (n n' : Nat) :
    UnitReport × Session :=
  let one := s.run first name false n
  let two := one.2.run second name' false n'
  ({ two.1 with
    printed := one.1.printed ++ two.1.printed
    log := one.1.log ++ two.1.log }, two.2)

theorem runTwo_settles (first second : String) (name name' : Option String) (n : Nat) :
    Settles (s.runTwo first second name name' n) := by
  have hsecond := (s.run first name false n).2.runs_settle second name' false
  constructor
  · intro i k hk hends
    obtain ⟨hreport, hmachine⟩ := hsecond.settled i k hk hends
    dsimp only [runs] at hreport
    refine ⟨?_, hmachine⟩
    rw [runTwo, runTwo, hreport]
  · intro i k hk
    exact (List.prefix_append_right_inj _).mpr (hsecond.prints i k hk)

/-- Running both as one unit, with the statements of the first counted in, does what running
the second after the first does. -/
theorem runTwo_exact {first second both : String} {name name' name'' : Option String} {n k : Nat}
    {ss us us' : List (Stmt Slot)} {m₁ : Machine}
    (hss : (s.reading first name false).accepted? = some ss)
    (hus : (s.reading second name' false).accepted? = some us)
    (hboth : (s.reading both name'' false).accepted? = some (ss ++ us'))
    (hrel : (relocation m₁.output).StmtsRel () us us')
    (hone : s.machine.interpretWith n ss = (.completed, m₁)) (hk : n ≤ k + ss.length) :
    let two := s.runTwo first second name name' n k
    let one := s.run both name'' false (k + ss.length)
    two.1.Alike one.1 ∧ (relocation m₁.output).MachineRel () two.2.machine one.2.machine := by
  obtain ⟨_, hprinted₁, hsession₁⟩ := s.run_accepted hss n
  obtain ⟨houtcome, hprinted, hsession⟩ := s.run_accepted hboth (k + ss.length)
  rw [hone] at hprinted₁ hsession₁
  generalize (s.run first name false n).2.traces = traces at hsession₁
  obtain ⟨houtcome₂, hprinted₂, hsession₂⟩ :=
    run_accepted { s with machine := m₁, traces := traces } hus k
  obtain ⟨halike, hmachine⟩ := Machine.interpretWith_append hone hk hrel
  have hprint := (congrArg Array.toList hmachine.output).trans Array.toList_append
  simp only [runTwo, hsession₁]
  refine ⟨⟨?_, ?_⟩, ?_⟩
  · rw [houtcome₂, houtcome]
    exact halike
  · rw [hprinted, hprinted₁, hprinted₂]
    exact hprint
  · rw [hsession₂, hsession]
    exact hmachine

/-- Units compose. If a first unit completes, running a second one after it prints the same,
ends alike and leaves the same frames and objects as running both as one unit, the second on
a new line; and the one does not end if the other does not. What differs is where tokens
stand, and the last value, if the second unit sets none. -/
theorem units_compose (s : Session) (first second : String) (name name' name'' : Option String)
    (hlimit : s.settings.errorLimit.reachedBy 0 = some false)
    (hfree : ImportFree (scan first.toList).tokens)
    (hfree' : ImportFree (scan second.toList).tokens)
    (haccepted : SourceUnit.Accepted ⟨s.importer, s.settings.errorLimit, name', false, second⟩)
    {n : Nat} (hcompleted : (s.run first name false n).1.outcome = .completed) :
    let two := s.runTwo first second name name' n
    let both := s.runs (first ++ "\n" ++ second) name'' false
    RunsAlike n ((relocation (s.run first name false n).2.machine.output).MachineRel ()) two both ∧
      ∀ k k', (both k').2 =
        { (two k).2 with machine := (both k').2.machine, traces := (both k').2.traces } := by
  intro two both
  obtain ⟨ss, hss⟩ := s.accepted_of_completed hcompleted
  have hus := haccepted.accepted?
  obtain ⟨p, hp, rfl⟩ := (accepted?_eq_some _ _ _ hfree hlimit).mp hss
  obtain ⟨q, hq, hprogram⟩ := (accepted?_eq_some _ _ _ hfree' hlimit).mp hus
  rw [hprogram] at hus
  obtain ⟨g, hread⟩ := hp.joined hq
  have htext : (first ++ "\n" ++ second).toList = first.toList ++ '\n' :: second.toList := by
    simp [String.toList_append]
  have hboth := (accepted?_eq_some s.importer _ name''
    (by rw [htext]; exact importFree_joined hp.scanned hfree hfree') hlimit).mpr
    ⟨_, by rw [htext]; exact hread, rfl⟩
  rw [Stmt.resolveAll_append, Stmt.resolveAll_map (Token.moved_keepsTexts g)] at hboth
  obtain ⟨m₁, hone⟩ := s.completed_of_accepted hss hcompleted
  have hmachine : (s.run first name false n).2.machine = m₁ := by
    rw [(s.run_accepted hss n).2.2, hone]
  rw [hmachine]
  refine ⟨?_, fun k k' => ?_⟩
  · have hlength := length_lt_of_execUnit (Machine.execUnit_of_completed hone)
    have halike := RunsAlike.of_exact (R := (relocation m₁.output).MachineRel ())
      (n - (Stmt.resolveAll .none [] p).length) _
      (s.runTwo_settles first second name name' n)
      (s.runs_settle (first ++ "\n" ++ second) name'' false)
      fun k hk => s.runTwo_exact hss hus hboth
        (Relocation.stmtsRel_map (Token.moved_keepsTexts g) 0 _) hone (by omega)
    rwa [Nat.sub_add_cancel hlength.le] at halike
  · obtain ⟨hsettings, hfiles, hbase⟩ := s.run_keeps first name false n
    obtain ⟨hsettings', hfiles', hbase'⟩ :=
      (s.run first name false n).2.run_keeps second name' false k
    dsimp only [two, both, runs, runTwo]
    rw [s.run_after (first ++ "\n" ++ second) name'' false k', hsettings', hfiles', hbase',
      hsettings, hfiles, hbase]

/-- A function of the first unit is called and changed by the second, which an error
ends. -/
theorem units_compose_redefined :
    let s := bare {} {} ⟨[], false⟩ (fun _ => 0)
    let first := "var a = [nil]; fun f() \x7b print a; if (a) if (nil) f(); else a = nil; \x7d f();"
    let second := "print a; a = true; f(); // f\nf = nil; f();"
    let two := s.runTwo first second none none 50 50
    let both := s.runs (first ++ "\n" ++ second) none false 100
    two.1.printed = ["[nil]", "nil", "true"] ∧ two.1.Alike both.1 ∧
      (relocation (s.run first none false 50).2.machine.output).MachineRel ()
        two.2.machine both.2.machine ∧
      both.2 = { two.2 with machine := both.2.machine, traces := both.2.traces } := by
  intro s first second
  have hfree : ImportFree (scan first.toList).tokens := by
    unfold ImportFree
    decide +kernel
  have hfree' : ImportFree (scan second.toList).tokens := by
    unfold ImportFree
    decide +kernel
  have hclean :
      let r := SourceUnit.reading ⟨s.importer, s.settings.errorLimit, none, false, second⟩
      (r.faults.isEmpty && r.halt.isNone) = true := by
    decide +kernel
  have hfailed : (s.runTwo first second none none 50 50).1.outcome.error?.isSome = true := by
    decide +kernel
  rw [Bool.and_eq_true] at hclean
  have hone : (s.run first none false 50).1.outcome = .completed :=
    Outcome.isCompleted_iff.mp (by decide +kernel)
  have hends : (s.runTwo first second none none 50 50).1.Ends := by
    intro hspent
    rw [hspent] at hfailed
    cases hfailed
  have haccepted : SourceUnit.Accepted ⟨s.importer, s.settings.errorLimit, none, false, second⟩ :=
    ⟨List.isEmpty_iff.mp hclean.1, Option.isNone_iff_eq_none.mp hclean.2⟩
  obtain ⟨halike, hsession⟩ := units_compose s first second none none none (by decide) hfree hfree'
    haccepted hone
  obtain ⟨hreport, hmachine⟩ := halike.ends 50 100 (by decide) hends
  have hprinted : (s.runTwo first second none none 50 50).1.printed = ["[nil]", "nil", "true"] := by
    decide +kernel
  exact ⟨hprinted, hreport, hmachine, hsession 50 100⟩

end Session
end Lox
