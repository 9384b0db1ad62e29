import Lox.Proofs.Joining.Reading
import Lox.Proofs.Simulation.Units

/-!
# Fresh sessions

A session begins with the native functions, and with what its prelude defines if it has
one. Two runs that are compared from there on have done the same up to then.
-/

namespace Lox

open Grammar Parse

/-- The prelude as it is read. Nothing but `prelude_clean` computes it. -/
@[irreducible]
def preludeProgram : List (Stmt Unit) :=
  (parseProgram ⟨⟨[], false⟩, {}⟩ (.count 1) (scan preludeSource.toList).tokens).program

/-- What has to be computed of the prelude: it has no imports, and nothing is wrong with
it. -/
theorem prelude_clean :
    let found := scan preludeSource.toList
    let parsed := parseProgram ⟨⟨[], false⟩, {}⟩ (.count 1) found.tokens
    (found.tokens.all (·.kind ≠ .importWord) && found.faults.isEmpty && parsed.faults.isEmpty &&
      (Stmt.scopeFaultsAll {} [] parsed.program).isEmpty) = true := by
  decide +kernel

theorem importFree_prelude : ImportFree (scan preludeSource.toList).tokens := by
  have hclean := prelude_clean
  simp only [Bool.and_eq_true] at hclean
  simpa [ImportFree] using hclean.1.1.1

theorem readsAs_prelude : ReadsAs preludeSource.toList preludeProgram := by
  obtain ⟨ts, eof, htokens, hk, hlex⟩ := scan_tokens preludeSource.toList
  have hdecides := parseProgram_decides_ended ⟨⟨[], false⟩, {}⟩ (.count 1) none
    (fun t ht => (hlex t ht).ne_eof) hk (htokens ▸ importFree_prelude) (by decide)
  rw [← htokens] at hdecides
  have hclean := prelude_clean
  simp only [Bool.and_eq_true, List.isEmpty_iff] at hclean
  delta preludeProgram
  exact ⟨hclean.1.1.2, (hdecides.tree hclean.1.2 _).mpr rfl, hclean.2⟩

namespace Session

variable {settings : Settings} {files : Files} {base : AbsPath} {readings : Nat → Float}
  {log : List LogEntry} {s : Session}

/-- A session has run its prelude, or none. -/
theorem start_eq (h : Session.start settings files base readings = (log, .ok s)) :
    s = bare settings files base readings ∨
      s = ((bare settings files base readings).run preludeSource (some preludeName)).2 := by
  rw [Session.start] at h
  split at h
  · generalize (bare settings files base readings).run preludeSource (some preludeName) = r at h ⊢
    obtain ⟨report, s'⟩ := r
    dsimp only at h
    split at h
    · cases h
    · cases h
      exact .inr rfl
  · cases h
    exact .inl rfl

theorem start_settings (h : Session.start settings files base readings = (log, .ok s)) :
    s.settings = settings := by
  obtain hs | hs := start_eq h
  · rw [hs]
    rfl
  · rw [hs, run_session]
    rfl

/-- The prelude is run, or nothing of it. -/
theorem run_prelude (hlimit : s.settings.errorLimit.reachedBy 0 ≠ none) :
    ∃ program n, (program = [] ∨ program = Stmt.resolveAll .none [] preludeProgram) ∧
      (s.run preludeSource (some preludeName)).2 = { s with
        machine := (Eval.execUnit n program s.machine.fresh).finish.2
        traces := (s.run preludeSource (some preludeName)).2.traces } := by
  obtain ⟨program, hprogram, haccepted⟩ : ∃ program,
      (program = [] ∨ program = Stmt.resolveAll .none [] preludeProgram) ∧
      (UnitReading.ofSource s.importer s.settings.errorLimit (some preludeName) false
        preludeSource).accepted? = some program := by
    cases hreached : s.settings.errorLimit.reachedBy 0 with
    | none => exact absurd hreached hlimit
    | some reached =>
        cases reached with
        | false =>
            exact ⟨_, .inr rfl, (accepted?_eq_some _ _ _ importFree_prelude hreached).mpr
              ⟨_, readsAs_prelude, rfl⟩⟩
        | true =>
            exact ⟨_, .inl rfl, (accepted?_stopped _ _ _ hreached).mpr
              ⟨readsAs_prelude.scanned, rfl⟩⟩
  obtain ⟨n, hn⟩ := s.machine.interpret_eq program
  refine ⟨program, n, hprogram, ?_⟩
  rw [run_session, haccepted, Machine.afterUnit, hn]

/-- What relates the native functions to themselves, and the prelude, relates a fresh
session to itself. -/
theorem start_related (h : Session.start settings files base readings = (log, .ok s))
    (hlimit : settings.errorLimit.reachedBy 0 ≠ none) {C : Comparison}
    (hpast : C.past = #[]) {w : C.World} {p : C.Spot}
    (hm : C.MachineRel w (Machine.start NativeTable.standard readings)
      (Machine.start NativeTable.standard readings))
    (he : C.Env w p globalEnv globalEnv)
    (hprelude : C.StmtsRel p (Stmt.resolveAll .none [] preludeProgram)
      (Stmt.resolveAll .none [] preludeProgram)) :
    s.machine.env = globalEnv ∧ ∃ w', C.Later w w' ∧ C.MachineRel w' s.machine s.machine := by
  obtain hs | hs := start_eq h
  · rw [hs]
    exact ⟨rfl, w, C.later_refl w, hm⟩
  · obtain ⟨program, n, hprogram, hrun⟩ :=
      run_prelude (s := bare settings files base readings) hlimit
    have hrelated : C.StmtsRel p program program := by
      rcases hprogram with hempty | hresolved
      · rw [hempty]
        exact .nil
      · rw [hresolved]
        exact hprelude
    obtain ⟨_, henv, _, hmachine⟩ := Comparison.execUnit_finish n (hm.fresh hpast) he hrelated
    rw [hs, hrun]
    exact ⟨henv, hmachine⟩

end Session
end Lox
