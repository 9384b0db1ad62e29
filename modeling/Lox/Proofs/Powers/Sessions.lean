import Lox.Proofs.FreshSessions
import Lox.Proofs.Joining.Units
import Lox.Proofs.Powers.Rounds

/-!
# The prelude computes powers

A session that reads its prelude starts with one function, `pow`, among its globals. From then on,
and as long as that name is not given another meaning, a call of this function computes a power:
in as many rounds as the exponent says, for all exponents that a double can count to. What was on
the machine before the call is there after it.
-/

namespace Lox

open Eval Stmt

/-- The declaration that the prelude consists of. -/
def isPowerDeclaration : Stmt.Form
  | .function f =>
    f.name.lexeme == "pow" && f.params.map (·.lexeme) == ["base", "exponent"] &&
      fits powerBody f.body
  | _ => false

/-- What has to be computed of the prelude: what it looks like. -/
theorem fits_prelude :
    fits [isPowerDeclaration] (Stmt.resolveAll .none [] preludeProgram) = true := by
  delta preludeProgram
  decide +kernel

theorem exists_of_isPowerDeclaration {s : Stmt Slot} (h : isPowerDeclaration s = true) :
    ∃ f, s = .function f ∧ f.name.lexeme = "pow" ∧ ∀ E, Closure.IsPower ⟨f, E, false⟩ := by
  unfold isPowerDeclaration at h
  split at h
  · next f =>
      simp only [Bool.and_eq_true, beq_iff_eq] at h
      exact ⟨f, rfl, h.1.1, fun E => ⟨h.1.2, h.2, rfl⟩⟩
  · cases h

theorem exists_prelude : ∃ f, Stmt.resolveAll .none [] preludeProgram = [.function f] ∧
    f.name.lexeme = "pow" ∧ ∀ E, Closure.IsPower ⟨f, E, false⟩ := by
  obtain ⟨s, hprogram, hs⟩ := exists_of_fits_singleton fits_prelude
  obtain ⟨f, rfl, hf⟩ := exists_of_isPowerDeclaration hs
  exact ⟨f, hprogram, hf⟩

/-- The machine after a declaration of a function. -/
def Machine.declared (m : Machine) (f : FunDecl Slot) : Machine :=
  { m with
    nextId := m.nextId + 1
    frames := m.frames.define m.env f.name.lexeme (.function m.nextId ⟨f, m.env, false⟩) }

theorem interpret_function (m : Machine) (f : FunDecl Slot) :
    m.interpret [.function f] = (.completed, m.fresh.declared f) := by
  have hrun : ∀ n, execUnit (n + 2) [.function f] m.fresh = .ok () (m.fresh.declared f) := by
    intro n
    rw [execUnit, exec, execUnit]
    rfl
  obtain ⟨n, hn⟩ := Nat.exists_eq_add_of_le' (show 2 ≤ stepBudget by decide)
  rw [Machine.interpret, Machine.interpretWith, hn, hrun]

namespace Session

variable {settings : Settings}

/-- A session that reads its prelude starts, and its prelude's function is a global. -/
theorem start_prelude (hprelude : settings.prelude.truthy = true)
    (hlimit : settings.errorLimit.reachedBy 0 = some false) (files : Files) (base : AbsPath)
    (readings : Nat → Float) :
    ∃ log s id f, Session.start settings files base readings = (log, .ok s) ∧
      s.machine.global? "pow" = some (.function id f) ∧ f.IsPower := by
  obtain ⟨f, hprogram, hname, hpower⟩ := exists_prelude
  let s := bare settings files base readings
  have haccepted := (accepted?_eq_some s.importer s.settings.errorLimit (some preludeName)
    importFree_prelude hlimit).mpr ⟨_, readsAs_prelude, rfl⟩
  rw [hprogram] at haccepted
  have houtcome : (s.run preludeSource (some preludeName)).1.outcome = .completed := by
    rw [s.run_outcome haccepted]
    exact congrArg (·.1.outcome) (interpret_function s.machine f)
  obtain ⟨traces, hrun⟩ : ∃ traces, (s.run preludeSource (some preludeName)).2 =
      { s with machine := s.machine.fresh.declared f, traces := traces } := by
    have hsession := s.run_session preludeSource (some preludeName) false
    rw [haccepted, Machine.afterUnit, interpret_function] at hsession
    exact ⟨_, hsession⟩
  have hglobals : (s.machine.fresh.declared f).global? "pow" =
      some (.function s.machine.nextId ⟨f, globalEnv, false⟩) := by
    rw [Machine.global?, Frames.get?_globalEnv, Machine.declared, hname]
    exact (Frames.binding?_bind _ Nat.one_pos ..).trans (if_pos ⟨rfl, rfl⟩)
  have hstart : ∃ log, Session.start settings files base readings =
      (log, .ok { s with machine := s.machine.fresh.declared f, traces := traces }) := by
    rw [← hrun, Session.start, if_pos hprelude]
    generalize s.run preludeSource (some preludeName) = r at houtcome ⊢
    obtain ⟨report, s'⟩ := r
    dsimp only at houtcome ⊢
    rw [houtcome]
    exact ⟨_, rfl⟩
  obtain ⟨log, hstart⟩ := hstart
  exact ⟨log, _, _, _, hstart, hglobals, hpower globalEnv⟩

/-- A session that reads its prelude starts with a function `pow`. A call of that function, with
any number and any double that is an integer up to `2 ^ 53`, gives the power. Only for a negative
exponent, for which it calls itself, its name has to mean the function still when the arguments
are there. Beyond the arguments it needs hardly more budget than the exponent says, it comes back
to the environment, and it leaves all globals, and all else that was there, as they were. -/
theorem prelude_powers (hprelude : settings.prelude.truthy = true)
    (hlimit : settings.errorLimit.reachedBy 0 = some false) (files : Files) (base : AbsPath)
    (readings : Nat → Float) :
    ∃ log s pow, Session.start settings files base readings = (log, .ok s) ∧
      s.machine.global? "pow" = some pow ∧ pow.arity? = some 2 ∧
      ∀ (callee : Expr Slot) (paren : Token) (arguments : List (Expr Slot)) (m m₁ m₂ : Machine)
        (b x : Float) (i : Int) (n : Nat),
        eval n callee m = .ok pow m₁ → evalAll n arguments m₁ = .ok [.number b, .number x] m₂ →
        (i < 0 → m₂.global? "pow" = some pow) → IsInteger x i → i.natAbs ≤ 2 ^ 53 →
        i.natAbs + 18 < n →
        ∃ m', eval (n + 1) (.call callee paren arguments) m =
            .ok (.number (integerPower b i)) m' ∧ m'.env = m₂.env ∧
          (0 < m₂.frames.size → ∀ name, m'.global? name = m₂.global? name) ∧
          Confined m₂.frames.size m₂ m' := by
  obtain ⟨log, s, id, f, hstart, hpow, hf⟩ := start_prelude hprelude hlimit files base readings
  refine ⟨log, s, .function id f, hstart, hpow, hf.arity?, ?_⟩
  intro callee paren arguments m m₁ m₂ b x i n hcallee harguments hkept hx hsmall hn
  obtain ⟨m', hcall, henv, hconfined⟩ := hf.call (b := b) hkept hx hsmall
  refine ⟨m', ?_, henv, ?_, hconfined⟩
  · have harity : (Value.function id f).arity? = some [Value.number b, .number x].length :=
      hf.arity?
    rw [eval, bind_apply, hcallee]
    simp only [bind_apply, harguments, Comparison.checkCall_ok harity, reporting, hcall n hn]
  · exact hconfined.global?

/-- A call with a negative exponent, right after the start with the default settings. -/
theorem prelude_powers_tenth :
    let callee : Expr Slot := .var ⟨.identifier, "pow", .nil, 1, 0⟩ none
    let paren : Token := ⟨.rightParen, ")", .nil, 1, 10⟩
    let arguments : List (Expr Slot) := [.literal (.number 2),
      .unary ⟨.minus, "-", .nil, 1, 7⟩ (.literal (.number (readNumeral (Nat.toDigits 10 10))))]
    ∃ log s m', Session.start {} {} ⟨[], false⟩ (fun _ => 0) = (log, .ok s) ∧
      eval 64 (.call callee paren arguments) s.machine = .ok (.number 0.0009765625) m' ∧
      m'.env = s.machine.env ∧ ∀ name, m'.global? name = s.machine.global? name := by
  intro callee paren arguments
  obtain ⟨log, s, pow, hstart, hpow, harity, hcomputes⟩ :=
    @prelude_powers {} (by decide) (by decide) {} ⟨[], false⟩ (fun _ => 0)
  have hcallee : eval 63 callee s.machine = .ok pow s.machine := by
    rw [Machine.global?] at hpow
    rw [eval, Comparison.lookUp_eq, Frames.seek, hpow]
    cases pow <;> first | rfl | cases harity
  have harguments : evalAll 63 arguments s.machine =
      .ok [.number 2, .number (-readNumeral (Nat.toDigits 10 10))] s.machine := rfl
  have hten : IsInteger (-readNumeral (Nat.toDigits 10 10)) (-10) :=
    (isInteger_readNumeral (by decide)).neg (by decide)
  have hvalue : integerPower 2 (-10) = 0.0009765625 := by decide +kernel
  obtain ⟨m', heval, henv, hglobals, -⟩ := hcomputes callee paren arguments _ _ _ 2 _ (-10) 63
    hcallee harguments (fun _ => hpow) hten (by decide) (by decide)
  exact ⟨log, s, m', hstart, hvalue ▸ heval, henv, hglobals (size_pos_of_global? hpow)⟩

end Session

end Lox
