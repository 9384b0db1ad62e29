import Lox.Eval.Run
import Lox.Parse.Statement
import Lox.Proofs.Parsing.Productions
import Lox.Proofs.WellFormed
import Lox.Resolve

/-!
# What a `for` statement means

The parser makes a `while` loop out of every `for` statement. What is meant is a loop of its
own: the initializer runs in a scope that all rounds share, a round is the body and then the
increment, and there are rounds as long as the condition holds. A `return` in the body ends
all that. No scope is opened for a round.
-/

namespace Lox

/-- A `for` statement. Each of its clauses may be missing, and its body may be any
statement. -/
structure ForStatement where
  clauses : Parse.ForClauses
  body : Stmt Unit
  isInitializer : ∃ ts, Grammar.ForInitializer ts clauses.initializer
  isStatement : ∃ rule isOpen ts, Grammar.Statement rule isOpen ts body

/-- A `for` statement with its slots. -/
structure ForLoop where
  initializer : Option (Stmt Slot)
  condition : Option (Expr Slot)
  increment : Option (Expr Slot)
  body : Stmt Slot

namespace ForStatement

variable (f : ForStatement)

/-- The tree that the parser builds. -/
def tree : Stmt Unit :=
  f.clauses.loop f.body

/-- The scopes of condition, increment and body. They see what the initializer declares, and
the first two see nothing that the body does. -/
def scopes (s : Scopes) : Scopes :=
  match f.clauses.initializer with
  | none => s
  | some i => i.after s.block

/-- The loop that the statement means. -/
def resolve (c : ClassKind) (s : Scopes) : ForLoop where
  initializer := f.clauses.initializer.map (Stmt.resolve c s.block)
  condition := f.clauses.condition.map (Expr.resolve c (f.scopes s))
  increment := f.clauses.increment.map (Expr.resolve c (f.scopes s))
  body := f.body.resolve c (f.scopes s)

end ForStatement

namespace ForLoop

open Eval

variable (l : ForLoop)

/-- Does the condition hold? One that is missing does. -/
def holds (n : Nat) : Eval Bool := do
  match l.condition with
  | none => pure true
  | some e => do
    let v ← eval n e
    pure v.truthy

/-- Runs the increment, as an expression statement. -/
def advance (n : Nat) : Eval Unit := do
  match l.increment with
  | none => pure ()
  | some e => do
    let v ← eval n e
    setLastValue v

/-- A round: the body, and then the increment unless the body returned. -/
def round (n : Nat) : Eval Completion := do
  match ← exec n l.body with
  | .returned v => pure (.returned v)
  | .normal => do
    l.advance n
    pure .normal

/-- Rounds, as long as the condition holds and none of them returns. -/
def rounds (round : Nat → Eval Completion) : Nat → Eval Completion
  | 0 => spent
  | n + 1 => do
    if ← l.holds n then
      match ← round n with
      | .returned v => pure (.returned v)
      | .normal => rounds round n
    else pure .normal

/-- The initializer and then the rounds, in a scope for both of them. -/
def runWith (round : Nat → Eval Completion) (n : Nat) : Eval Completion := do
  match l.initializer with
  | none => l.rounds round n
  | some s => do
    let outer ← environment
    let env ← enter "block" outer
    within env do
      let _ ← exec n s
      l.rounds round n

/-- Runs the loop. -/
def run : Nat → Eval Completion :=
  l.runWith l.round

end ForLoop

/-! ## Statements of the grammar -/

/-- What a `for` statement may begin with: the declaration of a variable, or an expression. -/
inductive Stmt.IsInitializer {δ : Type} : Stmt δ → Prop
  | varDecl {name : Token} {e : Option (Expr δ)} : IsInitializer (.varDecl name e)
  | expression {e : Expr δ} : IsInitializer (.expression e)

namespace ForStatement

variable (f : ForStatement)

theorem initializer_of_some {s : Stmt Unit} (h : f.clauses.initializer = some s) :
    s.IsInitializer := by
  obtain ⟨ts, hinitializer⟩ := f.isInitializer
  rw [h] at hinitializer
  cases hinitializer with
  | var hs =>
      cases hs with
      | plain => exact .varDecl
      | initialized => exact .varDecl
  | expression hs =>
      cases hs
      exact .expression

theorem body_declared? : f.body.declared? = none := by
  obtain ⟨rule, isOpen, ts, h⟩ := f.isStatement
  exact h.declared?

end ForStatement

end Lox
