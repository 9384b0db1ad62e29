import Lox.Proofs.Simulation.Operations

/-!
# What a tree does by its form

A tree keeps the tokens it was read from, and with them their places. What it does depends on
neither. So a known program is described by conditions on trees, one for every way to build a
tree, which leave the places open. Each of them comes with a rule for what the trees of that
form do, with every budget from some size on.
-/

namespace Lox

/-- Each member of a list meets the condition at its place. -/
def fits {α : Type} : List (α → Bool) → List α → Bool
  | [], [] => true
  | p :: ps, a :: rest => p a && fits ps rest
  | _, _ => false

theorem exists_of_fits_singleton {α : Type} {p : α → Bool} {l : List α} (h : fits [p] l = true) :
    ∃ a, l = [a] ∧ p a = true := by
  cases l with
  | nil => cases h
  | cons a rest =>
      cases rest with
      | nil => exact ⟨a, rfl, by simpa [fits] using h⟩
      | cons b rest => simp [fits] at h

namespace Expr

/-- A condition on resolved expressions. -/
abbrev Form := Expr Slot → Bool

def isNumber (x : Float) : Form
  | .literal (.number y) => decide (y = x)
  | _ => false

def isVar (name : String) (slot : Slot) : Form
  | .var t s => t.lexeme == name && s == slot
  | _ => false

def isAssign (name : String) (slot : Slot) (value : Form) : Form
  | .assign t s e => t.lexeme == name && s == slot && value e
  | _ => false

def isUnary (kind : TokenKind) (operand : Form) : Form
  | .unary t e => t.kind == kind && operand e
  | _ => false

def isBinary (kind : TokenKind) (left right : Form) : Form
  | .binary e t f => t.kind == kind && left e && right f
  | _ => false

def isCall (callee : Form) (arguments : List Form) : Form
  | .call e _ es => callee e && fits arguments es
  | _ => false

end Expr

namespace Stmt

/-- A condition on resolved statements. -/
abbrev Form := Stmt Slot → Bool

def isExpression (e : Expr.Form) : Form
  | .expression f => e f
  | _ => false

def isVarDecl (name : String) (initializer : Expr.Form) : Form
  | .varDecl t (some e) => t.lexeme == name && initializer e
  | _ => false

def isBlock (body : List Form) : Form
  | .block ss => fits body ss
  | _ => false

def isIf (condition : Expr.Form) (thenBranch : Form) : Form
  | .ifThen e s => condition e && thenBranch s
  | _ => false

def isWhile (condition : Expr.Form) (body : Form) : Form
  | .whileLoop e s => condition e && body s
  | _ => false

def isReturn (value : Expr.Form) : Form
  | .ret _ (some e) => value e
  | _ => false

end Stmt

open Eval Lox.Expr Lox.Stmt

/-- With budgets of `n` and more, running what has a form gives a value. -/
def Ensures {σ α : Type} (run : Nat → σ → Eval α) (p : σ → Bool) (n : Nat) (m : Machine) (a : α)
    (m' : Machine) : Prop :=
  ∀ x, p x = true → ∀ k, n ≤ k → run k x m = .ok a m'

abbrev Evaluates (p : Expr.Form) := Ensures eval p

abbrev EvaluatesAll (ps : List Expr.Form) := Ensures evalAll (fits ps)

abbrev Completes (t : Stmt.Form) := Ensures exec t

abbrev CompletesAll (ts : List Stmt.Form) := Ensures execAll (fits ts)

abbrev Loops (p : Expr.Form) (t : Stmt.Form) :=
  Ensures (fun k (x : Expr Slot × Stmt Slot) => loop k x.1 x.2) fun x => p x.1 && t x.2

section

variable {σ α : Type} {run : Nat → σ → Eval α} {p : σ → Bool} {n : Nat} {m m' : Machine} {a : α}

theorem Ensures.mono {l : Nat} (h : Ensures run p n m a m') (hle : n ≤ l) :
    Ensures run p l m a m' :=
  fun x hx k hk => h x hx k (Nat.le_trans hle hk)

/-- One step of the budget opens the tree. -/
theorem Ensures.step (h : ∀ x, p x = true → ∀ k, n ≤ k → run (k + 1) x m = .ok a m') :
    Ensures run p (n + 1) m a m' := by
  intro x hx k hk
  obtain ⟨k, rfl⟩ := Nat.exists_eq_add_of_le' (Nat.lt_of_lt_of_le n.succ_pos hk)
  exact h x hx k (Nat.le_of_succ_le_succ hk)

end

section

variable {m m' m₁ m₂ m₃ : Machine} {n : Nat} {name : String} {u v w : Value} {c : Completion}
  {p q : Expr.Form} {ps : List Expr.Form} {t : Stmt.Form} {ts : List Stmt.Form}

/-! ## Expressions -/

theorem evaluates_number (x : Float) : Evaluates (isNumber x) (n + 1) m (.number x) m := by
  refine Ensures.step fun e he k _ => ?_
  unfold isNumber at he
  split at he
  · rw [decide_eq_true_iff] at he
    rw [eval, he]
    rfl
  · cases he

/-- A variable, found at its distance or among the globals. -/
theorem evaluates_var {slot : Slot} (h : m.frames.seek m.env name slot = .ok v)
    (hv : v ≠ .unassigned) : Evaluates (isVar name slot) (n + 1) m v m := by
  refine Ensures.step fun e he k _ => ?_
  unfold isVar at he
  split at he
  · simp only [Bool.and_eq_true, beq_iff_eq] at he
    obtain ⟨rfl, rfl⟩ := he
    rw [eval, Comparison.lookUp_eq, h]
    cases v <;> first | rfl | exact absurd rfl hv
  · cases he

theorem evaluates_assign {d id : Nat} (h : Evaluates p n m v m₁) (hid : m₁.env[d]? = some id) :
    Evaluates (isAssign name (some d) p) (n + 1) m v
      { m₁ with frames := m₁.frames.bind id name v } := by
  refine Ensures.step fun e he k hk => ?_
  unfold isAssign at he
  split at he
  · simp only [Bool.and_eq_true, beq_iff_eq] at he
    obtain ⟨⟨rfl, rfl⟩, he⟩ := he
    rw [eval, bind_apply, h _ he k hk]
    simp only [bind_apply, Comparison.assign_eq, Frames.target, hid]
    rfl
  · cases he

theorem evaluates_neg {x : Float} (h : Evaluates p n m (.number x) m₁) :
    Evaluates (isUnary .minus p) (n + 1) m (.number (-x)) m₁ := by
  refine Ensures.step fun e he k hk => ?_
  unfold isUnary at he
  split at he
  · simp only [Bool.and_eq_true, beq_iff_eq] at he
    rw [eval, bind_apply, h _ he.2 k hk]
    simp only [unaryOp, he.1]
    rfl
  · cases he

/-- An operator on two numbers, other than equality. -/
theorem evaluates_binary {kind : TokenKind} {x y : Float} (hl : Evaluates p n m (.number x) m₁)
    (hr : Evaluates q n m₁ (.number y) m₂) (hequal : kind ≠ .equalEqual)
    (hunequal : kind ≠ .bangEqual) :
    Evaluates (isBinary kind p q) (n + 1) m (arithmetic kind x y) m₂ := by
  refine Ensures.step fun e he k hk => ?_
  unfold isBinary at he
  split at he
  · simp only [Bool.and_eq_true, beq_iff_eq] at he
    obtain ⟨⟨rfl, hp⟩, hq⟩ := he
    rw [eval, bind_apply, hl _ hp k hk]
    simp only [bind_apply, hr _ hq k hk, Comparison.binaryOp_eq _ _ hequal hunequal]
    rfl
  · cases he

theorem evaluatesAll_nil : EvaluatesAll [] (n + 1) m [] m := by
  refine Ensures.step fun es hes k _ => ?_
  cases es with
  | nil => rw [evalAll]; rfl
  | cons => cases hes

theorem evaluatesAll_cons {vs : List Value} (h : Evaluates p n m v m₁)
    (hs : EvaluatesAll ps n m₁ vs m₂) :
    EvaluatesAll (p :: ps) (n + 1) m (v :: vs) m₂ := by
  refine Ensures.step fun es hes k hk => ?_
  cases es with
  | nil => cases hes
  | cons e es =>
      rw [fits, Bool.and_eq_true] at hes
      rw [evalAll, bind_apply, h e hes.1 k hk]
      simp only [bind_apply, hs es hes.2 k hk]
      rfl

/-- A call that gives a value, of something that takes so many arguments. -/
theorem evaluates_call {vs : List Value} {f : Value} (hf : Evaluates p n m f m₁)
    (hs : EvaluatesAll ps n m₁ vs m₂) (harity : f.arity? = some vs.length)
    (hcall : ∀ k, n ≤ k → Eval.call k f vs m₂ = .ok v m₃) :
    Evaluates (isCall p ps) (n + 1) m v m₃ := by
  refine Ensures.step fun e he k hk => ?_
  unfold isCall at he
  split at he
  · rw [Bool.and_eq_true] at he
    rw [eval, bind_apply, hf _ he.1 k hk]
    simp only [bind_apply, hs _ he.2 k hk, Comparison.checkCall_ok harity, reporting, hcall k hk]
  · cases he

/-! ## Statements -/

theorem completes_expression (h : Evaluates p n m v m₁) :
    Completes (isExpression p) (n + 1) m .normal { m₁ with lastValue := v } := by
  refine Ensures.step fun s hs k hk => ?_
  unfold isExpression at hs
  split at hs
  · rw [exec, bind_apply, h _ hs k hk]
    rfl
  · cases hs

theorem completes_varDecl (h : Evaluates p n m v m₁) :
    Completes (isVarDecl name p) (n + 1) m .normal
      { m₁ with frames := m₁.frames.define m₁.env name v } := by
  refine Ensures.step fun s hs k hk => ?_
  unfold isVarDecl at hs
  split at hs
  · simp only [Bool.and_eq_true, beq_iff_eq] at hs
    obtain ⟨rfl, hs⟩ := hs
    simp only [exec, bind_apply, h _ hs k hk]
    rfl
  · cases hs

theorem completes_return (h : Evaluates p n m v m₁) :
    Completes (isReturn p) (n + 1) m (.returned v) m₁ := by
  refine Ensures.step fun s hs k hk => ?_
  unfold isReturn at hs
  split at hs
  · simp only [exec, bind_apply, h _ hs k hk]
    rfl
  · cases hs

theorem completes_then (h : Evaluates p n m v m₁) (hv : v.truthy = true)
    (ht : Completes t n m₁ c m₂) :
    Completes (isIf p t) (n + 1) m c m₂ := by
  refine Ensures.step fun s hs k hk => ?_
  unfold isIf at hs
  split at hs
  · rw [Bool.and_eq_true] at hs
    simp only [exec, bind_apply, h _ hs.1 k hk, hv, if_true]
    exact ht _ hs.2 k hk
  · cases hs

theorem completes_else (h : Evaluates p n m v m₁) (hv : v.truthy = false) :
    Completes (isIf p t) (n + 1) m .normal m₁ := by
  refine Ensures.step fun s hs k hk => ?_
  unfold isIf at hs
  split at hs
  · rw [Bool.and_eq_true] at hs
    simp only [exec, bind_apply, h _ hs.1 k hk, hv]
    rfl
  · cases hs

theorem completesAll_nil : CompletesAll [] (n + 1) m .normal m := by
  refine Ensures.step fun ss hss k hk => ?_
  cases ss with
  | nil => rw [execAll]; rfl
  | cons => cases hss

theorem completesAll_cons (h : Completes t n m .normal m₁) (hs : CompletesAll ts n m₁ c m₂) :
    CompletesAll (t :: ts) (n + 1) m c m₂ := by
  refine Ensures.step fun ss hss k hk => ?_
  cases ss with
  | nil => cases hss
  | cons s ss =>
      rw [fits, Bool.and_eq_true] at hss
      simp only [execAll, bind_apply, h s hss.1 k hk, hs ss hss.2 k hk]

/-- What comes after a `return` is not run. -/
theorem completesAll_returned (h : Completes t n m (.returned v) m₁) :
    CompletesAll (t :: ts) (n + 1) m (.returned v) m₁ := by
  refine Ensures.step fun ss hss k hk => ?_
  cases ss with
  | nil => cases hss
  | cons s ss =>
      rw [fits, Bool.and_eq_true] at hss
      simp only [execAll, bind_apply, h s hss.1 k hk]
      rfl

/-- The machine in a new frame inside its environment. -/
def Machine.inside (m : Machine) (label : String) (outer : Env) : Machine :=
  { m with env := m.frames.size :: outer, frames := (m.frames.enter label outer).2 }

/-- A block runs in a new frame, and comes back. -/
theorem completes_block (h : CompletesAll ts n (m.inside "block" m.env) c m₁) :
    Completes (isBlock ts) (n + 1) m c { m₁ with env := m.env } := by
  refine Ensures.step fun s hs k hk => ?_
  unfold isBlock at hs
  split at hs
  · next body =>
      have hbody : execAll k body { m with
          env := (m.frames.enter "block" m.env).1
          frames := (m.frames.enter "block" m.env).2 } = .ok c m₁ := h body hs k hk
      simp only [exec, bind_apply, environment, enter, within, hbody]
  · cases hs

/-- A loop ends when its condition does not hold. -/
theorem loops_done (h : Evaluates p n m v m₁) (hv : v.truthy = false) :
    Loops p t (n + 1) m .normal m₁ := by
  refine Ensures.step fun x hx k hk => ?_
  simp only [Bool.and_eq_true] at hx
  simp only [loop, bind_apply, h _ hx.1 k hk, hv]
  rfl

/-- A loop whose condition holds runs its body and goes on. -/
theorem loops_round (h : Evaluates p n m v m₁) (hv : v.truthy = true)
    (hbody : Completes t n m₁ .normal m₂) (hloop : Loops p t n m₂ c m₃) :
    Loops p t (n + 1) m c m₃ := by
  refine Ensures.step fun x hx k hk => ?_
  have hrest := hloop x hx k hk
  simp only [Bool.and_eq_true] at hx
  simp only [loop, bind_apply, h _ hx.1 k hk, hv, if_true, hbody _ hx.2 k hk, hrest]

theorem completes_while (h : Loops p t n m c m₁) : Completes (isWhile p t) (n + 1) m c m₁ := by
  refine Ensures.step fun s hs k hk => ?_
  unfold isWhile at hs
  split at hs
  · next e s =>
      rw [exec]
      exact h (e, s) hs k hk
  · cases hs

/-! ## Calls -/

/-- The machine in the body of a function, with the arguments bound to the parameters. -/
def Machine.calling (m : Machine) (c : Closure) (vs : List Value) : Machine :=
  { m with
    env := m.frames.size :: c.env
    frames := (m.frames.enter ("call " ++ c.name) c.env).2.defineAll (m.frames.size :: c.env)
      ((c.declaration.params.map (·.lexeme)).zip vs) }

/-- A call of a function comes back with what its body returned. -/
theorem call_function {id : Nat} {f : Closure} {vs : List Value} (hf : f.isInitializer = false)
    (hbody : fits ts f.declaration.body = true) (h : CompletesAll ts n (m.calling f vs) c m₁) :
    ∀ k, n < k → Eval.call k (.function id f) vs m = .ok c.value { m₁ with env := m.env } := by
  intro k hk
  obtain ⟨k, rfl⟩ := Nat.exists_eq_add_of_le' (Nat.lt_of_le_of_lt n.zero_le hk)
  have hrun : execAll k f.declaration.body (m.calling f vs) = .ok c m₁ :=
    h _ hbody k (Nat.le_of_lt_succ hk)
  rw [Machine.calling] at hrun
  simp only [Eval.call, bind_apply, Comparison.callEnv_eq, within, Frames.env_enter,
    Opening.initial, hrun, callValue, hf]
  rfl

end

end Lox
