import Lox.Proofs.Scoping.Places
import Lox.Proofs.Simulation.Operations
import Lox.Proofs.Vacancy.Chronicles

/-!
# Judgements about the steps of a run

Much of what is proved about runs has one form. A step that begins with a machine of some kind
leaves one of that kind, its value is of some kind too, and so are the activities that it visits
or the moments of its chronicle. A judgement is one such form, with the laws that it obeys: how
it goes from steps to their composition, and what it says of the operations of the evaluator.
Nothing in it mentions the recursion of the evaluator, so that is gone through once, for all
judgements.

What is known grows along a run, for example with the frames that are made, and is kept in a
world.
-/

namespace Lox

open Eval

/-! ## Parts of tasks -/

namespace Task

/-- The tasks right inside a task that begin in its environment. -/
def parts : Task → List Task
  | .eval (.call callee _ arguments) => [.eval callee, .evalAll arguments]
  | .eval (.vector _ elements) => [.evalAll elements]
  | .eval e => e.parts.map .eval
  | .evalAll (e :: rest) => [.eval e, .evalAll rest]
  | .exec (.expression e) => [.eval e]
  | .exec (.print e) => [.eval e]
  | .exec (.varDecl _ initializer) => initializer.toList.map .eval
  | .exec (.ifThen condition thenBranch) => [.eval condition, .exec thenBranch]
  | .exec (.ifElse condition thenBranch elseBranch) =>
    [.eval condition, .exec thenBranch, .exec elseBranch]
  | .exec (.whileLoop condition body) => [.loop condition body]
  | .exec (.ret _ value) => value.toList.map .eval
  | .exec (.classDecl _ superclass _) => superclass.toList.map fun r => .eval (.var r.name r.slot)
  | .execAll (s :: rest) => [.exec s, .execAll rest]
  | .loop condition body => [.eval condition, .exec body]
  | .unit (s :: rest) => [.exec s, .unit rest]
  | _ => []

/-- The values that the task is given are all `Q`. A frame that was made is nothing to do. -/
def Takes (Q : Value → Prop) : Task → Prop
  | .call callee arguments => Q callee ∧ ∀ v ∈ arguments, Q v
  | .opens _ _ => False
  | _ => True

theorem Takes.imp {Q Q' : Value → Prop} {t : Task} (h : t.Takes Q) (hQ : ∀ v, Q v → Q' v) :
    t.Takes Q' := by
  cases t with
  | call f vs => exact ⟨hQ f h.1, fun v hv => hQ v (h.2 v hv)⟩
  | opens o E => exact h
  | _ => exact trivial

/-- A task is given values only by a call, which is no part of another. -/
theorem takes_part {Q : Value → Prop} {t t' : Task} (h : t' ∈ t.parts) : t'.Takes Q := by
  revert t'
  cases t with
  | eval e => cases e <;> simp [parts, Expr.parts, Takes]
  | evalAll es => cases es <;> simp [parts, Takes]
  | exec s => cases s <;> simp [parts, Takes]
  | execAll ss => cases ss <;> simp [parts, Takes]
  | unit ss => cases ss <;> simp [parts, Takes]
  | loop | call | opens => simp [parts, Takes]

/-- Are all variables, instances and texts left to what is inside the task? -/
def isRoutine : Task → Bool
  | .eval (.assign _ _ _) => false
  | .eval (.vector _ _) => false
  | .call (.native _ _) _ => false
  | .call (.nativeMethod _ _ _) _ => false
  | .call (.cls _) _ => false
  | .exec (.print _) => false
  | .exec (.varDecl _ _) => false
  | .exec (.function _) => false
  | .exec (.classDecl _ _ _) => false
  | _ => true

end Task

/-! ## Small steps -/

/-- An instance that a class makes has no values in it yet. -/
theorem forall_mem_new {P : Value → Prop} {b : Bool} (us : Array Value)
    (h : (if b then some #[] else none) = some us) : ∀ v ∈ us, P v := by
  split at h
  · cases h
    exact fun v hv => absurd hv (Array.not_mem_empty v)
  · cases h

/-- A literal has the values of its expressions in it. -/
theorem forall_mem_literal {P : Value → Prop} {vs : List Value} (hvs : ∀ v ∈ vs, P v)
    (us : Array Value) (h : some vs.toArray = some us) : ∀ v ∈ us, P v := by
  cases h
  exact fun v hv => hvs v (List.mem_toArray.mp hv)

/-- The expression that looks up a superclass leaves the machine as it is. -/
theorem eval_var_machine (n : Nat) (name : Token) (slot : Slot) (m : Machine) :
    (eval n (.var name slot) m).machine = m := by
  cases n with
  | zero => rw [eval_zero]; rfl
  | succ n => rw [eval, Comparison.lookUp_machine]

/-! ## What is visited, and when -/

namespace Visits

variable {α : Type}

@[simp]
theorem andThen_none (v : Visits) (x : Eval α) : v.andThen x (fun _ => .none) = v := by
  funext m a
  refine propext (or_iff_left ?_)
  rintro ⟨_, _, _, h⟩
  exact h

@[simp]
theorem none_andThen (x : Eval α) (f : α → Visits) : none.andThen x f = .after x f :=
  funext fun _ => funext fun _ => propext (or_iff_right id)

/-- After a step that succeeds there is what follows it. -/
theorem after_of_ok {x : Eval α} {m m' : Machine} {v : α} (h : x m = .ok v m')
    (f : α → Visits) : after x f m = f v m' := by
  funext a
  refine propext ⟨?_, fun ha => ⟨v, m', h, ha⟩⟩
  rintro ⟨u, m₁, heq, ha⟩
  rw [h] at heq
  cases heq
  exact ha

theorem given_of {p : Prop} (hp : p) (v : Visits) : given p v = v :=
  funext fun _ => funext fun _ => propext (and_iff_right hp)

theorem given_of_not {p : Prop} (hp : ¬ p) (v : Visits) : given p v = none :=
  funext fun _ => funext fun _ => propext (iff_of_false (fun h => hp h.1) id)

end Visits

namespace Chronicle

variable {α : Type}

@[simp]
theorem andThen_none (c : Chronicle) (x : Eval α) : c.andThen x (fun _ => .none) = c := by
  funext m
  rw [andThen, after]
  split <;> exact List.append_nil _

theorem given_of {p : Prop} [Decidable p] (hp : p) (c : Chronicle) : given p c = c :=
  funext fun _ => if_pos hp

theorem given_of_not {p : Prop} [Decidable p] (hp : ¬ p) (c : Chronicle) : given p c = none :=
  funext fun _ => if_neg hp

end Chronicle

/-! ## Ends of steps -/

/-- The reasons for which an expression or a statement is aborted. That a variable is
not where its distance says is not ruled out here. -/
def Abort.Passes : Abort → Prop
  | .failure _ => False
  | .fault f => f.IsMiss ∨ f = .notVector
  | _ => True

/-- A call may also be aborted by the failure of a native function. -/
def Abort.LeavesCall : Abort → Prop
  | .failure _ => True
  | r => r.Passes

theorem Abort.Passes.leavesCall {r : Abort} (h : r.Passes) : r.LeavesCall := by
  cases r with
  | failure message => exact trivial
  | _ => exact h

/-- A value that is a `Q`, or one of the reasons `R`. -/
def Result.Meets {α : Type} (R : Abort → Prop) (Q : α → Prop) : Result α → Prop
  | .ok v _ => Q v
  | .abort r _ => R r

/-! ## Judgements -/

/-- What is said of the steps of a run. -/
structure Judgement where
  World : Type
  /-- The second world knows all that the first does. -/
  Later : World → World → Prop
  Machine : World → Lox.Machine → Prop
  Value : World → Lox.Value → Prop
  /-- The task may begin in the environment. -/
  Begins : World → Env → Task → Prop
  /-- Nothing more is to be said of the moment in which the task completes. -/
  Plain : Task → Prop
  /-- From the machine, with these visits and moments, the step gives a value of the kind, or is
  aborted for one of the reasons. -/
  Step {α : Type} : World → Visits → Chronicle → (Abort → Prop) → (World → α → Prop) → Eval α →
    Lox.Machine → Prop
  value_later {w w' : World} {v : Lox.Value} : Later w w' → Value w v → Value w' v
  constant (w : World) (c : Constant) : Value w c.toValue
  part {w : World} {E : Env} {t t' : Task} : Begins w E t → t' ∈ t.parts → Begins w E t'
  callable {w : World} {m : Lox.Machine} {f : Lox.Value} {vs : List Lox.Value} :
    Machine w m → Value w f → (∀ v ∈ vs, Value w v) → f.arity? = some vs.length →
      Begins w m.env (.call f vs)
  /-- In the environment of a function the machine is of the kind too. -/
  at_env {w : World} {E : Env} {m : Lox.Machine} {body : List (Stmt Slot)} :
    Machine w m → Begins w E (.execAll body) → Machine w { m with env := E }
  congr {α : Type} {w : World} {vis vis' : Visits} {chr chr' : Chronicle} {R : Abort → Prop}
    {Q : World → α → Prop} {x y : Eval α} {m : Lox.Machine} :
    Step w vis chr R Q x m → y m = x m → vis' m = vis m → chr' m = chr m →
      Step w vis' chr' R Q y m
  imp {α : Type} {w : World} {vis : Visits} {chr : Chronicle} {R R' : Abort → Prop}
    {Q Q' : World → α → Prop} {x : Eval α} {m : Lox.Machine} :
    Machine w m → (∀ r, R r → R' r) → (∀ w' v, Later w w' → Q w' v → Q' w' v) →
      Step w vis chr R Q x m → Step w vis chr R' Q' x m
  stays {α : Type} {w : World} {R : Abort → Prop} {Q : World → α → Prop} {x : Eval α}
    {m : Lox.Machine} :
    Machine w m → (x m).machine = m → (x m).Meets R (Q w) → Step w .none .none R Q x m
  sequence {α β : Type} {w : World} {vis : Visits} {chr : Chronicle} {R : Abort → Prop}
    {P : World → β → Prop} {Q : World → α → Prop} {y : Eval β} {f : β → Eval α}
    {next : β → Visits} {next' : β → Chronicle} {m : Lox.Machine} :
    Machine w m → Step w vis chr R P y m →
      (∀ b m₁ w₁, Later w w₁ → Machine w₁ m₁ →
        (∀ t, Begins w m.env t → Begins w₁ m₁.env t) → P w₁ b →
        Step w₁ (next b) (next' b) R Q (f b) m₁) →
      Step w (vis.andThen y next) (chr.andThen y next') R Q (y >>= f) m
  within {α : Type} {w : World} {vis : Visits} {chr : Chronicle} {R : Abort → Prop}
    {Q : World → α → Prop} {x : Eval α} {E : Env} {m : Lox.Machine} :
    Machine w m → Step w vis chr R Q x { m with env := E } →
      Step w (.within E vis) (.within E chr) R Q (Eval.within E x) m
  /-- The failure of a native function leaves a call, but not the expression around it. -/
  reporting {α : Type} {w : World} {vis : Visits} {chr : Chronicle} {Q : World → α → Prop}
    {x : Eval α} {t : Token} {m : Lox.Machine} :
    Step w vis chr Abort.LeavesCall Q x m →
      Step w vis chr Abort.Passes Q (Eval.reporting t x) m
  /-- An activity is visited itself, and has two moments of its own. -/
  self {α : Type} {w : World} {n : Nat} {t : Task} {R : Abort → Prop} {Q : World → α → Prop}
    {g : α → List Lox.Value} {x : Eval α} {m : Lox.Machine} :
    Plain t → Machine w m → Begins w m.env t → perform (n + 1) t m = (x m).map g →
      (∀ w' v, Q w' v → ∀ u ∈ g v, Value w' u) →
      Step w (visitsInside n (visits n) t) (chronicleInside n (chronicle n) t) R Q x m →
      Step w (visits (n + 1) t) (chronicle (n + 1) t) R Q x m
  spent {α : Type} {w : World} {t : Task} {R : Abort → Prop} {Q : World → α → Prop}
    {m : Lox.Machine} :
    t.isOpening = false → Machine w m → Begins w m.env t → R .spent →
      Step w (visits 0 t) (chronicle 0 t) R Q (Eval.spent : Eval α) m
  lookUp {w : World} {m : Lox.Machine} (name : Token) (slot : Slot) :
    Machine w m → Step w .none .none Abort.Passes Value (Eval.lookUp name slot) m
  getProperty {w : World} {m : Lox.Machine} (n : Nat) {v : Lox.Value} (name : Token) :
    Machine w m → Value w v →
      Step w (Comparison.propertyVisits n v name.lexeme) .none Abort.Passes Value
        (Eval.getProperty v name) m
  setField {w : World} {m : Lox.Machine} (ref : Nat) (name : String) {v : Lox.Value} :
    Machine w m → Value w v →
      Step w .none .none Abort.Passes (fun _ _ => True) (Eval.setField ref name v) m
  superMethod {w : World} {m : Lox.Machine} (n : Nat) {keyword method : Token} {slot : Slot} :
    Machine w m → Begins w m.env (.eval (.superRef keyword method slot)) →
      Step w (Comparison.superVisits n method.lexeme slot) .none Abort.Passes Value
        (Eval.superMethod method slot) m
  callEnv {w : World} {m : Lox.Machine} (n : Nat) {id : Nat} {c : Closure}
    {vs : List Lox.Value} :
    Machine w m → Begins w m.env (.call (.function id c) vs) →
      Step w (.opening n (.call c.declaration) (Eval.callEnv c vs)) .none Abort.LeavesCall
        (fun w' E => Begins w' E (.execAll c.declaration.body)) (Eval.callEnv c vs) m
  receiver {w : World} {m : Lox.Machine} (E : Env) :
    Machine w m → Step w .none .none Abort.LeavesCall Value (getAt E 0 thisName) m
  setLastValue {w : World} {m : Lox.Machine} {v : Lox.Value} :
    Machine w m → Value w v →
      Step w .none .none Abort.Passes (fun _ _ => True) (Eval.setLastValue v) m
  block {w : World} {m : Lox.Machine} (n : Nat) {body : List (Stmt Slot)} :
    Machine w m → Begins w m.env (.exec (.block body)) →
      Step w (.opening n (.block body) (enter "block" m.env)) .none Abort.Passes
        (fun w' E => Begins w' E (.execAll body)) (enter "block" m.env) m

namespace Judgement

variable (J : Judgement)

/-- What a step can rely on that follows another. -/
structure Follows (w : J.World) (m : Lox.Machine) (w₁ : J.World) (m₁ : Lox.Machine) : Prop where
  later : J.Later w w₁
  machine : J.Machine w₁ m₁
  begins : ∀ t, J.Begins w m.env t → J.Begins w₁ m₁.env t

section

variable {α β : Type} {w : J.World} {vis : Visits} {chr : Chronicle} {R : Abort → Prop}
  {P : J.World → β → Prop} {Q : J.World → α → Prop} {x : Eval α} {y : Eval β} {f : β → Eval α}
  {next : β → Visits} {next' : β → Chronicle} {m : Lox.Machine}

/-! ## Steps one after the other -/

protected theorem andThen (hm : J.Machine w m) (h : J.Step w vis chr R P y m)
    (hf : ∀ b m₁ w₁, J.Follows w m w₁ m₁ → P w₁ b → J.Step w₁ (next b) (next' b) R Q (f b) m₁) :
    J.Step w (vis.andThen y next) (chr.andThen y next') R Q (y >>= f) m :=
  J.sequence hm h fun b m₁ w₁ hw hm₁ hb hP => hf b m₁ w₁ ⟨hw, hm₁, hb⟩ hP

/-- The second step visits nothing. -/
protected theorem map (hm : J.Machine w m) (h : J.Step w vis chr R P y m)
    (hf : ∀ b m₁ w₁, J.Follows w m w₁ m₁ → P w₁ b → J.Step w₁ .none .none R Q (f b) m₁) :
    J.Step w vis chr R Q (y >>= f) m := by
  have hstep := J.andThen hm h hf
  rwa [Visits.andThen_none, Chronicle.andThen_none] at hstep

/-- The first step visits nothing. -/
protected theorem after (hm : J.Machine w m) (h : J.Step w .none .none R P y m)
    (hf : ∀ b m₁ w₁, J.Follows w m w₁ m₁ → P w₁ b → J.Step w₁ (next b) (next' b) R Q (f b) m₁) :
    J.Step w (.after y next) (.after y next') R Q (y >>= f) m := by
  have hstep := J.andThen hm h hf
  rwa [Visits.none_andThen] at hstep

/-- The first step makes a frame, which is no moment. -/
theorem opens (hm : J.Machine w m) (h : J.Step w vis .none R P y m)
    (hf : ∀ b m₁ w₁, J.Follows w m w₁ m₁ → P w₁ b → J.Step w₁ (next b) (next' b) R Q (f b) m₁) :
    J.Step w (vis.andThen y next) (.after y next') R Q (y >>= f) m :=
  J.andThen hm h hf

/-- The second step may make a frame, which is no moment. -/
theorem finds (hm : J.Machine w m) (h : J.Step w vis chr R P y m)
    (hf : ∀ b m₁ w₁, J.Follows w m w₁ m₁ → P w₁ b → J.Step w₁ (next b) .none R Q (f b) m₁) :
    J.Step w (vis.andThen y next) chr R Q (y >>= f) m := by
  have hstep := J.andThen hm h hf
  rwa [Chronicle.andThen_none] at hstep

protected theorem given {p : Prop} [Decidable p] (hp : p) (h : J.Step w vis chr R Q x m) :
    J.Step w (.given p vis) (.given p chr) R Q x m := by
  rwa [Visits.given_of hp, Chronicle.given_of hp]

theorem not_given {p : Prop} [Decidable p] (hp : ¬ p) (h : J.Step w .none .none R Q x m) :
    J.Step w (.given p vis) (.given p chr) R Q x m := by
  rwa [Visits.given_of_not hp, Chronicle.given_of_not hp]

/-! ## Operations that leave the machine as it is -/

protected theorem pure {v : α} (hm : J.Machine w m) (hv : Q w v) :
    J.Step w .none .none R Q (Pure.pure v) m :=
  J.stays hm rfl hv

protected theorem abort {r : Abort} (hm : J.Machine w m) (hr : R r) :
    J.Step w .none .none R Q (Eval.abort r) m :=
  J.stays hm rfl hr

protected theorem unaryOp (operator : Token) (v : Lox.Value) (hm : J.Machine w m) :
    J.Step w .none .none Abort.Passes J.Value (Eval.unaryOp operator v) m := by
  unfold Eval.unaryOp
  split
  · exact J.pure hm (J.constant w (.number _))
  · exact J.abort hm trivial
  · exact J.pure hm (J.constant w (.bool _))

protected theorem arithmetic (w : J.World) (kind : TokenKind) (a b : Float) :
    J.Value w (Eval.arithmetic kind a b) := by
  unfold Eval.arithmetic
  split
  · exact J.constant w (.number _)
  · exact J.constant w (.number _)
  · exact J.constant w (.number _)
  · exact J.constant w (.number _)
  · exact J.constant w (.bool _)
  · exact J.constant w (.bool _)
  · exact J.constant w (.bool _)
  · exact J.constant w (.bool _)
  · exact J.constant w .nil

protected theorem binaryOp (operator : Token) (u v : Lox.Value) (hm : J.Machine w m) :
    J.Step w .none .none Abort.Passes J.Value (Eval.binaryOp operator u v) m := by
  unfold Eval.binaryOp
  split
  · exact J.pure hm (J.constant w (.bool _))
  · exact J.pure hm (J.constant w (.bool _))
  · exact J.pure hm (J.constant w (.text _))
  · exact J.pure hm (J.arithmetic w _ _ _)
  · exact J.abort hm trivial
  · exact J.abort hm trivial

protected theorem fieldOwner (v : Lox.Value) (name : Token) (hm : J.Machine w m) :
    J.Step w .none .none Abort.Passes (fun _ _ => True) (Eval.fieldOwner v name) m := by
  cases v with
  | object ref => exact J.pure hm trivial
  | _ => exact J.abort hm trivial

/-- A call with a wrong number of arguments is refused. -/
theorem refuses {f : Lox.Value} {count : Nat} (h : f.arity? ≠ some count) (paren : Token)
    (g : Unit → Eval α) (hm : J.Machine w m) :
    J.Step w .none .none Abort.Passes Q (checkCall f count paren >>= g) m := by
  refine J.map (P := fun _ _ => False) hm ?_ fun _ _ _ _ hfalse => hfalse.elim
  unfold checkCall
  split
  · exact J.abort hm trivial
  · next harity =>
      rw [if_neg fun hcount => h (harity.trans (congrArg some hcount.symm))]
      exact J.abort hm trivial

protected theorem textOf (v : Lox.Value) (hm : J.Machine w m) :
    J.Step w .none .none R (fun _ _ => True) (Eval.textOf v) m := by
  refine J.stays hm ?_ ?_ <;> rw [textOf_eq]
  · rfl
  · exact trivial

/-- The completion returns nothing, or a value of the kind. -/
def Completion (w : J.World) (k : Lox.Completion) : Prop :=
  ∀ v ∈ k.values, J.Value w v

theorem callValue (c : Closure) {k : Lox.Completion} (hm : J.Machine w m)
    (hk : J.Completion w k) :
    J.Step w .none .none Abort.LeavesCall J.Value (Eval.callValue c k) m := by
  unfold Eval.callValue
  split
  · exact J.receiver c.env hm
  · cases k with
    | normal => exact J.pure hm (J.constant w .nil)
    | returned v => exact J.pure hm (hk v (.head _))

end

/-! ## Activities -/

section

variable {w : J.World} {n : Nat} {m : Lox.Machine} {e : Expr Slot} {s : Stmt Slot} {f : Lox.Value}
  {vs : List Lox.Value}

def Evaluates (w : J.World) (n : Nat) (e : Expr Slot) (m : Lox.Machine) : Prop :=
  J.Step w (visits n (.eval e)) (chronicle n (.eval e)) Abort.Passes J.Value (eval n e) m

def EvaluatesAll (w : J.World) (n : Nat) (es : List (Expr Slot)) (m : Lox.Machine) : Prop :=
  J.Step w (visits n (.evalAll es)) (chronicle n (.evalAll es)) Abort.Passes
    (fun w' vs => ∀ v ∈ vs, J.Value w' v) (evalAll n es) m

def Calls (w : J.World) (n : Nat) (f : Lox.Value) (vs : List Lox.Value) (m : Lox.Machine) : Prop :=
  J.Step w (visits n (.call f vs)) (chronicle n (.call f vs)) Abort.LeavesCall J.Value
    (call n f vs) m

def Executes (w : J.World) (n : Nat) (s : Stmt Slot) (m : Lox.Machine) : Prop :=
  J.Step w (visits n (.exec s)) (chronicle n (.exec s)) Abort.Passes J.Completion (exec n s) m

theorem expression (hplain : J.Plain (.eval e)) (hm : J.Machine w m)
    (h : J.Begins w m.env (.eval e))
    (hstep : J.Step w (visitsInside n (visits n) (.eval e))
      (chronicleInside n (chronicle n) (.eval e)) Abort.Passes J.Value (eval (n + 1) e) m) :
    J.Evaluates w (n + 1) e m :=
  J.self hplain hm h rfl (fun _ _ hv _ hu => List.mem_singleton.mp hu ▸ hv) hstep

theorem application (hplain : J.Plain (.call f vs)) (hm : J.Machine w m)
    (h : J.Begins w m.env (.call f vs))
    (hstep : J.Step w (visitsInside n (visits n) (.call f vs))
      (chronicleInside n (chronicle n) (.call f vs)) Abort.LeavesCall J.Value
      (call (n + 1) f vs) m) :
    J.Calls w (n + 1) f vs m :=
  J.self hplain hm h rfl (fun _ _ hv _ hu => List.mem_singleton.mp hu ▸ hv) hstep

theorem statement (hplain : J.Plain (.exec s)) (hm : J.Machine w m)
    (h : J.Begins w m.env (.exec s))
    (hstep : J.Step w (visitsInside n (visits n) (.exec s))
      (chronicleInside n (chronicle n) (.exec s)) Abort.Passes J.Completion (exec (n + 1) s) m) :
    J.Executes w (n + 1) s m :=
  J.self hplain hm h rfl (fun _ _ hk => hk) hstep

/-- A statement that ends with an operation. -/
theorem normally {α : Type} {vis : Visits} {chr : Chronicle} {R : Abort → Prop} {x : Eval α}
    (hm : J.Machine w m) (h : J.Step w vis chr R (fun _ _ => True) x m) :
    J.Step w vis chr R J.Completion (x >>= fun _ => Pure.pure .normal) m :=
  J.map hm h fun _ _ _ h₁ _ => J.pure h₁.machine fun _ hv => absurd hv List.not_mem_nil

end

/-! ## Activities that end with an operation of their own -/

section

variable {J} {w : J.World} {n : Nat} {m : Lox.Machine}

theorem assigns {name : Token} {slot : Slot} {value : Expr Slot}
    (hplain : J.Plain (.eval (.assign name slot value)))
    (hassign : ∀ {w : J.World} {m v}, J.Machine w m →
      J.Begins w m.env (.eval (.assign name slot value)) → J.Value w v →
      J.Step w .none .none Abort.Passes (fun _ _ => True) (assign name slot v) m)
    (hm : J.Machine w m) (h : J.Begins w m.env (.eval (.assign name slot value)))
    (hvalue : J.Evaluates w n value m) : J.Evaluates w (n + 1) (.assign name slot value) m := by
  refine J.expression hplain hm h ?_
  rw [eval]
  refine J.map hm hvalue fun v m₁ w₁ h₁ hv => ?_
  exact J.map h₁.machine (hassign h₁.machine (h₁.begins _ h) hv) fun _ m₂ w₂ h₂ _ =>
    J.pure h₂.machine (J.value_later h₂.later hv)

theorem makesVector {bracket : Token} {es : List (Expr Slot)}
    (hplain : J.Plain (.eval (.vector bracket es)))
    (hallocate : ∀ {w : J.World} {m} {vs : List Lox.Value}, J.Machine w m →
      (∀ v ∈ vs, J.Value w v) →
      J.Step w .none .none Abort.Passes J.Value
        (allocate m.vectorClass (some vs.toArray)) m)
    (hm : J.Machine w m) (h : J.Begins w m.env (.eval (.vector bracket es)))
    (hes : J.EvaluatesAll w n es m) : J.Evaluates w (n + 1) (.vector bracket es) m := by
  refine J.expression hplain hm h ?_
  rw [eval]
  exact J.map hm hes fun vs m₁ w₁ h₁ hvs =>
    J.congr (hallocate h₁.machine hvs) rfl rfl rfl

theorem runsNative {id : Nat} {f : Native} {vs : List Lox.Value}
    (hplain : J.Plain (.call (.native id f) vs))
    (hrun : J.Step w .none .none Abort.LeavesCall J.Value (runFunction f vs) m)
    (hm : J.Machine w m) (h : J.Begins w m.env (.call (.native id f) vs)) :
    J.Calls w (n + 1) (.native id f) vs m := by
  refine J.application hplain hm h ?_
  rw [call]
  exact hrun

theorem runsNativeMethod {id : Nat} {f : Native} {receiver : Lox.Value} {vs : List Lox.Value}
    (hplain : J.Plain (.call (.nativeMethod id f receiver) vs))
    (hrun : J.Step w .none .none Abort.LeavesCall J.Value (runMethod f receiver vs) m)
    (hm : J.Machine w m) (h : J.Begins w m.env (.call (.nativeMethod id f receiver) vs)) :
    J.Calls w (n + 1) (.nativeMethod id f receiver) vs m := by
  refine J.application hplain hm h ?_
  rw [call]
  exact hrun

/-- The call of a class gives the instance that it made, whatever the initializer returns. -/
theorem constructs {c : Class} {vs : List Lox.Value} (Made : J.World → Lox.Value → Prop)
    (hplain : J.Plain (.call (.cls c) vs))
    (hallocate : J.Step w .none .none Abort.LeavesCall Made
      (allocate c (if c.body.isVector then some #[] else none)) m)
    (hmade : ∀ {w' o}, Made w' o → J.Value w' o)
    (hbind : ∀ {o m₁ w₁ method}, J.Follows w m w₁ m₁ → Made w₁ o →
      c.findMethod? initializerName = some method →
      J.Step w₁ (bindVisits n method o) .none Abort.LeavesCall
        (fun w' f => ∀ m', J.Machine w' m' → J.Begins w' m'.env (.call f vs))
        (bindMethod method o) m₁)
    (hm : J.Machine w m) (h : J.Begins w m.env (.call (.cls c) vs))
    (hcalls : ∀ {w₁ m₁ f}, J.Machine w₁ m₁ → J.Begins w₁ m₁.env (.call f vs) →
      J.Calls w₁ n f vs m₁) :
    J.Calls w (n + 1) (.cls c) vs m := by
  refine J.application hplain hm h ?_
  rw [call, visitsInside, chronicleInside]
  refine J.after hm hallocate fun o m₁ w₁ h₁ ho => ?_
  cases hfound : c.findMethod? initializerName with
  | none => exact J.pure h₁.machine (hmade ho)
  | some method =>
      refine J.opens h₁.machine (hbind h₁ ho hfound) fun f m₂ w₂ h₂ hf => ?_
      refine J.map h₂.machine (hcalls h₂.machine (hf _ h₂.machine)) fun _ m₃ w₃ h₃ _ => ?_
      exact J.pure h₃.machine (J.value_later h₃.later (J.value_later h₂.later (hmade ho)))

theorem prints {e : Expr Slot} (hplain : J.Plain (.exec (.print e)))
    (hprint : ∀ {w : J.World} {m} text, J.Machine w m →
      J.Step w .none .none Abort.Passes (fun _ _ => True) (print text) m)
    (hm : J.Machine w m) (h : J.Begins w m.env (.exec (.print e)))
    (he : J.Evaluates w n e m) : J.Executes w (n + 1) (.print e) m := by
  refine J.statement hplain hm h ?_
  rw [exec]
  refine J.map hm he fun v m₁ w₁ h₁ _ => ?_
  refine J.map h₁.machine (J.textOf v h₁.machine) fun text m₂ w₂ h₂ _ => ?_
  exact J.normally h₂.machine (hprint text h₂.machine)

theorem declares {name : Token} {initializer : Option (Expr Slot)}
    (hplain : J.Plain (.exec (.varDecl name initializer)))
    (hnothing : J.Value w .unassigned)
    (hdefine : ∀ {w : J.World} {m v}, J.Machine w m →
      J.Begins w m.env (.exec (.varDecl name initializer)) → J.Value w v →
      J.Step w .none .none Abort.Passes (fun _ _ => True) (define name.lexeme v) m)
    (hm : J.Machine w m) (h : J.Begins w m.env (.exec (.varDecl name initializer)))
    (he : ∀ e ∈ initializer, J.Evaluates w n e m) :
    J.Executes w (n + 1) (.varDecl name initializer) m := by
  refine J.statement hplain hm h ?_
  cases initializer with
  | none =>
      rw [exec]
      exact J.normally hm (hdefine hm h hnothing)
  | some e =>
      rw [exec]
      exact J.map hm (he e rfl) fun v m₁ w₁ h₁ hv =>
        J.normally h₁.machine (hdefine h₁.machine (h₁.begins _ h) hv)

theorem declaresFunction {f : FunDecl Slot} (hplain : J.Plain (.exec (.function f)))
    (hm : J.Machine w m) (h : J.Begins w m.env (.exec (.function f)))
    (hdefine : J.Step w .none .none Abort.Passes (fun _ _ => True)
      (freshId >>= fun id => define f.name.lexeme (.function id ⟨f, m.env, false⟩)) m) :
    J.Executes w (n + 1) (.function f) m := by
  refine J.statement hplain hm h ?_
  rw [exec]
  exact J.congr (J.normally hm hdefine) rfl rfl rfl

theorem declaresClass {name : Token} {superclass : Option (Reference Slot)}
    {methods : List (FunDecl Slot)} (hplain : J.Plain (.exec (.classDecl name superclass methods)))
    (hm : J.Machine w m) (h : J.Begins w m.env (.exec (.classDecl name superclass methods)))
    (hdeclare : J.Step w (visitsInside n (visits n) (.exec (.classDecl name superclass methods)))
      (chronicleInside n (chronicle n) (.exec (.classDecl name superclass methods))) Abort.Passes
      (fun _ _ => True) (declareClass name superclass methods) m) :
    J.Executes w (n + 1) (.classDecl name superclass methods) m := by
  refine J.statement hplain hm h ?_
  rw [exec]
  exact J.normally hm hdeclare

end

end Judgement

end Lox
