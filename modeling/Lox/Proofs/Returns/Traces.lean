import Lox.Proofs.Activities

/-!
# What a body does itself, in its order

The trace of a task lists its activities one after the other, as the evaluator comes to
them. Calls are in it, but nothing that they do, so the trace of the body of a function
is what happens in that body and not in the functions it calls. A trace has exactly the
activities that are visited without going into a call.
-/

namespace Lox

/-- Activities in their order. -/
abbrev Trace := Machine → List Activity

namespace Trace

variable {α β : Type}

def none : Trace := fun _ => []

/-- A single activity. -/
def one (budget : Nat) (task : Task) : Trace := fun m => [⟨budget, task, m⟩]

/-- The activities after a step that succeeds. -/
def after (x : Eval α) (f : α → Trace) : Trace := fun m =>
  match x m with
  | .ok v m' => f v m'
  | .abort _ _ => []

/-- The activities of a step, and then those after it. -/
def andThen (first : Trace) (x : Eval α) (f : α → Trace) : Trace := fun m =>
  first m ++ after x f m

/-- That a step has made a frame. -/
def opening (budget : Nat) (o : Opening) (x : Eval Env) : Trace :=
  after x fun env => one budget (.opens o env)

/-- The activities in another environment. -/
def within (env : Env) (inner : Trace) : Trace := fun m => inner { m with env := env }

/-- Those activities, under a condition. -/
def given (p : Prop) [Decidable p] (t : Trace) : Trace := fun m => if p then t m else []

/-- The activities with what is found, if something is. -/
def found (o : Machine → Option β) (f : β → Trace) : Trace := fun m =>
  (o m).elim [] fun b => f b m

/-- The trace has the activities that are visited, and no others. -/
def Lists (t : Trace) (v : Visits) : Prop := ∀ m a, a ∈ t m ↔ v m a

/-- All activities of the trace are so. -/
def Every (P : Activity → Prop) (t : Trace) : Prop := ∀ m, ∀ a ∈ t m, P a

end Trace

/-- A call of a value. -/
def Task.isCall : Task → Bool
  | .call _ _ => true
  | _ => false

/-- A part of the evaluation of an expression. -/
def Task.isExpression : Task → Bool
  | .eval _ | .evalAll _ | .call _ _ | .opens _ _ => true
  | _ => false

namespace Eval

/-- That a method is bound. -/
def bindSteps (n : Nat) (method : Method) (receiver : Value) : Trace :=
  match method with
  | .closure c => .opening n (.receiver c.declaration) (receiverEnv c receiver)
  | .native _ => .none

/-- The trace inside of an activity with budget `n + 1`, given those with budget `n`.
There is none inside of a call. -/
def stepsInside (n : Nat) (steps : Task → Trace) : Task → Trace
  | .eval (.grouping inner) => steps (.eval inner)
  | .eval (.assign _ _ value) => steps (.eval value)
  | .eval (.unary _ operand) => steps (.eval operand)
  | .eval (.binary left _ right) =>
    (steps (.eval left)).andThen (eval n left) fun _ => steps (.eval right)
  | .eval (.logical left operator right) =>
    (steps (.eval left)).andThen (eval n left) fun v =>
      .given (settles operator v = false) (steps (.eval right))
  | .eval (.conditional condition thenBranch elseBranch) =>
    (steps (.eval condition)).andThen (eval n condition) fun v =>
      steps (.eval (if v.truthy then thenBranch else elseBranch))
  | .eval (.call callee _ arguments) =>
    (steps (.eval callee)).andThen (eval n callee) fun f =>
      (steps (.evalAll arguments)).andThen (evalAll n arguments) fun vs =>
        .given (f.arity? = some vs.length) (steps (.call f vs))
  | .eval (.get object name) =>
    (steps (.eval object)).andThen (eval n object) fun v =>
      .found (methodOf? v name.lexeme) fun method => bindSteps n method v
  | .eval (.set object name value) =>
    (steps (.eval object)).andThen (eval n object) fun v =>
      .after (fieldOwner v name) fun _ => steps (.eval value)
  | .eval (.superRef _ method slot) =>
    .found (superMethodOf? method.lexeme slot) fun x => bindSteps n x.1 x.2
  | .eval (.vector _ elements) => steps (.evalAll elements)
  | .evalAll (e :: rest) =>
    (steps (.eval e)).andThen (eval n e) fun _ => steps (.evalAll rest)
  | .exec (.expression e) => steps (.eval e)
  | .exec (.print e) => steps (.eval e)
  | .exec (.varDecl _ (some e)) => steps (.eval e)
  | .exec (.block body) =>
    .after environment fun outer =>
      (Trace.opening n (.block body) (enter "block" outer)).andThen (enter "block" outer)
        fun env => .within env (steps (.execAll body))
  | .exec (.ifThen condition thenBranch) =>
    (steps (.eval condition)).andThen (eval n condition) fun v =>
      .given (v.truthy = true) (steps (.exec thenBranch))
  | .exec (.ifElse condition thenBranch elseBranch) =>
    (steps (.eval condition)).andThen (eval n condition) fun v =>
      steps (.exec (if v.truthy then thenBranch else elseBranch))
  | .exec (.whileLoop condition body) => steps (.loop condition body)
  | .exec (.ret _ (some e)) => steps (.eval e)
  | .exec (.classDecl name (some parent) methods) =>
    (Trace.one n (.eval (.var parent.name parent.slot))).andThen (superclassOf (some parent))
      fun c => .after (define name.lexeme .unassigned) fun _ =>
        .opening n (.superclass (.classDecl name (some parent) methods)) (methodEnv c)
  | .execAll (s :: rest) =>
    (steps (.exec s)).andThen (exec n s) fun
      | .normal => steps (.execAll rest)
      | .returned _ => .none
  | .loop condition body =>
    (steps (.eval condition)).andThen (eval n condition) fun v =>
      .given (v.truthy = true) <| (steps (.exec body)).andThen (exec n body) fun
        | .normal => steps (.loop condition body)
        | .returned _ => .none
  | .unit (s :: rest) =>
    (steps (.exec s)).andThen (exec n s) fun _ => steps (.unit rest)
  | _ => .none

/-- The trace of a task, which itself comes first. -/
def steps : Nat → Task → Trace
  | 0, t => .one 0 t
  | n + 1, t => fun m => ⟨n + 1, t, m⟩ :: stepsInside n (steps n) t m

/-- The activities that are visited without going into a call. -/
def ownVisits : Nat → Task → Visits
  | 0, t => .one 0 t
  | n + 1, t => fun m a =>
    a = ⟨n + 1, t, m⟩ ∨ (t.isCall = false ∧ visitsInside n (ownVisits n) t m a)

end Eval

open Eval

/-! ## Traces and visits -/

namespace Trace

section

variable {α β : Type} {t : Trace} {v : Visits} {x : Eval α}

theorem lists_none : Lists none .none := fun _ _ => List.mem_nil_iff _

theorem lists_one (budget : Nat) (task : Task) : Lists (one budget task) (.one budget task) :=
  fun _ _ => List.mem_singleton

theorem lists_after {f : α → Trace} {g : α → Visits} (hf : ∀ b, Lists (f b) (g b)) :
    Lists (after x f) (.after x g) := by
  intro m a
  rw [after, Visits.after]
  cases x m with
  | ok b m₁ =>
      rw [hf b m₁ a]
      refine ⟨fun h => ⟨b, m₁, rfl, h⟩, ?_⟩
      rintro ⟨_, _, heq, h⟩
      cases heq
      exact h
  | abort r m₁ =>
      refine ⟨fun h => absurd h List.not_mem_nil, ?_⟩
      rintro ⟨_, _, heq, _⟩
      cases heq

theorem Lists.andThen (h : Lists t v) {f : α → Trace} {g : α → Visits}
    (hf : ∀ b, Lists (f b) (g b)) : Lists (t.andThen x f) (v.andThen x g) := by
  intro m a
  rw [Trace.andThen, List.mem_append, h m a, lists_after hf m a]
  exact Iff.rfl

theorem lists_opening (n : Nat) (o : Opening) (x : Eval Env) :
    Lists (opening n o x) (.opening n o x) :=
  lists_after fun _ => lists_one n _

theorem Lists.within (h : Lists t v) (E : Env) : Lists (within E t) (.within E v) :=
  fun m => h { m with env := E }

theorem Lists.given (h : Lists t v) (p : Prop) [Decidable p] :
    Lists (given p t) (.given p v) := by
  intro m a
  rw [Trace.given, Visits.given]
  split
  · next hp => rw [h m a, and_iff_right hp]
  · next hp => exact iff_of_false List.not_mem_nil fun ha => hp ha.1

theorem lists_found (o : Machine → Option β) {f : β → Trace} {g : β → Visits}
    (hf : ∀ b, Lists (f b) (g b)) :
    Lists (found o f) (fun m a => ∃ b, o m = some b ∧ g b m a) := by
  intro m a
  rw [found]
  cases ho : o m with
  | none =>
      refine iff_of_false List.not_mem_nil ?_
      rintro ⟨b, heq, _⟩
      rw [ho] at heq
      cases heq
  | some b =>
      refine (hf b m a).trans ⟨fun h => ⟨b, ho, h⟩, ?_⟩
      rintro ⟨_, heq, h⟩
      rw [ho] at heq
      cases heq
      exact h

end

end Trace

open Trace

theorem lists_bindSteps (n : Nat) (method : Method) (v : Value) :
    Lists (bindSteps n method v) (bindVisits n method v) := by
  cases method with
  | closure c => exact lists_opening n _ _
  | native f => exact lists_none

section

variable {n : Nat} {steps : Task → Trace} {visits : Task → Visits}

/-- Statements one after the other, until one returns. -/
theorem lists_completion (h : ∀ t, Lists (steps t) (visits t)) (t : Task) (k : Completion) :
    Lists (match k with | .normal => steps t | .returned _ => .none)
      (match k with | .normal => visits t | .returned _ => .none) := by
  cases k with
  | normal => exact h t
  | returned v => exact lists_none

theorem lists_stepsInside (h : ∀ t, Lists (steps t) (visits t)) {t : Task}
    (ht : t.isCall = false) : Lists (stepsInside n steps t) (visitsInside n visits t) := by
  cases t with
  | eval e =>
      cases e with
      | grouping | assign | unary | vector => exact h _
      | binary => exact (h _).andThen fun _ => h _
      | logical => exact (h _).andThen fun _ => (h _).given _
      | conditional => exact (h _).andThen fun _ => h _
      | call => exact (h _).andThen fun _ => (h _).andThen fun _ => (h _).given _
      | get => exact (h _).andThen fun _ => lists_found _ fun _ => lists_bindSteps n _ _
      | set => exact (h _).andThen fun _ => lists_after fun _ => h _
      | superRef keyword method slot =>
          intro m a
          have hbind : ∀ x : Method × Value, Lists (bindSteps n x.1 x.2) (bindVisits n x.1 x.2) :=
            fun x => lists_bindSteps n x.1 x.2
          exact (lists_found (superMethodOf? method.lexeme slot) hbind m a).trans Prod.exists
      | literal | var | thisRef => exact lists_none
  | evalAll es =>
      cases es with
      | nil => exact lists_none
      | cons => exact (h _).andThen fun _ => h _
  | call => cases ht
  | exec s =>
      cases s with
      | expression | print | whileLoop => exact h _
      | varDecl name initializer =>
          cases initializer with
          | none => exact lists_none
          | some e => exact h _
      | block body =>
          have hblock (outer : Env) := (lists_opening n (.block body) (enter "block" outer)).andThen
            (x := enter "block" outer) fun E => (h (.execAll body)).within E
          exact lists_after (x := environment) hblock
      | ifThen => exact (h _).andThen fun _ => (h _).given _
      | ifElse => exact (h _).andThen fun _ => h _
      | function => exact lists_none
      | ret keyword value =>
          cases value with
          | none => exact lists_none
          | some e => exact h _
      | classDecl name superclass methods =>
          cases superclass with
          | none => exact lists_none
          | some parent =>
              exact (lists_one n _).andThen fun _ => lists_after fun _ => lists_opening n _ _
  | execAll ss =>
      cases ss with
      | nil => exact lists_none
      | cons s rest => exact (h _).andThen fun k => lists_completion h (.execAll rest) k
  | loop c s =>
      exact (h _).andThen fun _ =>
        ((h _).andThen fun k => lists_completion h (.loop c s) k).given _
  | unit ss =>
      cases ss with
      | nil => exact lists_none
      | cons => exact (h _).andThen fun _ => h _
  | opens => exact lists_none

end

/-- The trace of a task has what is visited without going into a call. -/
theorem lists_steps (n : Nat) (t : Task) : Lists (Eval.steps n t) (ownVisits n t) := by
  induction n generalizing t with
  | zero => exact lists_one 0 t
  | succ n ih =>
      intro m a
      rw [Eval.steps, List.mem_cons, ownVisits]
      refine or_congr_right ?_
      -- inside of a call there is nothing, whatever it visits
      cases ht : t.isCall with
      | false =>
          rw [lists_stepsInside ih ht m a]
          exact (and_iff_right rfl).symm
      | true =>
          refine iff_of_false ?_ fun h => Bool.noConfusion h.1
          cases t with
          | call => exact List.not_mem_nil
          | _ => cases ht

/-! ## What holds of all activities of a trace -/

namespace Trace

section

variable {α β : Type} {P Q : Activity → Prop} {t : Trace} {x : Eval α}

theorem Every.imp (h : Every P t) (hPQ : ∀ a, P a → Q a) : Every Q t :=
  fun m a ha => hPQ a (h m a ha)

theorem every_none : Every P none := fun _ _ h => absurd h List.not_mem_nil

theorem every_one {budget : Nat} {task : Task} (h : ∀ m, P ⟨budget, task, m⟩) :
    Every P (one budget task) := by
  intro m a ha
  rw [List.mem_singleton.mp ha]
  exact h m

theorem every_after {f : α → Trace} (hf : ∀ b, Every P (f b)) : Every P (after x f) := by
  intro m a ha
  rw [after] at ha
  split at ha
  · exact hf _ _ a ha
  · exact absurd ha List.not_mem_nil

theorem Every.andThen (h : Every P t) {f : α → Trace} (hf : ∀ b, Every P (f b)) :
    Every P (t.andThen x f) := by
  intro m a ha
  rcases List.mem_append.mp ha with ha | ha
  · exact h m a ha
  · exact every_after hf m a ha

theorem every_opening {n : Nat} {o : Opening} {x : Eval Env}
    (h : ∀ E m, P ⟨n, .opens o E, m⟩) : Every P (opening n o x) :=
  every_after fun E => every_one (h E)

theorem Every.within (h : Every P t) (E : Env) : Every P (within E t) :=
  fun m => h { m with env := E }

theorem Every.given (h : Every P t) (p : Prop) [Decidable p] : Every P (given p t) := by
  intro m a ha
  rw [Trace.given] at ha
  split at ha
  · exact h m a ha
  · exact absurd ha List.not_mem_nil

theorem every_found {o : Machine → Option β} {f : β → Trace} (hf : ∀ b, Every P (f b)) :
    Every P (found o f) := by
  intro m a ha
  rw [found] at ha
  cases ho : o m with
  | none =>
      rw [ho] at ha
      exact absurd ha List.not_mem_nil
  | some b =>
      rw [ho] at ha
      exact hf b m a ha

end

end Trace

theorem every_bindSteps {P : Activity → Prop} {n : Nat} (h : ∀ o E m, P ⟨n, .opens o E, m⟩)
    (method : Method) (v : Value) : Every P (bindSteps n method v) := by
  cases method with
  | closure c => exact every_opening (h _)
  | native f => exact every_none

/-- What holds of a task holds of its trace, if it holds inside of it. -/
theorem every_steps_succ {P : Activity → Prop} {n : Nat} {t : Task}
    (ht : ∀ m, P ⟨n + 1, t, m⟩) (h : Every P (stepsInside n (Eval.steps n) t)) :
    Every P (Eval.steps (n + 1) t) := by
  intro m a ha
  rcases List.mem_cons.mp ha with rfl | ha
  · exact ht m
  · exact h m a ha

/-- An expression is evaluated by evaluating expressions. What it does else is done by
the functions that it calls. -/
theorem every_steps_expression (n : Nat) {t : Task} (ht : t.isExpression = true) :
    Every (·.task.isExpression = true) (Eval.steps n t) := by
  induction n generalizing t with
  | zero => exact every_one fun _ => ht
  | succ n ih =>
      have heval : ∀ e, Every (·.task.isExpression = true) (Eval.steps n (.eval e)) :=
        fun e => ih rfl
      have hevalAll : ∀ es, Every (·.task.isExpression = true) (Eval.steps n (.evalAll es)) :=
        fun es => ih rfl
      refine every_steps_succ (fun _ => ht) ?_
      cases t with
      | eval e =>
          cases e with
          | grouping | assign | unary => exact heval _
          | vector => exact hevalAll _
          | binary => exact (heval _).andThen fun _ => heval _
          | logical => exact (heval _).andThen fun _ => (heval _).given _
          | conditional => exact (heval _).andThen fun _ => heval _
          | call =>
              exact (heval _).andThen fun _ => (hevalAll _).andThen fun _ => (ih rfl).given _
          | get =>
              exact (heval _).andThen fun _ => every_found fun _ =>
                every_bindSteps (fun _ _ _ => rfl) _ _
          | set => exact (heval _).andThen fun _ => every_after fun _ => heval _
          | superRef => exact every_found fun _ => every_bindSteps (fun _ _ _ => rfl) _ _
          | literal | var | thisRef => exact every_none
      | evalAll es =>
          cases es with
          | nil => exact every_none
          | cons => exact (heval _).andThen fun _ => hevalAll _
      | call | opens => exact every_none
      | exec | execAll | loop | unit => cases ht

end Lox
