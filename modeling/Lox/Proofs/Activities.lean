import Lox.Eval.Run

/-!
# What a run does on its way

The evaluator is a recursion, and each of its calls is an activity: a budget, a task
and the machine it starts from. That a frame was made for a scope is an activity too.
`visits` lists the activities of a run, itself included, along the recursion of the
evaluator. It is how statements about every moment of a run are made, also of a run
that is aborted.
-/

namespace Lox

/-- What a frame is made for: a block, the call of a function, the superclass of a
class, or the receiver of a method. -/
inductive Opening where
  | block (body : List (Stmt Slot))
  | call (f : FunDecl Slot)
  | superclass (declaration : Stmt Slot)
  | receiver (method : FunDecl Slot)

/-- The names that are bound as soon as the frame is made. -/
def Opening.initial : Opening → List String
  | block _ => []
  | call f => f.params.map (·.lexeme)
  | superclass _ => [superName]
  | receiver _ => [thisName]

/-- What the evaluator can be asked to do, or has just done: `opens` says that the
innermost frame of the environment was made. -/
inductive Task where
  | eval (e : Expr Slot)
  | evalAll (es : List (Expr Slot))
  | call (callee : Value) (arguments : List Value)
  | exec (s : Stmt Slot)
  | execAll (body : List (Stmt Slot))
  | loop (condition : Expr Slot) (body : Stmt Slot)
  | unit (program : List (Stmt Slot))
  | opens (opening : Opening) (env : Env)

/-- One call of the recursion. -/
structure Activity where
  budget : Nat
  task : Task
  machine : Machine

/-- The machine that a step leaves. -/
def Result.machine {α : Type} : Result α → Machine
  | ok _ m => m
  | abort _ m => m

/-- Some activities that begin with a machine. -/
abbrev Visits := Machine → Activity → Prop

namespace Visits

variable {α : Type}

/-- No activities. -/
def none : Visits := fun _ _ => False

/-- A single activity. -/
def one (budget : Nat) (task : Task) : Visits := fun m a => a = ⟨budget, task, m⟩

/-- The activities after a step that succeeds. -/
def after (x : Eval α) (f : α → Visits) : Visits := fun m a =>
  ∃ v m', x m = .ok v m' ∧ f v m' a

/-- The activities of a step, and those after it. -/
def andThen (first : Visits) (x : Eval α) (f : α → Visits) : Visits := fun m a =>
  first m a ∨ after x f m a

/-- That a step has made a frame. -/
def opening (budget : Nat) (o : Opening) (x : Eval Env) : Visits :=
  after x fun env => one budget (.opens o env)

/-- The activities in another environment. -/
def within (env : Env) (inner : Visits) : Visits := fun m a =>
  inner { m with env := env } a

/-- Those activities, under a condition. -/
def given (p : Prop) (v : Visits) : Visits := fun m a => p ∧ v m a

end Visits

namespace Eval

/-- The method that a property stands for, if it stands for one. -/
def methodOf? (v : Value) (name : String) (m : Machine) : Option Method :=
  match v with
  | .object ref =>
    m.objects[ref]?.bind fun i =>
      match i.fields.find? name with
      | some _ => none
      | none => i.cls.findMethod? name
  | _ => none

/-- The method that `super` finds, with the receiver it finds. -/
def superMethodOf? (name : String) (slot : Slot) (m : Machine) : Option (Method × Value) :=
  slot.bind fun distance =>
    match m.frames.getAt m.env distance superName, m.frames.getAt m.env (distance - 1) thisName with
    | .ok (.cls c), .ok receiver => (c.findMethod? name).map (·, receiver)
    | _, _ => none

/-- The environment of a method as a method of `receiver`. -/
def receiverEnv (c : Closure) (receiver : Value) : Eval Env := do
  let env ← enter ("bound " ++ c.name) c.env
  bindAll env [(thisName, receiver)]
  pure env

/-- The activities of binding a method. -/
def bindVisits (n : Nat) (method : Method) (receiver : Value) : Visits :=
  match method with
  | .closure c => .opening n (.receiver c.declaration) (receiverEnv c receiver)
  | .native _ => .none

/-- The activities inside one with budget `n + 1`, given those with budget `n`. -/
def visitsInside (n : Nat) (visits : Task → Visits) : Task → Visits
  | .eval (.grouping inner) => visits (.eval inner)
  | .eval (.assign _ _ value) => visits (.eval value)
  | .eval (.unary _ operand) => visits (.eval operand)
  | .eval (.binary left _ right) =>
    (visits (.eval left)).andThen (eval n left) fun _ => visits (.eval right)
  | .eval (.logical left operator right) =>
    (visits (.eval left)).andThen (eval n left) fun v =>
      .given (settles operator v = false) (visits (.eval right))
  | .eval (.conditional condition thenBranch elseBranch) =>
    (visits (.eval condition)).andThen (eval n condition) fun v =>
      visits (.eval (if v.truthy then thenBranch else elseBranch))
  | .eval (.call callee _ arguments) =>
    (visits (.eval callee)).andThen (eval n callee) fun f =>
      (visits (.evalAll arguments)).andThen (evalAll n arguments) fun vs =>
        .given (f.arity? = some vs.length) (visits (.call f vs))
  | .eval (.get object name) =>
    (visits (.eval object)).andThen (eval n object) fun v m a =>
      ∃ method, methodOf? v name.lexeme m = some method ∧ bindVisits n method v m a
  | .eval (.set object name value) =>
    (visits (.eval object)).andThen (eval n object) fun v =>
      .after (fieldOwner v name) fun _ => visits (.eval value)
  | .eval (.superRef _ method slot) => fun m a =>
    ∃ found receiver, superMethodOf? method.lexeme slot m = some (found, receiver) ∧
      bindVisits n found receiver m a
  | .eval (.vector _ elements) => visits (.evalAll elements)
  | .evalAll (e :: rest) =>
    (visits (.eval e)).andThen (eval n e) fun _ => visits (.evalAll rest)
  | .call (.function _ c) arguments =>
    (Visits.opening n (.call c.declaration) (callEnv c arguments)).andThen (callEnv c arguments)
      fun env => .within env (visits (.execAll c.declaration.body))
  | .call (.cls c) arguments =>
    .after (allocate c (if c.body.isVector then some #[] else none)) fun o =>
      match c.findMethod? initializerName with
      | none => .none
      | some method =>
        (bindVisits n method o).andThen (bindMethod method o) fun initializer =>
          visits (.call initializer arguments)
  | .exec (.expression e) => visits (.eval e)
  | .exec (.print e) => visits (.eval e)
  | .exec (.varDecl _ (some e)) => visits (.eval e)
  | .exec (.block body) =>
    .after environment fun outer =>
      (Visits.opening n (.block body) (enter "block" outer)).andThen (enter "block" outer)
        fun env => .within env (visits (.execAll body))
  | .exec (.ifThen condition thenBranch) =>
    (visits (.eval condition)).andThen (eval n condition) fun v =>
      .given (v.truthy = true) (visits (.exec thenBranch))
  | .exec (.ifElse condition thenBranch elseBranch) =>
    (visits (.eval condition)).andThen (eval n condition) fun v =>
      visits (.exec (if v.truthy then thenBranch else elseBranch))
  | .exec (.whileLoop condition body) => visits (.loop condition body)
  | .exec (.ret _ (some e)) => visits (.eval e)
  | .exec (.classDecl name (some parent) methods) =>
    (Visits.one n (.eval (.var parent.name parent.slot))).andThen (superclassOf (some parent))
      fun c => .after (define name.lexeme .unassigned) fun _ =>
        .opening n (.superclass (.classDecl name (some parent) methods)) (methodEnv c)
  | .execAll (s :: rest) =>
    (visits (.exec s)).andThen (exec n s) fun
      | .normal => visits (.execAll rest)
      | .returned _ => .none
  | .loop condition body =>
    (visits (.eval condition)).andThen (eval n condition) fun v =>
      .given (v.truthy = true) <| (visits (.exec body)).andThen (exec n body) fun
        | .normal => visits (.loop condition body)
        | .returned _ => .none
  | .unit (s :: rest) =>
    (visits (.exec s)).andThen (exec n s) fun _ => visits (.unit rest)
  | _ => .none

/-- The activities of an activity, itself included. -/
def visits : Nat → Task → Visits
  | 0, t => fun m a => a = ⟨0, t, m⟩
  | n + 1, t => fun m a => a = ⟨n + 1, t, m⟩ ∨ visitsInside n (visits n) t m a

end Eval
end Lox
