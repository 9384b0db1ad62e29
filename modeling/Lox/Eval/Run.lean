import Lox.Eval.Native

/-!
# Running resolved programs

The evaluator walks resolved trees. Every step of its recursion takes one from a
budget, which makes it total; a run that ends does not depend on how much is left.

A call runs the body of a function in a new frame inside the environment that the
function was declared in, not the one it is called from. `return` completes
statements on its way out until the call takes its value. An initializer gives its
instance, whatever its body returns.
-/

namespace Lox

namespace Value

/-- How many arguments a value takes, if it can be called. -/
def arity? : Value → Option Nat
  | function _ c => some c.arity
  | native _ n => some n.arity
  | nativeMethod _ n _ => some n.arity
  | cls c => some c.arity
  | _ => none

end Value

namespace Eval

/-! ## Operators -/

def unaryOp (operator : Token) (v : Value) : Eval Value :=
  match operator.kind, v with
  | .minus, .number x => pure (.number (-x))
  | .minus, _ => error .operandNotNumber operator
  | _, v => pure (.bool (!v.truthy))

/-- The result of an operator on two numbers, other than equality. -/
def arithmetic (kind : TokenKind) (x y : Float) : Value :=
  match kind with
  | .plus => .number (x + y)
  | .minus => .number (x - y)
  | .star => .number (x * y)
  | .slash => .number (x / y)
  | .greater => .bool (x > y)
  | .greaterEqual => .bool (x ≥ y)
  | .less => .bool (x < y)
  | .lessEqual => .bool (x ≤ y)
  | _ => .nil

def binaryOp (operator : Token) (left right : Value) : Eval Value :=
  match operator.kind, left, right with
  | .equalEqual, _, _ => pure (.bool (left.same right))
  | .bangEqual, _, _ => pure (.bool (!left.same right))
  | .plus, .text s, .text t => pure (.text (s ++ t))
  | kind, .number x, .number y => pure (arithmetic kind x y)
  | .plus, _, _ => error .badPlusOperands operator
  | _, _, _ => error .operandsNotNumbers operator

/-- Does an operator settle on its left operand? -/
def settles (operator : Token) (left : Value) : Bool :=
  if operator.kind = .orWord then left.truthy else !left.truthy

/-! ## Properties -/

/-- A property of an instance: its field of that name, or else the method of its
class, as a method of the instance. -/
def getProperty (v : Value) (name : Token) : Eval Value := do
  match ← instance? v with
  | none => error (.notAnInstance "properties") name
  | some (_, i) =>
    match i.fields.find? name.lexeme with
    | some field => pure field
    | none =>
      match i.cls.findMethod? name.lexeme with
      | some method => bindMethod method v
      | none => error .undefinedProperty name

/-- The place in the store of an instance whose field is to be set. -/
def fieldOwner (v : Value) (name : Token) : Eval Nat := do
  match v with
  | .object ref => pure ref
  | _ => error (.notAnInstance "fields") name

def setField (ref : Nat) (name : String) (v : Value) : Eval Unit :=
  modify ref fun i => { i with fields := i.fields.insert name v }

/-- The method that `super` finds, as a method of the current receiver. The frame
that binds the receiver lies just inside the one that binds the superclass. -/
def superMethod (method : Token) (slot : Slot) : Eval Value := do
  match slot with
  | none => fault .unresolvedSuper
  | some distance => do
    let env ← environment
    let superclass ← getAt env distance superName
    let receiver ← getAt env (distance - 1) thisName
    match superclass with
    | .cls c =>
      match c.findMethod? method.lexeme with
      | some found => bindMethod found receiver
      | none => error .undefinedProperty method
    | _ => fault .superNotClass

/-! ## Classes -/

/-- The superclass that a class declaration names. -/
def superclassOf (superclass : Option (Reference Slot)) : Eval (Option Class) := do
  match superclass with
  | none => pure none
  | some r => do
    match ← lookUp r.name r.slot with
    | .cls c => pure (some c)
    | _ => error .superclassNotClass r.name

/-- The environment of the methods of a class: in a class with a superclass there
is a frame that binds it. -/
def methodEnv (superclass : Option Class) : Eval Env := do
  let env ← environment
  match superclass with
  | none => pure env
  | some c => do
    let inner ← enter superName env
    bindAll inner [(superName, .cls c)]
    pure inner

/-- The methods of a class. Of two with one name the later counts. -/
def methodTable (env : Env) (methods : List (FunDecl Slot)) : Bindings Method :=
  methods.foldl
    (fun b f => b.insert f.name.lexeme
      (.closure ⟨f, env, f.name.lexeme == initializerName⟩)) []

/-- Runs a class declaration. The name is bound before the methods are made, so
that they can refer to their class, and gets the class at the end. -/
def declareClass (name : Token) (superclass : Option (Reference Slot))
    (methods : List (FunDecl Slot)) : Eval Unit := do
  let parent ← superclassOf superclass
  define name.lexeme .unassigned
  let env ← methodEnv parent
  let id ← freshId
  let body : ClassBody := ⟨id, name.lexeme, methodTable env methods, false⟩
  define name.lexeme
    (.cls (match parent with | none => .root body | some c => .derived body c))

/-! ## Calls -/

/-- Refuses a call of something that cannot be called, or not with so many
arguments. -/
def checkCall (callee : Value) (count : Nat) (paren : Token) : Eval Unit :=
  match callee.arity? with
  | none => error .notCallable paren
  | some arity =>
    if count = arity then pure () else error (.arityMismatch arity count) paren

/-- The frame of a call, with the arguments bound to the parameters. -/
def callEnv (c : Closure) (arguments : List Value) : Eval Env := do
  let env ← enter ("call " ++ c.name) c.env
  bindAll env ((c.declaration.params.map (·.lexeme)).zip arguments)
  pure env

/-- The value of a call whose body completed. -/
def callValue (c : Closure) (completion : Completion) : Eval Value :=
  if c.isInitializer then getAt c.env 0 thisName else pure completion.value

/-! ## Evaluation -/

mutual

/-- The value of an expression. -/
def eval : Nat → Expr Slot → Eval Value
  | 0, _ => spent
  | _ + 1, .literal value => pure value.toValue
  | n + 1, .grouping inner => eval n inner
  | _ + 1, .var name slot => lookUp name slot
  | n + 1, .assign name slot value => do
    let v ← eval n value
    assign name slot v
    pure v
  | n + 1, .unary operator operand => do
    let v ← eval n operand
    unaryOp operator v
  | n + 1, .binary left operator right => do
    let a ← eval n left
    let b ← eval n right
    binaryOp operator a b
  | n + 1, .logical left operator right => do
    let a ← eval n left
    if settles operator a then pure a else eval n right
  | n + 1, .conditional condition thenBranch elseBranch => do
    let v ← eval n condition
    if v.truthy then eval n thenBranch else eval n elseBranch
  | n + 1, .call callee paren arguments => do
    let f ← eval n callee
    let vs ← evalAll n arguments
    checkCall f vs.length paren
    reporting paren (call n f vs)
  | n + 1, .get object name => do
    let v ← eval n object
    getProperty v name
  | n + 1, .set object name value => do
    let o ← eval n object
    let ref ← fieldOwner o name
    let v ← eval n value
    setField ref name.lexeme v
    pure v
  | _ + 1, .thisRef keyword slot => lookUp keyword slot
  | _ + 1, .superRef _ method slot => superMethod method slot
  | n + 1, .vector _ elements => do
    let vs ← evalAll n elements
    fun m => allocate m.vectorClass (some vs.toArray) m

/-- The values of some expressions, from left to right. -/
def evalAll : Nat → List (Expr Slot) → Eval (List Value)
  | 0, _ => spent
  | _ + 1, [] => pure []
  | n + 1, e :: rest => do
    let v ← eval n e
    let vs ← evalAll n rest
    pure (v :: vs)

/-- The value of a call with arguments whose number was checked. -/
def call : Nat → Value → List Value → Eval Value
  | 0, _, _ => spent
  | n + 1, .function _ c, arguments => do
    let env ← callEnv c arguments
    let completion ← within env (execAll n c.declaration.body)
    callValue c completion
  | _ + 1, .native _ f, arguments => runFunction f arguments
  | _ + 1, .nativeMethod _ f receiver, arguments => runMethod f receiver arguments
  | n + 1, .cls c, arguments => do
    let o ← allocate c (if c.body.isVector then some #[] else none)
    match c.findMethod? initializerName with
    | none => pure o
    | some method => do
      let initializer ← bindMethod method o
      let _ ← call n initializer arguments
      pure o
  | _ + 1, _, _ => pure .nil

/-- Runs a statement. -/
def exec : Nat → Stmt Slot → Eval Completion
  | 0, _ => spent
  | n + 1, .expression e => do
    let v ← eval n e
    setLastValue v
    pure .normal
  | n + 1, .print e => do
    let v ← eval n e
    let text ← textOf v
    print text
    pure .normal
  | n + 1, .varDecl name initializer => do
    match initializer with
    | none => define name.lexeme .unassigned
    | some e => do
      let v ← eval n e
      define name.lexeme v
    pure .normal
  | n + 1, .block body => do
    let outer ← environment
    let env ← enter "block" outer
    within env (execAll n body)
  | n + 1, .ifThen condition thenBranch => do
    let v ← eval n condition
    if v.truthy then exec n thenBranch else pure .normal
  | n + 1, .ifElse condition thenBranch elseBranch => do
    let v ← eval n condition
    if v.truthy then exec n thenBranch else exec n elseBranch
  | n + 1, .whileLoop condition body => loop n condition body
  | _ + 1, .function f => do
    let env ← environment
    let id ← freshId
    define f.name.lexeme (.function id ⟨f, env, false⟩)
    pure .normal
  | n + 1, .ret _ value => do
    match value with
    | none => pure (.returned .nil)
    | some e => do
      let v ← eval n e
      pure (.returned v)
  | _ + 1, .classDecl name superclass methods => do
    declareClass name superclass methods
    pure .normal

/-- Runs statements until one of them returns. -/
def execAll : Nat → List (Stmt Slot) → Eval Completion
  | 0, _ => spent
  | _ + 1, [] => pure .normal
  | n + 1, s :: rest => do
    match ← exec n s with
    | .returned v => pure (.returned v)
    | .normal => execAll n rest

/-- Runs a body as long as a condition holds. -/
def loop : Nat → Expr Slot → Stmt Slot → Eval Completion
  | 0, _, _ => spent
  | n + 1, condition, body => do
    let v ← eval n condition
    if v.truthy then
      match ← exec n body with
      | .returned v => pure (.returned v)
      | .normal => loop n condition body
    else pure .normal

/-- Runs the statements of a unit. What a statement returns is dropped. -/
def execUnit : Nat → List (Stmt Slot) → Eval Unit
  | 0, _ => spent
  | _ + 1, [] => pure ()
  | n + 1, s :: rest => do
    let _ ← exec n s
    execUnit n rest

end

/-- Without a budget nothing is run. -/
@[simp]
theorem eval_zero (e : Expr Slot) : eval 0 e = spent := by
  rw [eval]

@[simp]
theorem exec_zero (s : Stmt Slot) : exec 0 s = spent := by
  rw [exec]

end Eval

/-- How a unit ended. -/
inductive UnitEnd where
  | completed
  | error (e : RuntimeError)
  | fault (f : Fault)
  | spent

/-- Far more steps than any machine takes. -/
def stepBudget : Nat := Nat.pow 2 62

namespace Machine

/-- The machine before a unit: nothing printed, no last value. -/
def fresh (m : Machine) : Machine :=
  { m with lastValue := .nil, output := #[] }

/-- Runs a unit with a budget. The failure of a native function cannot come up to
here, since it happens in a call. -/
def interpretWith (budget : Nat) (m : Machine) (program : List (Stmt Slot)) :
    UnitEnd × Machine :=
  match Eval.execUnit budget program m.fresh with
  | .ok _ m => (.completed, m)
  | .abort (.error e) m => (.error e, m)
  | .abort (.failure _) m => (.fault .brokenNative, m)
  | .abort (.fault f) m => (.fault f, m)
  | .abort .spent m => (.spent, m)

/-- Runs a unit. -/
def interpret (m : Machine) (program : List (Stmt Slot)) : UnitEnd × Machine :=
  m.interpretWith stepBudget program

end Machine

end Lox
