import Lox.Resolve
import Lox.Tree.Nodes

/-!
# Resolution as one walk over a program

`Lox.Resolve` says what resolution finds as functions of the scopes and of the
surroundings of a place. Here a resolver walks over the program once and carries both
with it: it opens and leaves scopes, changes the kinds of function and class, and
writes into a log what it comes upon. The slot of a reference is here its node. Whoever
asked for the walk is told the distance of each local one at once.
-/

namespace Lox

/-- What a resolver comes upon. -/
inductive Sighting (ι : Type) where
  /-- A local reference, with the number of scopes around it. -/
  | reference (node : ι) (found : LocalReference) (depth : Nat)
  | violation (broken : ScopeViolation)

namespace Sighting

variable {ι : Type}

def violation? : Sighting ι → Option ScopeViolation
  | .reference .. => none
  | .violation broken => some broken

def reference? : Sighting ι → Option LocalReference
  | .reference _ found _ => some found
  | .violation _ => none

end Sighting

/-- A resolver on its way over a program. -/
structure Resolver (ι τ : Type) where
  scopes : Scopes := []
  around : Surroundings := {}
  log : List (Sighting ι) := []
  /-- What is done with the distance of a reference that was found to be local. -/
  onResolve : ι → Nat → τ → τ
  /-- What came of that so far. -/
  distances : τ

/-- What a resolver does. -/
abbrev Pass (ι τ : Type) := Resolver ι τ → Resolver ι τ

section

variable {ι τ : Type}

/-- The distances together with what a sighting tells of them. -/
def Sighting.record (onResolve : ι → Nat → τ → τ) (distances : τ) : Sighting ι → τ
  | .reference node found _ => onResolve node found.distance distances
  | .violation _ => distances

namespace Pass

def skip : Pass ι τ := id

/-- One pass, then the next. -/
def andThen (p q : Pass ι τ) : Pass ι τ := fun r => q (p r)

def see (sighting : Sighting ι) : Pass ι τ := fun r =>
  { r with
    log := r.log ++ [sighting]
    distances := sighting.record r.onResolve r.distances }

def report (fault : ScopeFault) (token : Token) : Pass ι τ :=
  see (.violation ⟨fault, token⟩)

def reportIf (test : Scopes → Surroundings → Bool) (fault : ScopeFault) (token : Token) :
    Pass ι τ := fun r =>
  if test r.scopes r.around then report fault token r else r

/-- Declares a name in the innermost scope, and tells if it stands there already. -/
def declare (name : Token) : Pass ι τ :=
  andThen (reportIf (fun s _ => s.declaresHere name.lexeme) .alreadyDeclared name) fun r =>
    { r with scopes := r.scopes.declare name.lexeme }

def define (name : String) : Pass ι τ := fun r =>
  { r with scopes := r.scopes.define name }

/-- Looks for the scope that declares a name. What no scope declares is global, and of
that nothing is noted. -/
def locate (kind : ReferenceKind) (name : Token) (node : ι) : Pass ι τ := fun r =>
  match r.scopes.distanceTo? name.lexeme with
  | none => r
  | some distance => see (.reference node ⟨kind, name, distance⟩ r.scopes.length) r

def readVariable (name : Token) (node : ι) : Pass ι τ :=
  andThen (reportIf (fun s _ => s.isPending name.lexeme) .ownInitializer name)
    (locate .var name node)

/-- Reads `this`. Where it is misplaced, the scopes are not searched for it. -/
def readThis (keyword : Token) (node : ι) : Pass ι τ := fun r =>
  if r.around.cls = .none then report .thisOutsideClass keyword r
  else locate .thisRef keyword node r

/-- Reads `super`, likewise. -/
def readSuper (keyword : Token) (node : ι) : Pass ι τ := fun r =>
  match r.around.cls with
  | .none => report .superOutsideClass keyword r
  | .plain => report .superWithoutSuperclass keyword r
  | .derived => locate .superRef keyword node r

/-- A pass in a scope of its own. -/
def inScope (label : String) (p : Pass ι τ) : Pass ι τ := fun r =>
  let inner := p { r with scopes := { label := label } :: r.scopes }
  { inner with scopes := inner.scopes.tail }

/-- A pass in a scope that holds one name of the language itself. -/
def reserving (name : String) (p : Pass ι τ) : Pass ι τ :=
  inScope name (andThen (define name) p)

/-- A pass in a function of the kind. -/
def inFunction (kind : FunctionKind) (p : Pass ι τ) : Pass ι τ := fun r =>
  let inner := p { r with around := { r.around with function := kind } }
  { inner with around := { inner.around with function := r.around.function } }

def enterClass (kind : ClassKind) : Pass ι τ := fun r =>
  { r with around := { r.around with cls := kind } }

/-- A pass after which the kind of class is what it was. -/
def keepingClass (p : Pass ι τ) : Pass ι τ := fun r =>
  let inner := p r
  { inner with around := { inner.around with cls := r.around.cls } }

/-- Declares parameters one after the other. -/
def parameters : List Token → Pass ι τ
  | [] => skip
  | p :: rest => andThen (declare p) (andThen (define p.lexeme) (parameters rest))

/-- Reads the superclass of the class `name`. From here on the class is a derived one. -/
def inherit (name : Token) : Option (Reference ι) → Pass ι τ
  | none => skip
  | some r =>
    andThen (reportIf (fun _ _ => r.name.lexeme = name.lexeme) .inheritsItself r.name)
      (andThen (enterClass .derived) (readVariable r.name r.slot))

/-- A pass in the scopes around the methods of a class. -/
def methods (superclass : Option (Reference ι)) (p : Pass ι τ) : Pass ι τ :=
  if superclass.isSome then reserving superName (reserving thisName p) else reserving thisName p

end Pass

open Pass

/-! ## The walk -/

mutual

/-- The walk over an expression. -/
def Expr.walk : Expr ι → Pass ι τ
  | .literal _ => skip
  | .unary _ operand => operand.walk
  | .binary left _ right => andThen left.walk right.walk
  | .logical left _ right => andThen left.walk right.walk
  | .conditional condition thenBranch elseBranch =>
    andThen condition.walk (andThen thenBranch.walk elseBranch.walk)
  | .grouping inner => inner.walk
  | .var name node => readVariable name node
  | .assign name node value => andThen value.walk (locate .assign name node)
  | .call callee _ arguments => andThen callee.walk (Expr.walkAll arguments)
  | .get object _ => object.walk
  | .set object _ value => andThen value.walk object.walk
  | .thisRef keyword node => readThis keyword node
  | .superRef keyword _ node => readSuper keyword node
  | .vector _ elements => Expr.walkAll elements

def Expr.walkAll : List (Expr ι) → Pass ι τ
  | [] => skip
  | e :: rest => andThen e.walk (Expr.walkAll rest)

end

/-- The walk over an expression that may be missing. -/
def Expr.walkOption : Option (Expr ι) → Pass ι τ
  | none => skip
  | some e => e.walk

/-- The walk over a `return` with its value. -/
def Pass.returns (keyword : Token) (value : Option (Expr ι)) : Pass ι τ :=
  andThen (reportIf (fun _ around => around.function = .none) .topLevelReturn keyword)
    (andThen (reportIf (fun _ around => value.isSome && around.function = .initializer)
      .initializerReturn keyword) (Expr.walkOption value))

mutual

/-- The walk over a statement. -/
def Stmt.walk : Stmt ι → Pass ι τ
  | .expression e => e.walk
  | .print e => e.walk
  | .varDecl name initializer =>
    andThen (declare name) (andThen (Expr.walkOption initializer) (define name.lexeme))
  | .block body => inScope "block" (Stmt.walkAll body)
  | .ifThen condition thenBranch => andThen condition.walk thenBranch.walk
  | .ifElse condition thenBranch elseBranch =>
    andThen condition.walk (andThen thenBranch.walk elseBranch.walk)
  | .whileLoop condition body => andThen condition.walk body.walk
  | .function f =>
    -- The name is there before the body, so that the function can call itself.
    andThen (declare f.name) (andThen (define f.name.lexeme) (f.walk .function))
  | .ret keyword value => returns keyword value
  | .classDecl name superclass ms =>
    keepingClass
      (andThen (enterClass .plain)
        (andThen (declare name)
          (andThen (define name.lexeme)
            (andThen (inherit name superclass) (methods superclass (FunDecl.walkAll ms))))))

def Stmt.walkAll : List (Stmt ι) → Pass ι τ
  | [] => skip
  | y :: rest => andThen y.walk (Stmt.walkAll rest)

/-- The walk over a function of the kind. -/
def FunDecl.walk (kind : FunctionKind) : FunDecl ι → Pass ι τ
  | .mk name params body =>
    inFunction kind
      (inScope ("function " ++ name.lexeme) (andThen (parameters params) (Stmt.walkAll body)))

def FunDecl.walkAll : List (FunDecl ι) → Pass ι τ
  | [] => skip
  | f :: rest => andThen (f.walk (.ofMethod f.name.lexeme)) (FunDecl.walkAll rest)

end

end

namespace Resolver

variable {ι τ : Type}

/-- The faults in the log. -/
def faults (r : Resolver ι τ) : List ScopeViolation :=
  r.log.filterMap Sighting.violation?

/-- The local references in the log. -/
def references (r : Resolver ι τ) : List LocalReference :=
  r.log.filterMap Sighting.reference?

/-- The note that a walk leaves. -/
def note (r : Resolver ι τ) : Note :=
  .resolved r.references.length r.faults.length

end Resolver

end Lox
