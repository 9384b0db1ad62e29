import Lox.Diagnostic
import Lox.Note
import Lox.Scope
import Lox.Tree.Basic

/-!
# Resolution

Resolution finds out, before a program runs, how many scopes lie between each
reference to a variable and the declaration it means, and which rules of scoping
the program breaks. A fault never stops it.

Only declarations change the scopes, and only the innermost one: `Stmt.after` says
how. Everything else is a function of the scopes and of the kinds of function and
class around a place: `resolve` puts the slots into a tree, `scopeFaults` lists the
faults of a tree in the order of the text.
-/

namespace Lox

/-- The kind of the function around a place. -/
inductive FunctionKind where
  | none | function | initializer | method
deriving DecidableEq, Repr

/-- The kind of the class around a place. -/
inductive ClassKind where
  | none | plain | derived
deriving DecidableEq, Repr

/-- The kinds of function and class around a place. -/
structure Surroundings where
  function : FunctionKind := .none
  cls : ClassKind := .none
deriving DecidableEq, Repr

/-- A fault and the token it is reported at. -/
structure ScopeViolation where
  fault : ScopeFault
  token : Token

namespace ScopeViolation

def message (v : ScopeViolation) : String := v.fault.message v.token.lexeme

def toDiagnostic (v : ScopeViolation) : Diagnostic := v.fault.toDiagnostic v.token

end ScopeViolation

/-- The kind of a method. -/
def FunctionKind.ofMethod (name : String) : FunctionKind :=
  if name = initializerName then .initializer else .method

/-- The kind of a class. -/
def ClassKind.ofSuperclass {δ : Type} : Option (Reference δ) → ClassKind
  | .none => .plain
  | some _ => .derived

namespace Scopes

/-- The scope of a block. -/
def block (s : Scopes) : Scopes := { label := "block" } :: s

/-- The scope of a function with its parameters. -/
def function (s : Scopes) (name : Token) (params : List Token) : Scopes :=
  params.foldl (fun s p => s.define p.lexeme) ({ label := "function " ++ name.lexeme } :: s)

/-- The scope that holds one name of the language itself. -/
def reserved (s : Scopes) (name : String) : Scopes :=
  ({ label := name } : Scope).define name :: s

/-- The scopes around the methods of a class. -/
def methods {δ : Type} (s : Scopes) (superclass : Option (Reference δ)) : Scopes :=
  let s := if superclass.isSome then s.reserved superName else s
  s.reserved thisName

/-- The fault of declaring a name where it is declared already. -/
def declareFaults (s : Scopes) (name : Token) : List ScopeViolation :=
  if s.declaresHere name.lexeme then [⟨.alreadyDeclared, name⟩] else []

/-- The faults of declaring parameters one after the other. -/
def paramFaults (s : Scopes) : List Token → List ScopeViolation
  | [] => []
  | p :: rest => s.declareFaults p ++ paramFaults (s.define p.lexeme) rest

end Scopes

/-- The scopes after a statement. -/
def Stmt.after {δ : Type} (s : Scopes) : Stmt δ → Scopes
  | .varDecl name _ => s.define name.lexeme
  | .function f => s.define f.name.lexeme
  | .classDecl name _ _ => s.define name.lexeme
  | _ => s

/-! ## Slots -/

mutual

/-- An expression with its slots. -/
def Expr.resolve (c : ClassKind) (s : Scopes) : Expr Unit → Expr Slot
  | .literal value => .literal value
  | .unary operator operand => .unary operator (operand.resolve c s)
  | .binary left operator right => .binary (left.resolve c s) operator (right.resolve c s)
  | .logical left operator right => .logical (left.resolve c s) operator (right.resolve c s)
  | .conditional condition thenBranch elseBranch =>
    .conditional (condition.resolve c s) (thenBranch.resolve c s) (elseBranch.resolve c s)
  | .grouping inner => .grouping (inner.resolve c s)
  | .var name _ => .var name (s.distanceTo? name.lexeme)
  | .assign name _ value => .assign name (s.distanceTo? name.lexeme) (value.resolve c s)
  | .call callee paren arguments =>
    .call (callee.resolve c s) paren (Expr.resolveAll c s arguments)
  | .get object name => .get (object.resolve c s) name
  | .set object name value => .set (object.resolve c s) name (value.resolve c s)
  | .thisRef keyword _ =>
    .thisRef keyword (if c = .none then none else s.distanceTo? keyword.lexeme)
  | .superRef keyword method _ =>
    .superRef keyword method (if c = .derived then s.distanceTo? keyword.lexeme else none)
  | .vector bracket elements => .vector bracket (Expr.resolveAll c s elements)

/-- Some expressions with their slots. -/
def Expr.resolveAll (c : ClassKind) (s : Scopes) : List (Expr Unit) → List (Expr Slot)
  | [] => []
  | e :: rest => e.resolve c s :: Expr.resolveAll c s rest

end

/-- The name of a superclass with its slot. -/
def Reference.resolve (s : Scopes) (r : Reference Unit) : Reference Slot :=
  ⟨r.name, s.distanceTo? r.name.lexeme⟩

mutual

/-- A statement with its slots. -/
def Stmt.resolve (c : ClassKind) (s : Scopes) : Stmt Unit → Stmt Slot
  | .expression e => .expression (e.resolve c s)
  | .print e => .print (e.resolve c s)
  | .varDecl name initializer =>
    .varDecl name (initializer.map (Expr.resolve c (s.declare name.lexeme)))
  | .block body => .block (Stmt.resolveAll c s.block body)
  | .ifThen condition thenBranch =>
    .ifThen (condition.resolve c s) (thenBranch.resolve c s)
  | .ifElse condition thenBranch elseBranch =>
    .ifElse (condition.resolve c s) (thenBranch.resolve c s) (elseBranch.resolve c s)
  | .whileLoop condition body => .whileLoop (condition.resolve c s) (body.resolve c s)
  | .function f => .function (f.resolve c (s.define f.name.lexeme))
  | .ret keyword value => .ret keyword (value.map (Expr.resolve c s))
  | .classDecl name superclass methods =>
    let s := s.define name.lexeme
    .classDecl name (superclass.map (Reference.resolve s))
      (FunDecl.resolveAll (.ofSuperclass superclass) (s.methods superclass) methods)

/-- Statements one after the other, each in the scopes that those before it left. -/
def Stmt.resolveAll (c : ClassKind) (s : Scopes) : List (Stmt Unit) → List (Stmt Slot)
  | [] => []
  | stmt :: rest => stmt.resolve c s :: Stmt.resolveAll c (stmt.after s) rest

/-- A function with its slots. -/
def FunDecl.resolve (c : ClassKind) (s : Scopes) : FunDecl Unit → FunDecl Slot
  | .mk name params body =>
    .mk name params (Stmt.resolveAll c (s.function name params) body)

/-- Methods with their slots. -/
def FunDecl.resolveAll (c : ClassKind) (s : Scopes) : List (FunDecl Unit) → List (FunDecl Slot)
  | [] => []
  | f :: rest => f.resolve c s :: FunDecl.resolveAll c s rest

end

/-! ## Faults -/

mutual

/-- The faults of an expression. -/
def Expr.scopeFaults (c : ClassKind) (s : Scopes) : Expr Unit → List ScopeViolation
  | .literal _ => []
  | .unary _ operand => operand.scopeFaults c s
  | .binary left _ right => left.scopeFaults c s ++ right.scopeFaults c s
  | .logical left _ right => left.scopeFaults c s ++ right.scopeFaults c s
  | .conditional condition thenBranch elseBranch =>
    condition.scopeFaults c s ++ thenBranch.scopeFaults c s ++ elseBranch.scopeFaults c s
  | .grouping inner => inner.scopeFaults c s
  | .var name _ => if s.isPending name.lexeme then [⟨.ownInitializer, name⟩] else []
  | .assign _ _ value => value.scopeFaults c s
  | .call callee _ arguments => callee.scopeFaults c s ++ Expr.scopeFaultsAll c s arguments
  | .get object _ => object.scopeFaults c s
  | .set object _ value => value.scopeFaults c s ++ object.scopeFaults c s
  | .thisRef keyword _ => if c = .none then [⟨.thisOutsideClass, keyword⟩] else []
  | .superRef keyword _ _ =>
    match c with
    | .none => [⟨.superOutsideClass, keyword⟩]
    | .plain => [⟨.superWithoutSuperclass, keyword⟩]
    | .derived => []
  | .vector _ elements => Expr.scopeFaultsAll c s elements

/-- The faults of some expressions. -/
def Expr.scopeFaultsAll (c : ClassKind) (s : Scopes) : List (Expr Unit) → List ScopeViolation
  | [] => []
  | e :: rest => e.scopeFaults c s ++ Expr.scopeFaultsAll c s rest

end

/-- The faults of an expression that may be missing. -/
def Expr.scopeFaultsOption (c : ClassKind) (s : Scopes) :
    Option (Expr Unit) → List ScopeViolation
  | none => []
  | some e => e.scopeFaults c s

/-- The faults of naming a superclass for the class `name`. -/
def Reference.scopeFaults (s : Scopes) (name : Token) :
    Option (Reference Unit) → List ScopeViolation
  | none => []
  | some r =>
    (if r.name.lexeme = name.lexeme then [⟨.inheritsItself, r.name⟩] else []) ++
      (if s.isPending r.name.lexeme then [⟨.ownInitializer, r.name⟩] else [])

/-- The faults of a `return` itself, in a function of kind `k`. -/
def returnFaults (k : FunctionKind) (keyword : Token) (hasValue : Bool) : List ScopeViolation :=
  (if k = .none then [⟨.topLevelReturn, keyword⟩] else []) ++
    (if hasValue ∧ k = .initializer then [⟨.initializerReturn, keyword⟩] else [])

mutual

/-- The faults of a statement. -/
def Stmt.scopeFaults (around : Surroundings) (s : Scopes) : Stmt Unit → List ScopeViolation
  | .expression e => e.scopeFaults around.cls s
  | .print e => e.scopeFaults around.cls s
  | .varDecl name initializer =>
    s.declareFaults name ++
      Expr.scopeFaultsOption around.cls (s.declare name.lexeme) initializer
  | .block body => Stmt.scopeFaultsAll around s.block body
  | .ifThen condition thenBranch =>
    condition.scopeFaults around.cls s ++ thenBranch.scopeFaults around s
  | .ifElse condition thenBranch elseBranch =>
    condition.scopeFaults around.cls s ++ thenBranch.scopeFaults around s ++
      elseBranch.scopeFaults around s
  | .whileLoop condition body => condition.scopeFaults around.cls s ++ body.scopeFaults around s
  | .function f =>
    s.declareFaults f.name ++
      f.scopeFaults { around with function := .function } (s.define f.name.lexeme)
  | .ret keyword value =>
    returnFaults around.function keyword value.isSome ++ Expr.scopeFaultsOption around.cls s value
  | .classDecl name superclass methods =>
    let inner := s.define name.lexeme
    s.declareFaults name ++ Reference.scopeFaults inner name superclass ++
      FunDecl.scopeFaultsAll (.ofSuperclass superclass) (inner.methods superclass) methods

/-- The faults of statements one after the other. -/
def Stmt.scopeFaultsAll (around : Surroundings) (s : Scopes) :
    List (Stmt Unit) → List ScopeViolation
  | [] => []
  | stmt :: rest => stmt.scopeFaults around s ++ Stmt.scopeFaultsAll around (stmt.after s) rest

/-- The faults of a function, whose kind the surroundings already tell. -/
def FunDecl.scopeFaults (around : Surroundings) (s : Scopes) : FunDecl Unit → List ScopeViolation
  | .mk name params body =>
    Scopes.paramFaults ({ label := "function " ++ name.lexeme } :: s) params ++
      Stmt.scopeFaultsAll around (s.function name params) body

/-- The faults of the methods of a class of kind `c`. -/
def FunDecl.scopeFaultsAll (c : ClassKind) (s : Scopes) :
    List (FunDecl Unit) → List ScopeViolation
  | [] => []
  | f :: rest =>
    f.scopeFaults ⟨.ofMethod f.name.lexeme, c⟩ s ++ FunDecl.scopeFaultsAll c s rest

end

/-! ## Local references -/

/-- What kind of reference a slot belongs to. -/
inductive ReferenceKind where
  | var | assign | thisRef | superRef
deriving DecidableEq, Repr

/-- The name that a kind of reference has in reports. -/
def ReferenceKind.name : ReferenceKind → String
  | .var => "Identifier"
  | .assign => "Assignment"
  | .thisRef => "ThisExpr"
  | .superRef => "SuperAccess"

/-- A reference to a local variable. -/
structure LocalReference where
  kind : ReferenceKind
  token : Token
  distance : Nat

/-- The reference at a token, if its slot makes it a local one. -/
def localReference (kind : ReferenceKind) (token : Token) : Slot → List LocalReference
  | none => []
  | some distance => [⟨kind, token, distance⟩]

mutual

/-- The local references in an expression, in the order in which they are found:
what is assigned comes before the variable or property it is assigned to. -/
def Expr.references : Expr Slot → List LocalReference
  | .literal _ => []
  | .unary _ operand => operand.references
  | .binary left _ right => left.references ++ right.references
  | .logical left _ right => left.references ++ right.references
  | .conditional condition thenBranch elseBranch =>
    condition.references ++ thenBranch.references ++ elseBranch.references
  | .grouping inner => inner.references
  | .var name slot => localReference .var name slot
  | .assign name slot value => value.references ++ localReference .assign name slot
  | .call callee _ arguments => callee.references ++ Expr.referencesAll arguments
  | .get object _ => object.references
  | .set object _ value => value.references ++ object.references
  | .thisRef keyword slot => localReference .thisRef keyword slot
  | .superRef keyword _ slot => localReference .superRef keyword slot
  | .vector _ elements => Expr.referencesAll elements

/-- The local references in some expressions. -/
def Expr.referencesAll : List (Expr Slot) → List LocalReference
  | [] => []
  | e :: rest => e.references ++ Expr.referencesAll rest

end

/-- The local references in an expression that may be missing. -/
def Expr.referencesOption : Option (Expr Slot) → List LocalReference
  | none => []
  | some e => e.references

/-- The local reference that a superclass is. -/
def Reference.references : Option (Reference Slot) → List LocalReference
  | none => []
  | some r => localReference .var r.name r.slot

mutual

/-- The local references in a statement. -/
def Stmt.references : Stmt Slot → List LocalReference
  | .expression e => e.references
  | .print e => e.references
  | .varDecl _ initializer => Expr.referencesOption initializer
  | .block body => Stmt.referencesAll body
  | .ifThen condition thenBranch => condition.references ++ thenBranch.references
  | .ifElse condition thenBranch elseBranch =>
    condition.references ++ thenBranch.references ++ elseBranch.references
  | .whileLoop condition body => condition.references ++ body.references
  | .function f => f.references
  | .ret _ value => Expr.referencesOption value
  | .classDecl _ superclass methods =>
    Reference.references superclass ++ FunDecl.referencesAll methods

/-- The local references in some statements. -/
def Stmt.referencesAll : List (Stmt Slot) → List LocalReference
  | [] => []
  | s :: rest => s.references ++ Stmt.referencesAll rest

/-- The local references in a function. -/
def FunDecl.references : FunDecl Slot → List LocalReference
  | .mk _ _ body => Stmt.referencesAll body

/-- The local references in some methods. -/
def FunDecl.referencesAll : List (FunDecl Slot) → List LocalReference
  | [] => []
  | f :: rest => f.references ++ FunDecl.referencesAll rest

end

/-! ## Programs -/

/-- What resolving a program gives. -/
structure Resolution where
  program : List (Stmt Slot)
  faults : List ScopeViolation

namespace Resolution

def diagnostics (r : Resolution) : List Diagnostic :=
  r.faults.map ScopeViolation.toDiagnostic

/-- The note that resolution leaves. -/
def note (r : Resolution) : Note :=
  .resolved (Stmt.referencesAll r.program).length r.faults.length

end Resolution

/-- Resolves a program, or one unit of several. Between units nothing but globals
is declared, so each starts outside of all scopes. -/
def resolveProgram (program : List (Stmt Unit)) : Resolution where
  program := Stmt.resolveAll .none [] program
  faults := Stmt.scopeFaultsAll {} [] program

end Lox
