import Lox.Resolve
import Lox.Proofs.WellFormed

/-!
# The static violations of a program

What the rules of scoping forbid, read off the tree of a program alone: no scope is kept
while the tree is walked, and nothing that was met earlier matters. A `Survey` lists what
the rules talk about. Scopes and classes are listed wherever they stand. A `return`
belongs to the innermost function around it, `this` and `super` to the innermost class, so
a survey leaves out those that are inside a function or a class of what is surveyed.
-/

namespace Lox

/-! ## What expressions mention -/

/-- A reading of a variable, or a use of `this` or `super`. -/
inductive Mention where
  | name (t : Token)
  | this (t : Token)
  | super (t : Token)

namespace Mention

def this? : Mention → Option Token
  | this t => some t
  | _ => none

def super? : Mention → Option Token
  | super t => some t
  | _ => none

/-- The token of a reading of the variable `x`. -/
def reads? (x : String) : Mention → Option Token
  | name t => if t.lexeme = x then some t else none
  | _ => none

end Mention

mutual

/-- What an expression mentions; a value comes before the property it is assigned to. -/
def Expr.mentions : Expr Unit → List Mention
  | .literal _ => []
  | .unary _ operand => operand.mentions
  | .binary left _ right => left.mentions ++ right.mentions
  | .logical left _ right => left.mentions ++ right.mentions
  | .conditional condition thenBranch elseBranch =>
    condition.mentions ++ thenBranch.mentions ++ elseBranch.mentions
  | .grouping inner => inner.mentions
  | .var name _ => [.name name]
  | .assign _ _ value => value.mentions
  | .call callee _ arguments => callee.mentions ++ Expr.mentionsAll arguments
  | .get object _ => object.mentions
  | .set object _ value => value.mentions ++ object.mentions
  | .thisRef keyword _ => [.this keyword]
  | .superRef keyword _ _ => [.super keyword]
  | .vector _ elements => Expr.mentionsAll elements

def Expr.mentionsAll : List (Expr Unit) → List Mention
  | [] => []
  | e :: rest => e.mentions ++ Expr.mentionsAll rest

end

def Expr.mentionsOption : Option (Expr Unit) → List Mention
  | none => []
  | some e => e.mentions

/-! ## Surveys -/

/-- A scope that is not global: that of a function with its parameters, or that of a block,
which has none. -/
structure LocalScope where
  params : List Token := []
  body : List (Stmt Unit)

/-- The declaration of a class. -/
structure ClassSite where
  name : Token
  superclass : Option (Reference Unit)
  methods : List (FunDecl Unit)

/-- A `return` and whether it has a value. -/
structure ReturnSite where
  keyword : Token
  hasValue : Bool

/-- What a part of a program has in it: all scopes and classes, each `return` outside of its
functions, and what is mentioned outside of its classes. -/
structure Survey where
  scopes : List LocalScope := []
  classes : List ClassSite := []
  returns : List ReturnSite := []
  mentions : List Mention := []

namespace Survey

def append (a b : Survey) : Survey where
  scopes := a.scopes ++ b.scopes
  classes := a.classes ++ b.classes
  returns := a.returns ++ b.returns
  mentions := a.mentions ++ b.mentions

instance : Append Survey := ⟨append⟩

/-- What is left to mention outside of a function with the scope `scope`. -/
def ofFunction (scope : LocalScope) (inside : Survey) : Survey :=
  { inside with scopes := scope :: inside.scopes, returns := [] }

/-- What is left to mention outside of a class. -/
def ofClass (site : ClassSite) (inside : Survey) : Survey :=
  { inside with classes := site :: inside.classes, mentions := [] }

end Survey

mutual

def Stmt.survey : Stmt Unit → Survey
  | .expression e => { mentions := e.mentions }
  | .print e => { mentions := e.mentions }
  | .varDecl _ initializer => { mentions := Expr.mentionsOption initializer }
  | .block body => { scopes := [⟨[], body⟩] } ++ Stmt.surveyAll body
  | .ifThen condition thenBranch => { mentions := condition.mentions } ++ thenBranch.survey
  | .ifElse condition thenBranch elseBranch =>
    { mentions := condition.mentions } ++ thenBranch.survey ++ elseBranch.survey
  | .whileLoop condition body => { mentions := condition.mentions } ++ body.survey
  | .function f => f.survey
  | .ret keyword value =>
    { returns := [⟨keyword, value.isSome⟩], mentions := Expr.mentionsOption value }
  | .classDecl name superclass methods =>
    (FunDecl.surveyAll methods).ofClass ⟨name, superclass, methods⟩

def Stmt.surveyAll : List (Stmt Unit) → Survey
  | [] => {}
  | s :: rest => s.survey ++ Stmt.surveyAll rest

def FunDecl.survey : FunDecl Unit → Survey
  | .mk _ params body => (Stmt.surveyAll body).ofFunction ⟨params, body⟩

def FunDecl.surveyAll : List (FunDecl Unit) → Survey
  | [] => {}
  | f :: rest => f.survey ++ FunDecl.surveyAll rest

end

/-- Each `return` whose innermost function is this one. -/
def FunDecl.returns (f : FunDecl Unit) : List ReturnSite :=
  (Stmt.surveyAll f.body).returns

/-! ## The rules -/

/-- The tokens whose names come again, after those in `earlier`. -/
def repeated (earlier : List String) : List Token → List Token
  | [] => []
  | t :: rest =>
    (if t.lexeme ∈ earlier then [t] else []) ++ repeated (t.lexeme :: earlier) rest

/-- The readings of the variable that a statement declares, in its own initializer. -/
def Stmt.ownReads : Stmt Unit → List Token
  | .varDecl name initializer =>
    (Expr.mentionsOption initializer).filterMap (Mention.reads? name.lexeme)
  | _ => []

namespace LocalScope

/-- The names that a scope declares, in the order of the text. -/
def declared (scope : LocalScope) : List Token :=
  scope.params ++ scope.body.filterMap Stmt.declared?

/-- The declarations of names that the scope declares earlier. -/
def repeats (scope : LocalScope) : List Token :=
  repeated [] scope.declared

def ownReads (scope : LocalScope) : List Token :=
  scope.body.flatMap Stmt.ownReads

end LocalScope

namespace ClassSite

/-- Each `return` with a value whose innermost function is an initializer of the class. -/
def initializerReturns (site : ClassSite) : List Token :=
  (site.methods.filter (·.name.lexeme = initializerName)).flatMap fun f =>
    (f.returns.filter (·.hasValue)).map (·.keyword)

/-- Each `super` whose innermost class is this one, if it has no superclass. -/
def baselessSupers (site : ClassSite) : List Token :=
  match site.superclass with
  | none => (FunDecl.surveyAll site.methods).mentions.filterMap Mention.super?
  | some _ => []

/-- The name of the superclass, if it is that of the class. -/
def selfInheritance (site : ClassSite) : List Token :=
  (site.superclass.toList.map (·.name)).filter (·.lexeme = site.name.lexeme)

end ClassSite

/-- The rules of scoping by their codes, each with the tokens at which a program breaks it. -/
def Survey.rules (s : Survey) : List (String × List Token) :=
  [("E201", s.scopes.flatMap LocalScope.repeats),
    ("E202", s.scopes.flatMap LocalScope.ownReads),
    ("E203", s.returns.map (·.keyword)),
    ("E204", s.classes.flatMap ClassSite.initializerReturns),
    ("E205", s.mentions.filterMap Mention.this?),
    ("E206", s.mentions.filterMap Mention.super?),
    ("E207", s.classes.flatMap ClassSite.baselessSupers),
    ("E208", s.classes.flatMap ClassSite.selfInheritance)]

/-- The static violations of a program: the code of a rule, and a token that breaks it. -/
def staticViolations (program : List (Stmt Unit)) : List (String × Token) :=
  (Stmt.surveyAll program).rules.flatMap fun (code, tokens) => tokens.map fun t => (code, t)

end Lox
