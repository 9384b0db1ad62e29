import Lox.Parse.Expression

/-!
# Statements from tokens

Declarations, statements and the bodies that hold them. A declaration that cannot
be parsed is dropped: parsing goes on at the next statement, so that one pass
finds as many faults as it can. A `for` loop becomes a `while` loop, in a block
of its own if it has an initializer.
-/

namespace Lox
namespace Parse

/-- The names of at least one parameter, after `count` earlier ones. -/
def paramsFrom : Nat → Nat → Parse (List Token)
  | 0, _ => spent
  | n + 1, count => do
    checkCount count "parameters"
    let param ← expect .identifier "Expect parameter name."
    match ← accept .comma with
    | none => pure [param]
    | some _ => do
      let rest ← paramsFrom n (count + 1)
      pure (param :: rest)

/-- The parameters of a function, up to the closing parenthesis. -/
def params : Parse (List Token) := do
  if ← check .rightParen then pure [] else budgeted 1 fun n => paramsFrom (n + 1) 0

/-- The initializer that may follow the name of a variable. -/
def initializer : Parse (Option (Expr Unit)) := do
  match ← accept .equal with
  | some _ => do
    let value ← expression
    pure (some value)
  | none => pure none

/-- The declaration of a variable, after its first word. -/
def varDecl : Parse (Stmt Unit) := do
  let name ← expect .identifier "Expect variable name."
  let value ← initializer
  let _ ← expect .semicolon "Expect ';' after variable declaration."
  pure (.varDecl name value)

def expressionStatement : Parse (Stmt Unit) := do
  let e ← expression
  let _ ← expect .semicolon "Expect ';' after expression."
  pure (.expression e)

def printStatement : Parse (Stmt Unit) := do
  let e ← expression
  let _ ← expect .semicolon "Expect ';' after value."
  pure (.print e)

/-- An expression, unless the next token is of the given kind. -/
def expressionUnless (kind : TokenKind) : Parse (Option (Expr Unit)) := do
  if ← check kind then pure none
  else do
    let e ← expression
    pure (some e)

/-- A `return`, after its keyword. -/
def returnStatement : Parse (Stmt Unit) := do
  let keyword ← previous
  let value ← expressionUnless .semicolon
  let _ ← expect .semicolon "Expect ';' after return value."
  pure (.ret keyword value)

/-- The condition of a statement, in parentheses. -/
def condition (before after : String) : Parse (Expr Unit) := do
  let _ ← expect .leftParen before
  let e ← expression
  let _ ← expect .rightParen after
  pure e

/-- The parts of a `for` loop between its parentheses. -/
structure ForClauses where
  initializer : Option (Stmt Unit)
  condition : Option (Expr Unit)
  increment : Option (Expr Unit)

def forInitializer : Parse (Option (Stmt Unit)) := do
  match ← accept .semicolon with
  | some _ => pure none
  | none => do
    match ← accept .varWord with
    | some _ => do
      let s ← varDecl
      pure (some s)
    | none => do
      let s ← expressionStatement
      pure (some s)

def forClauses : Parse ForClauses := do
  let _ ← expect .leftParen "Expect '(' after 'for'."
  let initializer ← forInitializer
  let condition ← expressionUnless .semicolon
  let _ ← expect .semicolon "Expect ';' after loop condition."
  let increment ← expressionUnless .rightParen
  let _ ← expect .rightParen "Expect ')' after for clauses."
  pure ⟨initializer, condition, increment⟩

/-- A `for` loop as a `while` loop: the increment follows the body, a missing
condition is true, and the initializer comes first in a block around all. -/
def ForClauses.loop (clauses : ForClauses) (body : Stmt Unit) : Stmt Unit :=
  let round :=
    match clauses.increment with
    | some e => .block [body, .expression e]
    | none => body
  let loop := .whileLoop (clauses.condition.getD (.literal (.bool true))) round
  match clauses.initializer with
  | some s => .block [s, loop]
  | none => loop

/-- The superclass that may follow the name of a class. -/
def superclass : Parse (Option (Reference Unit)) := do
  match ← accept .less with
  | some _ => do
    let name ← expect .identifier "Expect superclass name."
    pure (some ⟨name, ()⟩)
  | none => pure none

mutual

/-- A declaration or statement, or nothing if it had to be skipped. -/
def declaration : Nat → Parse (Option (Stmt Unit))
  | 0 => spent
  | n + 1 => rescue do
    match ← accept .classWord with
    | some _ => classDecl n
    | none => do
      match ← accept .funWord with
      | some _ => do
        let f ← function n "function"
        pure (.function f)
      | none => do
        match ← accept .varWord with
        | some _ => varDecl
        | none => statement n

/-- A class, after its first word. -/
def classDecl : Nat → Parse (Stmt Unit)
  | 0 => spent
  | n + 1 => do
    let name ← expect .identifier "Expect class name."
    let parent ← superclass
    let _ ← expect .leftBrace "Expect '\x7b' before class body."
    let members ← methods n
    let _ ← expect .rightBrace "Expect '\x7d' after class body."
    pure (.classDecl name parent members)

/-- The methods of a class, up to its closing brace. -/
def methods : Nat → Parse (List (FunDecl Unit))
  | 0 => spent
  | n + 1 => do
    if (← check .rightBrace) || (← atEnd) then pure []
    else do
      let method ← function n "method"
      let rest ← methods n
      pure (method :: rest)

/-- A function or method from its name on; `what` is the word for it. -/
def function : Nat → String → Parse (FunDecl Unit)
  | 0, _ => spent
  | n + 1, what => do
    let name ← expect .identifier ("Expect " ++ what ++ " name.")
    let _ ← expect .leftParen ("Expect '(' after " ++ what ++ " name.")
    let names ← params
    let _ ← expect .rightParen "Expect ')' after parameters."
    let _ ← expect .leftBrace ("Expect '\x7b' before " ++ what ++ " body.")
    let body ← blockBody n
    pure (.mk name names body)

/-- Declarations up to the closing brace, which is taken too. -/
def blockBody : Nat → Parse (List (Stmt Unit))
  | 0 => spent
  | n + 1 => do
    let body ← declarations n
    let _ ← expect .rightBrace "Expect '\x7d' after block."
    pure body

/-- Declarations up to a closing brace, which stays ahead. -/
def declarations : Nat → Parse (List (Stmt Unit))
  | 0 => spent
  | n + 1 => do
    if (← check .rightBrace) || (← atEnd) then pure []
    else do
      let first ← declaration n
      let rest ← declarations n
      pure (first.toList ++ rest)

def statement : Nat → Parse (Stmt Unit)
  | 0 => spent
  | n + 1 => do
    let t ← current
    match t.kind with
    | .printWord => do
      let _ ← accept .printWord
      printStatement
    | .leftBrace => do
      let _ ← accept .leftBrace
      let body ← blockBody n
      pure (.block body)
    | .ifWord => do
      let _ ← accept .ifWord
      ifStatement n
    | .whileWord => do
      let _ ← accept .whileWord
      let e ← condition "Expect '(' after 'while'." "Expect ')' after condition."
      let body ← statement n
      pure (.whileLoop e body)
    | .forWord => do
      let _ ← accept .forWord
      let word ← previous
      let clauses ← forClauses
      let body ← statement n
      note (.desugared word.line)
      pure (clauses.loop body)
    | .returnWord => do
      let _ ← accept .returnWord
      returnStatement
    | .importWord => unexpected "Imports are only allowed at top level."
    | _ => expressionStatement

/-- An `if` statement, after its first word. An `else` belongs to the nearest. -/
def ifStatement : Nat → Parse (Stmt Unit)
  | 0 => spent
  | n + 1 => do
    let e ← condition "Expect '(' after 'if'." "Expect ')' after if condition."
    let thenBranch ← statement n
    match ← accept .elseWord with
    | some _ => do
      let elseBranch ← statement n
      pure (.ifElse e thenBranch elseBranch)
    | none => pure (.ifThen e thenBranch)

end

/-- A declaration at the top level or anywhere else. Between two tokens taken the
recursion goes through each kind of step at most once. -/
def topDeclaration : Parse (Option (Stmt Unit)) :=
  budgeted 8 declaration

end Parse

end Lox
