import Lox.Token.Basic

/-!
# Syntax trees

One family of trees serves two phases. A reference to a variable carries a slot:
nothing (`Unit`) after parsing, and after resolution the number of scopes between
the reference and the declaration it means (`Option Nat`, `none` for a global).
Functions that do not care about slots are written once for every `δ`.

Trees keep the tokens they were made from, because errors are reported at tokens.
A `for` loop has no node: the parser writes it as a `while` loop.
-/

namespace Lox

/-- What resolution attaches to a reference. -/
abbrev Slot := Option Nat

/-- Expressions. -/
inductive Expr (δ : Type) where
  | literal (value : Constant)
  | unary (operator : Token) (operand : Expr δ)
  | binary (left : Expr δ) (operator : Token) (right : Expr δ)
  | logical (left : Expr δ) (operator : Token) (right : Expr δ)
  | conditional (condition thenBranch elseBranch : Expr δ)
  | grouping (inner : Expr δ)
  | var (name : Token) (slot : δ)
  | assign (name : Token) (slot : δ) (value : Expr δ)
  /-- A call; errors of the call are reported at its closing parenthesis. -/
  | call (callee : Expr δ) (paren : Token) (arguments : List (Expr δ))
  | get (object : Expr δ) (name : Token)
  | set (object : Expr δ) (name : Token) (value : Expr δ)
  | thisRef (keyword : Token) (slot : δ)
  | superRef (keyword method : Token) (slot : δ)
  | vector (bracket : Token) (elements : List (Expr δ))

/-- The name of a superclass, which is a reference like any other. -/
structure Reference (δ : Type) where
  name : Token
  slot : δ

mutual

/-- Statements. -/
inductive Stmt (δ : Type) where
  | expression (e : Expr δ)
  | print (e : Expr δ)
  | varDecl (name : Token) (initializer : Option (Expr δ))
  | block (body : List (Stmt δ))
  | ifThen (condition : Expr δ) (thenBranch : Stmt δ)
  | ifElse (condition : Expr δ) (thenBranch elseBranch : Stmt δ)
  | whileLoop (condition : Expr δ) (body : Stmt δ)
  | function (declaration : FunDecl δ)
  | ret (keyword : Token) (value : Option (Expr δ))
  | classDecl (name : Token) (superclass : Option (Reference δ)) (methods : List (FunDecl δ))

/-- A function, or a method of a class. -/
inductive FunDecl (δ : Type) where
  | mk (name : Token) (params : List Token) (body : List (Stmt δ))

end

namespace FunDecl

variable {δ : Type}

def name : FunDecl δ → Token
  | mk name _ _ => name

def params : FunDecl δ → List Token
  | mk _ params _ => params

def body : FunDecl δ → List (Stmt δ)
  | mk _ _ body => body

end FunDecl

end Lox
