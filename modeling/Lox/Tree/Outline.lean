import Lox.Tree.Basic

/-!
# Trees as outlines

An outline shows every node on lines of its own: its kind, then its parts, each
under its name and indented by two more spaces for each level. Nodes that stand
in a list have no name of their own and are indented by two levels.
-/

namespace Lox

variable {δ : Type}

/-- The indentation of a level. -/
def indentation (level : Nat) : String :=
  String.ofList (List.replicate (2 * level) ' ')

/-- A constant in an outline. -/
def Constant.outline : Constant → String
  | .nil => "None"
  | .bool b => if b then "True" else "False"
  | .number x => Layout.dump.number x
  | .text s => quoted s

namespace Outline

/-- A part that fits on the line of its name. -/
def field (level : Nat) (name text : String) : List String :=
  [indentation (level + 1) ++ name ++ ": " ++ text]

/-- A part that is a node, whose lines are given. -/
def child (level : Nat) (name : String) (lines : List String) : List String :=
  (indentation (level + 1) ++ name ++ ":") :: lines

/-- A part that is a list, whose lines are given. -/
def items (level : Nat) (name : String) (lines : List String) : List String :=
  (indentation (level + 1) ++ name ++ ": [") :: lines ++ [indentation (level + 1) ++ "]"]

/-- The first line of a node. -/
def heading (level : Nat) (kind : String) : String :=
  indentation level ++ kind

/-- A list of names. -/
def names (level : Nat) (name : String) (tokens : List Token) : List String :=
  items level name (tokens.map fun t => indentation (level + 2) ++ t.lexeme)

end Outline

open Outline

mutual

/-- The outline of an expression. -/
def Expr.outline (level : Nat) : Expr δ → List String
  | .literal value => heading level "Literal" :: field level "value" value.outline
  | .unary operator operand =>
    heading level "UnaryOp" :: field level "operator" operator.lexeme ++
      child level "operand" (operand.outline (level + 2))
  | .binary left operator right =>
    heading level "BinaryOp" :: child level "left" (left.outline (level + 2)) ++
      field level "operator" operator.lexeme ++
      child level "right" (right.outline (level + 2))
  | .logical left operator right =>
    heading level "LogicalOp" :: child level "left" (left.outline (level + 2)) ++
      field level "operator" operator.lexeme ++
      child level "right" (right.outline (level + 2))
  | .conditional condition thenBranch elseBranch =>
    heading level "ConditionalExpr" ::
      child level "condition" (condition.outline (level + 2)) ++
      child level "then_branch" (thenBranch.outline (level + 2)) ++
      child level "else_branch" (elseBranch.outline (level + 2))
  | .grouping inner =>
    heading level "Grouping" :: child level "expression" (inner.outline (level + 2))
  | .var name _ => heading level "Identifier" :: field level "name" name.lexeme
  | .assign name _ value =>
    heading level "Assignment" :: field level "name" name.lexeme ++
      child level "value" (value.outline (level + 2))
  | .call callee paren arguments =>
    heading level "FunctionCall" :: child level "callee" (callee.outline (level + 2)) ++
      field level "paren" paren.lexeme ++
      items level "arguments" (Expr.outlineAll (level + 2) arguments)
  | .get object name =>
    heading level "MemberAccess" :: child level "object" (object.outline (level + 2)) ++
      field level "name" name.lexeme
  | .set object name value =>
    heading level "MemberAssignment" :: child level "object" (object.outline (level + 2)) ++
      field level "name" name.lexeme ++
      child level "value" (value.outline (level + 2))
  | .thisRef keyword _ => heading level "ThisExpr" :: field level "keyword" keyword.lexeme
  | .superRef keyword method _ =>
    heading level "SuperAccess" :: field level "keyword" keyword.lexeme ++
      field level "method" method.lexeme
  | .vector bracket elements =>
    heading level "VectorLiteral" :: field level "bracket" bracket.lexeme ++
      items level "elements" (Expr.outlineAll (level + 2) elements)

/-- The outlines of some expressions, one after the other. -/
def Expr.outlineAll (level : Nat) : List (Expr δ) → List String
  | [] => []
  | e :: rest => e.outline level ++ Expr.outlineAll level rest

end

/-- A part that is an expression, if it is there. -/
def Expr.outlineOption (level : Nat) (name : String) : Option (Expr δ) → List String
  | none => field level name "None"
  | some e => child level name (e.outline (level + 2))

/-- A superclass, if there is one. -/
def Reference.outlineOption (level : Nat) : Option (Reference δ) → List String
  | none => field level "superclass" "None"
  | some r =>
    child level "superclass" (Expr.outline (level + 2) (.var r.name r.slot))

mutual

/-- The outline of a statement. -/
def Stmt.outline (level : Nat) : Stmt δ → List String
  | .expression e =>
    heading level "ExpressionStatement" :: child level "expression" (e.outline (level + 2))
  | .print e =>
    heading level "PrintStatement" :: child level "expression" (e.outline (level + 2))
  | .varDecl name initializer =>
    heading level "VarDecl" :: field level "name" name.lexeme ++
      Expr.outlineOption level "initializer" initializer
  | .block body =>
    heading level "Block" :: items level "statements" (Stmt.outlineAll (level + 2) body)
  | .ifThen condition thenBranch =>
    heading level "IfStatement" ::
      child level "condition" (condition.outline (level + 2)) ++
      child level "then_branch" (thenBranch.outline (level + 2)) ++
      field level "else_branch" "None"
  | .ifElse condition thenBranch elseBranch =>
    heading level "IfStatement" ::
      child level "condition" (condition.outline (level + 2)) ++
      child level "then_branch" (thenBranch.outline (level + 2)) ++
      child level "else_branch" (elseBranch.outline (level + 2))
  | .whileLoop condition body =>
    heading level "WhileStatement" ::
      child level "condition" (condition.outline (level + 2)) ++
      child level "body" (body.outline (level + 2))
  | .function declaration => declaration.outline level
  | .ret keyword value =>
    heading level "ReturnStatement" :: field level "keyword" keyword.lexeme ++
      Expr.outlineOption level "value" value
  | .classDecl name superclass methods =>
    heading level "ClassDef" :: field level "name" name.lexeme ++
      Reference.outlineOption level superclass ++
      items level "methods" (FunDecl.outlineAll (level + 2) methods)

/-- The outlines of some statements, one after the other. -/
def Stmt.outlineAll (level : Nat) : List (Stmt δ) → List String
  | [] => []
  | s :: rest => s.outline level ++ Stmt.outlineAll level rest

/-- The outline of a function or method. -/
def FunDecl.outline (level : Nat) : FunDecl δ → List String
  | .mk name params body =>
    heading level "FunctionDef" :: field level "name" name.lexeme ++
      names level "params" params ++
      items level "body" (Stmt.outlineAll (level + 2) body)

/-- The outlines of some methods, one after the other. -/
def FunDecl.outlineAll (level : Nat) : List (FunDecl δ) → List String
  | [] => []
  | f :: rest => f.outline level ++ FunDecl.outlineAll level rest

end

/-- The outline of a program as one text. -/
def outlineText (level : Nat) (program : List (Stmt δ)) : String :=
  String.intercalate "\n" (Stmt.outlineAll level program)

end Lox
