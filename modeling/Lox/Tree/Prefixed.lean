import Lox.Tree.Basic

/-!
# Expressions in prefix form

An expression is shown fully parenthesised with its operator in front, as in
`(* (- 123.0) (group 45.67))`.
-/

namespace Lox

variable {δ : Type}

/-- A constant in prefix form. -/
def Constant.prefixed : Constant → String
  | .nil => "nil"
  | .bool b => if b then "true" else "false"
  | .number x => Layout.dump.number x
  | .text s => "\"" ++ s ++ "\""

/-- Parts in parentheses, with a space between them. -/
def parenthesized (parts : List String) : String :=
  "(" ++ String.intercalate " " parts ++ ")"

mutual

/-- An expression in prefix form. -/
def Expr.prefixed : Expr δ → String
  | .literal value => value.prefixed
  | .unary operator operand => parenthesized [operator.lexeme, operand.prefixed]
  | .binary left operator right =>
    parenthesized [operator.lexeme, left.prefixed, right.prefixed]
  | .logical left operator right =>
    parenthesized [operator.lexeme, left.prefixed, right.prefixed]
  | .conditional condition thenBranch elseBranch =>
    parenthesized ["?:", condition.prefixed, thenBranch.prefixed, elseBranch.prefixed]
  | .grouping inner => parenthesized ["group", inner.prefixed]
  | .var name _ => name.lexeme
  | .assign name _ value => parenthesized ["= " ++ name.lexeme, value.prefixed]
  | .call callee _ arguments =>
    parenthesized ("call" :: callee.prefixed :: Expr.prefixedAll arguments)
  | .get object name => parenthesized [". " ++ name.lexeme, object.prefixed]
  | .set object name value =>
    parenthesized [".= " ++ name.lexeme, object.prefixed, value.prefixed]
  | .thisRef .. => "this"
  | .superRef _ method _ => "(super " ++ method.lexeme ++ ")"
  | .vector _ elements => parenthesized ("vec" :: Expr.prefixedAll elements)

/-- Each of some expressions in prefix form. -/
def Expr.prefixedAll : List (Expr δ) → List String
  | [] => []
  | e :: rest => e.prefixed :: Expr.prefixedAll rest

end

end Lox
