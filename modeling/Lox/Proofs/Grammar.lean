import Lox.Parse.Statement

/-!
# The grammar

The language as a relation between lists of tokens and trees, one constructor for
each production. Nothing here runs: the relation says which lists are programs
and what their trees are, and the parser is held against it.

Only one production leaves a choice. After `if (a) if (b) x; else y;` the `else`
can belong to either `if`. A statement is therefore indexed by whether it is open,
that is, whether it ends in an `if` that could still take an `else`. Under the free
rule any `else` may be claimed by any open `if` before it; under the nearest rule
no branch in front of an `else` is open.
-/

namespace Lox
namespace Grammar

mutual

/-- `assignment → ( call "." )? IDENT "=" assignment | logic_or` -/
inductive Assignment : List Token → Expr Unit → Prop
  | var {name equals : Token} {ts : List Token} {value : Expr Unit} :
      name.kind = .identifier → equals.kind = .equal → Assignment ts value →
      Assignment (name :: equals :: ts) (.assign name () value)
  | property {ts us : List Token} {dot name equals : Token} {object value : Expr Unit} :
      Call ts object → dot.kind = .dot → name.kind = .identifier → equals.kind = .equal →
      Assignment us value →
      Assignment (ts ++ dot :: name :: equals :: us) (.set object name value)
  | level {ts : List Token} {e : Expr Unit} : Level .or ts e → Assignment ts e

/-- `level → operand ( operator operand )*`, to the left. -/
inductive Level : Chain → List Token → Expr Unit → Prop
  | operand {level : Chain} {ts : List Token} {e : Expr Unit} :
      Operand level ts e → Level level ts e
  | step {level : Chain} {ts us : List Token} {operator : Token} {left right : Expr Unit} :
      Level level ts left → level.operators operator.kind = true → Operand level us right →
      Level level (ts ++ operator :: us) (level.node left operator right)

/-- What stands between the operators of a level. -/
inductive Operand : Chain → List Token → Expr Unit → Prop
  | or {ts : List Token} {e : Expr Unit} : Level .and ts e → Operand .or ts e
  | and {ts : List Token} {e : Expr Unit} : Conditional ts e → Operand .and ts e
  | equality {ts : List Token} {e : Expr Unit} : Level .comparison ts e → Operand .equality ts e
  | comparison {ts : List Token} {e : Expr Unit} : Level .term ts e → Operand .comparison ts e
  | term {ts : List Token} {e : Expr Unit} : Level .factor ts e → Operand .term ts e
  | factor {ts : List Token} {e : Expr Unit} : Unary ts e → Operand .factor ts e

/-- `conditional → equality ( "?" conditional ":" conditional )?` -/
inductive Conditional : List Token → Expr Unit → Prop
  | plain {ts : List Token} {e : Expr Unit} : Level .equality ts e → Conditional ts e
  | choice {ts us vs : List Token} {question colon : Token}
      {condition thenBranch elseBranch : Expr Unit} :
      Level .equality ts condition → question.kind = .question → Conditional us thenBranch →
      colon.kind = .colon → Conditional vs elseBranch →
      Conditional (ts ++ question :: us ++ colon :: vs)
        (.conditional condition thenBranch elseBranch)

/-- `unary → ( "!" | "-" ) unary | call` -/
inductive Unary : List Token → Expr Unit → Prop
  | operator {operator : Token} {ts : List Token} {e : Expr Unit} :
      operator.kind = .bang ∨ operator.kind = .minus → Unary ts e →
      Unary (operator :: ts) (.unary operator e)
  | call {ts : List Token} {e : Expr Unit} : Call ts e → Unary ts e

/-- `call → primary ( "(" arguments? ")" | "." IDENT )*` -/
inductive Call : List Token → Expr Unit → Prop
  | primary {ts : List Token} {e : Expr Unit} : Primary ts e → Call ts e
  | call {ts us : List Token} {before paren : Token} {callee : Expr Unit}
      {arguments : List (Expr Unit)} :
      Call ts callee → before.kind = .leftParen → Arguments us arguments →
      paren.kind = .rightParen →
      Call (ts ++ before :: us ++ [paren]) (.call callee paren arguments)
  | property {ts : List Token} {dot name : Token} {object : Expr Unit} :
      Call ts object → dot.kind = .dot → name.kind = .identifier →
      Call (ts ++ [dot, name]) (.get object name)

/-- `arguments?`: expressions with commas between them, not too many. -/
inductive Arguments : List Token → List (Expr Unit) → Prop
  | none : Arguments [] []
  | some {ts : List Token} {es : List (Expr Unit)} :
      Items ts es → es.length ≤ maxArguments → Arguments ts es

/-- `items → expression ( "," expression )*` -/
inductive Items : List Token → List (Expr Unit) → Prop
  | last {ts : List Token} {e : Expr Unit} : Assignment ts e → Items ts [e]
  | more {ts us : List Token} {comma : Token} {e : Expr Unit} {es : List (Expr Unit)} :
      Assignment ts e → comma.kind = .comma → Items us es →
      Items (ts ++ comma :: us) (e :: es)

/-- `primary → NUMBER | STRING | "true" | "false" | "nil" | "this" | IDENT
| "(" expression ")" | "super" "." IDENT | "[" arguments? "]"` -/
inductive Primary : List Token → Expr Unit → Prop
  | number {t : Token} : t.kind = .number → Primary [t] (.literal t.literal)
  | string {t : Token} : t.kind = .string → Primary [t] (.literal t.literal)
  | true {t : Token} : t.kind = .trueWord → Primary [t] (.literal (.bool true))
  | false {t : Token} : t.kind = .falseWord → Primary [t] (.literal (.bool false))
  | nil {t : Token} : t.kind = .nilWord → Primary [t] (.literal .nil)
  | this {t : Token} : t.kind = .thisWord → Primary [t] (.thisRef t ())
  | identifier {t : Token} : t.kind = .identifier → Primary [t] (.var t ())
  | grouping {before after : Token} {ts : List Token} {e : Expr Unit} :
      before.kind = .leftParen → Assignment ts e → after.kind = .rightParen →
      Primary (before :: ts ++ [after]) (.grouping e)
  | super {keyword dot method : Token} :
      keyword.kind = .superWord → dot.kind = .dot → method.kind = .identifier →
      Primary [keyword, dot, method] (.superRef keyword method ())
  | vector {bracket after : Token} {ts : List Token} {elements : List (Expr Unit)} :
      bracket.kind = .leftBracket → Arguments ts elements → after.kind = .rightBracket →
      Primary (bracket :: ts ++ [after]) (.vector bracket elements)

end

/-- `names → IDENT ( "," IDENT )*` -/
inductive Names : List Token → List Token → Prop
  | last {name : Token} : name.kind = .identifier → Names [name] [name]
  | more {name comma : Token} {ts names : List Token} :
      name.kind = .identifier → comma.kind = .comma → Names ts names →
      Names (name :: comma :: ts) (name :: names)

/-- `params?`, not too many. -/
inductive Params : List Token → List Token → Prop
  | none : Params [] []
  | some {ts names : List Token} :
      Names ts names → names.length ≤ maxArguments → Params ts names

/-- An expression that may be missing. -/
inductive Optional : List Token → Option (Expr Unit) → Prop
  | none : Optional [] .none
  | some {ts : List Token} {e : Expr Unit} : Assignment ts e → Optional ts (.some e)

/-- `varDecl → "var" IDENT ( "=" expression )? ";"` -/
inductive VarDecl : List Token → Stmt Unit → Prop
  | plain {word name semicolon : Token} :
      word.kind = .varWord → name.kind = .identifier → semicolon.kind = .semicolon →
      VarDecl [word, name, semicolon] (.varDecl name none)
  | initialized {word name equals semicolon : Token} {ts : List Token} {e : Expr Unit} :
      word.kind = .varWord → name.kind = .identifier → equals.kind = .equal →
      Assignment ts e → semicolon.kind = .semicolon →
      VarDecl (word :: name :: equals :: ts ++ [semicolon]) (.varDecl name (some e))

/-- `exprStmt → expression ";"` -/
inductive ExpressionStatement : List Token → Stmt Unit → Prop
  | mk {ts : List Token} {semicolon : Token} {e : Expr Unit} :
      Assignment ts e → semicolon.kind = .semicolon →
      ExpressionStatement (ts ++ [semicolon]) (.expression e)

/-- The first clause of a `for` loop: `varDecl | exprStmt | ";"`. -/
inductive ForInitializer : List Token → Option (Stmt Unit) → Prop
  | none {semicolon : Token} : semicolon.kind = .semicolon → ForInitializer [semicolon] .none
  | var {ts : List Token} {s : Stmt Unit} : VarDecl ts s → ForInitializer ts (.some s)
  | expression {ts : List Token} {s : Stmt Unit} :
      ExpressionStatement ts s → ForInitializer ts (.some s)

/-- `( "<" IDENT )?` -/
inductive Superclass : List Token → Option (Reference Unit) → Prop
  | none : Superclass [] .none
  | some {less name : Token} : less.kind = .less → name.kind = .identifier →
      Superclass [less, name] (.some ⟨name, ()⟩)

/-- The loop that stands for a `for` statement: the increment follows the body in
a block, a missing condition is true, and the initializer comes first in a block
around everything. -/
def whileForm (initializer : Option (Stmt Unit)) (condition increment : Option (Expr Unit))
    (body : Stmt Unit) : Stmt Unit :=
  let round := increment.elim body fun e => .block [body, .expression e]
  let loop := .whileLoop (condition.getD (.literal (.bool true))) round
  initializer.elim loop fun s => .block [s, loop]

/-- Which `if` an `else` may belong to. -/
inductive ElseRule where
  | free | nearest
deriving DecidableEq

/-- May the branch in front of an `else` be open? -/
def ElseRule.Admits (rule : ElseRule) (isOpen : Bool) : Prop :=
  rule = .nearest → isOpen = false

mutual

/-- `declaration → classDecl | funDecl | varDecl | statement`, open or not. -/
inductive Declaration (rule : ElseRule) : Bool → List Token → Stmt Unit → Prop
  | classDecl {word name before after : Token} {ts us : List Token}
      {superclass : Option (Reference Unit)} {methods : List (FunDecl Unit)} :
      word.kind = .classWord → name.kind = .identifier → Superclass ts superclass →
      before.kind = .leftBrace → Functions rule us methods → after.kind = .rightBrace →
      Declaration rule false (word :: name :: ts ++ before :: us ++ [after])
        (.classDecl name superclass methods)
  | function {word : Token} {ts : List Token} {f : FunDecl Unit} :
      word.kind = .funWord → Function rule ts f →
      Declaration rule false (word :: ts) (.function f)
  | var {ts : List Token} {s : Stmt Unit} : VarDecl ts s → Declaration rule false ts s
  | statement {isOpen : Bool} {ts : List Token} {s : Stmt Unit} :
      Statement rule isOpen ts s → Declaration rule isOpen ts s

/-- `function → IDENT "(" params? ")" block` -/
inductive Function (rule : ElseRule) : List Token → FunDecl Unit → Prop
  | mk {name before after : Token} {ts us names : List Token} {body : List (Stmt Unit)} :
      name.kind = .identifier → before.kind = .leftParen → Params ts names →
      after.kind = .rightParen → Block rule us body →
      Function rule (name :: before :: ts ++ after :: us) (.mk name names body)

/-- `function*` -/
inductive Functions (rule : ElseRule) : List Token → List (FunDecl Unit) → Prop
  | nil : Functions rule [] []
  | cons {ts us : List Token} {f : FunDecl Unit} {fs : List (FunDecl Unit)} :
      Function rule ts f → Functions rule us fs → Functions rule (ts ++ us) (f :: fs)

/-- `block → "{" declaration* "}"` -/
inductive Block (rule : ElseRule) : List Token → List (Stmt Unit) → Prop
  | mk {before after : Token} {ts : List Token} {body : List (Stmt Unit)} :
      before.kind = .leftBrace → Declarations rule ts body → after.kind = .rightBrace →
      Block rule (before :: ts ++ [after]) body

/-- `declaration*` -/
inductive Declarations (rule : ElseRule) : List Token → List (Stmt Unit) → Prop
  | nil : Declarations rule [] []
  | cons {isOpen : Bool} {ts us : List Token} {s : Stmt Unit} {ss : List (Stmt Unit)} :
      Declaration rule isOpen ts s → Declarations rule us ss →
      Declarations rule (ts ++ us) (s :: ss)

/-- `statement → exprStmt | forStmt | ifStmt | printStmt | returnStmt | whileStmt
| block`, open or not. -/
inductive Statement (rule : ElseRule) : Bool → List Token → Stmt Unit → Prop
  | expression {ts : List Token} {s : Stmt Unit} :
      ExpressionStatement ts s → Statement rule false ts s
  | print {word semicolon : Token} {ts : List Token} {e : Expr Unit} :
      word.kind = .printWord → Assignment ts e → semicolon.kind = .semicolon →
      Statement rule false (word :: ts ++ [semicolon]) (.print e)
  | ret {word semicolon : Token} {ts : List Token} {value : Option (Expr Unit)} :
      word.kind = .returnWord → Optional ts value → semicolon.kind = .semicolon →
      Statement rule false (word :: ts ++ [semicolon]) (.ret word value)
  | block {ts : List Token} {body : List (Stmt Unit)} :
      Block rule ts body → Statement rule false ts (.block body)
  | whileLoop {isOpen : Bool} {word before after : Token} {ts us : List Token}
      {condition : Expr Unit} {body : Stmt Unit} :
      word.kind = .whileWord → before.kind = .leftParen → Assignment ts condition →
      after.kind = .rightParen → Statement rule isOpen us body →
      Statement rule isOpen (word :: before :: ts ++ after :: us) (.whileLoop condition body)
  | forLoop {isOpen : Bool} {word before semicolon after : Token} {ts us vs ws : List Token}
      {initializer : Option (Stmt Unit)} {condition increment : Option (Expr Unit)}
      {body : Stmt Unit} :
      word.kind = .forWord → before.kind = .leftParen → ForInitializer ts initializer →
      Optional us condition → semicolon.kind = .semicolon → Optional vs increment →
      after.kind = .rightParen → Statement rule isOpen ws body →
      Statement rule isOpen (word :: before :: ts ++ us ++ semicolon :: vs ++ after :: ws)
        (whileForm initializer condition increment body)
  | ifThen {isOpen : Bool} {word before after : Token} {ts us : List Token}
      {condition : Expr Unit} {thenBranch : Stmt Unit} :
      word.kind = .ifWord → before.kind = .leftParen → Assignment ts condition →
      after.kind = .rightParen → Statement rule isOpen us thenBranch →
      Statement rule true (word :: before :: ts ++ after :: us) (.ifThen condition thenBranch)
  | ifElse {isOpen isOpen' : Bool} {word before after otherwise : Token}
      {ts us vs : List Token} {condition : Expr Unit} {thenBranch elseBranch : Stmt Unit} :
      word.kind = .ifWord → before.kind = .leftParen → Assignment ts condition →
      after.kind = .rightParen → Statement rule isOpen us thenBranch → rule.Admits isOpen →
      otherwise.kind = .elseWord → Statement rule isOpen' vs elseBranch →
      Statement rule isOpen' (word :: before :: ts ++ after :: us ++ otherwise :: vs)
        (.ifElse condition thenBranch elseBranch)

end

/-- `program → declaration* EOF`, with stray semicolons between declarations. -/
inductive Program (rule : ElseRule) : List Token → List (Stmt Unit) → Prop
  | finish {eof : Token} : eof.kind = .eof → Program rule [eof] []
  | semicolon {t : Token} {ts : List Token} {p : List (Stmt Unit)} :
      t.kind = .semicolon → Program rule ts p → Program rule (t :: ts) p
  | declaration {isOpen : Bool} {ts us : List Token} {s : Stmt Unit} {p : List (Stmt Unit)} :
      Declaration rule isOpen ts s → Program rule us p → Program rule (ts ++ us) (s :: p)

end Grammar
end Lox
