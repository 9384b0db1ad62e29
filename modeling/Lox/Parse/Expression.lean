import Lox.Parse.State
import Lox.Tree.Basic

/-!
# Expressions from tokens

The levels of precedence, loosest first:

    assignment   =          to the right
    or           or         to the left
    and          and        to the left
    conditional  ?:         to the right
    equality     == !=      to the left
    comparison   < > <= >=  to the left
    term         + -        to the left
    factor       * /        to the left
    unary        ! -
    call         () .

The six levels that associate to the left have one shape, an operand followed by
any number of operators with an operand each, and are one function of the level.
What stands left of `=` is parsed as an expression first and looked at when the
sign is met; if it cannot be assigned to, that is reported, and parsing goes on.
-/

namespace Lox

/-- The levels that associate to the left. -/
inductive Chain where
  | or | and | equality | comparison | term | factor
deriving DecidableEq, Repr

namespace Chain

/-- The operators of a level. -/
def operators : Chain → TokenKind → Bool
  | .or, .orWord => true
  | .and, .andWord => true
  | .equality, .bangEqual | .equality, .equalEqual => true
  | .comparison, .greater | .comparison, .greaterEqual => true
  | .comparison, .less | .comparison, .lessEqual => true
  | .term, .minus | .term, .plus => true
  | .factor, .slash | .factor, .star => true
  | _, _ => false

/-- The tree of an operator of a level with its two operands. -/
def node {δ : Type} (level : Chain) (left : Expr δ) (operator : Token) (right : Expr δ) :
    Expr δ :=
  match level with
  | .or | .and => .logical left operator right
  | _ => .binary left operator right

end Chain

/-- How many parameters a function, arguments a call and elements a vector may
have. -/
def maxArguments : Nat := 255

namespace Parse

/-- The tree of an assignment to `target`. What cannot be assigned to is reported
at the equals sign, and stands for the whole. -/
def assignTo (target : Expr Unit) (equals : Token) (value : Expr Unit) : Parse (Expr Unit) :=
  match target with
  | .var name slot => pure (.assign name slot value)
  | .get object name => pure (.set object name value)
  | _ => do
    record (.invalidTarget equals)
    pure target

/-- Reports the next token if it begins one item too many of a list. -/
def checkCount (count : Nat) (what : String) : Parse Unit := do
  if maxArguments ≤ count then
    record (.tooMany (← current) what)

mutual

def assignment : Nat → Parse (Expr Unit)
  | 0 => spent
  | n + 1 => do
    let target ← chain n .or
    match ← accept .equal with
    | none => pure target
    | some equals => do
      let value ← assignment n
      assignTo target equals value

/-- A level that associates to the left. -/
def chain : Nat → Chain → Parse (Expr Unit)
  | 0, _ => spent
  | n + 1, level => do
    let left ← operand n level
    chainRest n level left

/-- The operators of a level that follow `left`, with their operands. -/
def chainRest : Nat → Chain → Expr Unit → Parse (Expr Unit)
  | 0, _, _ => spent
  | n + 1, level, left => do
    match ← acceptIf level.operators with
    | none => pure left
    | some operator => do
      let right ← operand n level
      chainRest n level (level.node left operator right)

/-- An operand of a level: whatever binds tighter. -/
def operand : Nat → Chain → Parse (Expr Unit)
  | 0, _ => spent
  | n + 1, .or => chain n .and
  | n + 1, .and => conditional n
  | n + 1, .equality => chain n .comparison
  | n + 1, .comparison => chain n .term
  | n + 1, .term => chain n .factor
  | n + 1, .factor => unary n

def conditional : Nat → Parse (Expr Unit)
  | 0 => spent
  | n + 1 => do
    let condition ← chain n .equality
    match ← accept .question with
    | none => pure condition
    | some _ => do
      let thenBranch ← conditional n
      let _ ← expect .colon "Expect ':' after then branch of conditional expression."
      let elseBranch ← conditional n
      pure (.conditional condition thenBranch elseBranch)

def unary : Nat → Parse (Expr Unit)
  | 0 => spent
  | n + 1 => do
    match ← acceptIf (fun kind => kind == .bang || kind == .minus) with
    | some operator => do
      let inner ← unary n
      pure (.unary operator inner)
    | none => do
      let callee ← primary n
      callRest n callee

/-- The calls and properties that follow `left`. -/
def callRest : Nat → Expr Unit → Parse (Expr Unit)
  | 0, _ => spent
  | n + 1, left => do
    match ← accept .leftParen with
    | some _ => do
      let arguments ← items n .rightParen
      let paren ← expect .rightParen "Expect ')' after arguments."
      callRest n (.call left paren arguments)
    | none => do
      match ← accept .dot with
      | some _ => do
        let name ← expect .identifier "Expect property name after '.'."
        callRest n (.get left name)
      | none => pure left

/-- Expressions with commas between them, up to a closing token that stays ahead. -/
def items : Nat → TokenKind → Parse (List (Expr Unit))
  | 0, _ => spent
  | n + 1, closing => do
    if ← check closing then pure [] else itemsFrom n 0

/-- At least one expression, after `count` earlier ones. -/
def itemsFrom : Nat → Nat → Parse (List (Expr Unit))
  | 0, _ => spent
  | n + 1, count => do
    checkCount count "arguments"
    let item ← assignment n
    match ← accept .comma with
    | none => pure [item]
    | some _ => do
      let rest ← itemsFrom n (count + 1)
      pure (item :: rest)

def primary : Nat → Parse (Expr Unit)
  | 0 => spent
  | n + 1 => do
    let t ← current
    match t.kind with
    | .falseWord => do
      let _ ← accept .falseWord
      pure (.literal (.bool false))
    | .trueWord => do
      let _ ← accept .trueWord
      pure (.literal (.bool true))
    | .nilWord => do
      let _ ← accept .nilWord
      pure (.literal .nil)
    | .number => do
      let _ ← accept .number
      pure (.literal t.literal)
    | .string => do
      let _ ← accept .string
      pure (.literal t.literal)
    | .identifier => do
      let _ ← accept .identifier
      pure (.var t ())
    | .thisWord => do
      let _ ← accept .thisWord
      pure (.thisRef t ())
    | .superWord => do
      let _ ← accept .superWord
      let _ ← expect .dot "Expect '.' after 'super'."
      let method ← expect .identifier "Expect superclass method name."
      pure (.superRef t method ())
    | .leftParen => do
      let _ ← accept .leftParen
      let inner ← assignment n
      let _ ← expect .rightParen "Expect ')' after expression."
      pure (.grouping inner)
    | .leftBracket => do
      let _ ← accept .leftBracket
      let elements ← items n .rightBracket
      let _ ← expect .rightBracket "Expect ']' after vector elements."
      pure (.vector t elements)
    | _ => unexpected "Expect expression."

end

/-- An expression. Between two tokens taken the recursion goes no deeper than
through all levels once, which is less than the factor. -/
def expression : Parse (Expr Unit) :=
  budgeted 32 assignment

end Parse

end Lox
