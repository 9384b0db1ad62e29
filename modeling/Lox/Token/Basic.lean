import Lox.Decimal.Layout
import Lox.Text.Quoted

/-!
# Tokens

A token is a lexeme with the kind it was read as, the constant it stands for if
it is a number or a string, and the place where it starts.
-/

namespace Lox

/-- The kinds of token. -/
inductive TokenKind where
  | leftParen | rightParen | leftBrace | rightBrace | leftBracket | rightBracket
  | comma | dot | minus | plus | semicolon | slash | star | question | colon
  | bang | bangEqual | equal | equalEqual | greater | greaterEqual | less | lessEqual
  | identifier | string | number
  | andWord | classWord | elseWord | falseWord | funWord | forWord | ifWord | importWord
  | nilWord | orWord | printWord | returnWord | superWord | thisWord | trueWord | varWord
  | whileWord
  | eof
deriving DecidableEq, Repr

namespace TokenKind

/-- The name a kind has in token dumps. -/
def name : TokenKind → String
  | leftParen => "LEFT_PAREN"
  | rightParen => "RIGHT_PAREN"
  | leftBrace => "LEFT_BRACE"
  | rightBrace => "RIGHT_BRACE"
  | leftBracket => "LEFT_BRACKET"
  | rightBracket => "RIGHT_BRACKET"
  | comma => "COMMA"
  | dot => "DOT"
  | minus => "MINUS"
  | plus => "PLUS"
  | semicolon => "SEMICOLON"
  | slash => "SLASH"
  | star => "STAR"
  | question => "QUESTION"
  | colon => "COLON"
  | bang => "BANG"
  | bangEqual => "BANG_EQUAL"
  | equal => "EQUAL"
  | equalEqual => "EQUAL_EQUAL"
  | greater => "GREATER"
  | greaterEqual => "GREATER_EQUAL"
  | less => "LESS"
  | lessEqual => "LESS_EQUAL"
  | identifier => "IDENTIFIER"
  | string => "STRING"
  | number => "NUMBER"
  | andWord => "AND"
  | classWord => "CLASS"
  | elseWord => "ELSE"
  | falseWord => "FALSE"
  | funWord => "FUN"
  | forWord => "FOR"
  | ifWord => "IF"
  | importWord => "IMPORT"
  | nilWord => "NIL"
  | orWord => "OR"
  | printWord => "PRINT"
  | returnWord => "RETURN"
  | superWord => "SUPER"
  | thisWord => "THIS"
  | trueWord => "TRUE"
  | varWord => "VAR"
  | whileWord => "WHILE"
  | eof => "EOF"

/-- The reserved words with their kinds. -/
def keywords : List (String × TokenKind) :=
  [("and", andWord), ("class", classWord), ("else", elseWord), ("false", falseWord),
   ("fun", funWord), ("for", forWord), ("if", ifWord), ("import", importWord),
   ("nil", nilWord), ("or", orWord), ("print", printWord), ("return", returnWord),
   ("super", superWord), ("this", thisWord), ("true", trueWord), ("var", varWord),
   ("while", whileWord)]

/-- The kind of a word: that of the reserved word if it is one, else a name. -/
def ofWord (word : String) : TokenKind :=
  (keywords.lookup word).getD identifier

/-- The kinds that begin a new statement. After a syntax error parsing goes on
at the next of them. -/
def startsStatement : TokenKind → Bool
  | classWord | funWord | varWord | forWord | ifWord | importWord | whileWord | printWord
  | returnWord => true
  | _ => false

/-- The kinds that open a bracket. -/
def opens : TokenKind → Bool
  | leftBrace | leftParen | leftBracket => true
  | _ => false

/-- The kinds that close a bracket. -/
def closes : TokenKind → Bool
  | rightBrace | rightParen | rightBracket => true
  | _ => false

end TokenKind

/-- The constants that can be written in a program. -/
inductive Constant where
  | nil
  | bool (b : Bool)
  | number (x : Float)
  | text (s : String)
deriving DecidableEq

/-- A token. Only numbers and strings carry a constant other than `nil`. Lines
and columns count from one; a token made without a source may have any. -/
structure Token where
  kind : TokenKind
  lexeme : String
  literal : Constant := .nil
  line : Int
  column : Int := 0
deriving DecidableEq

namespace Token

/-- The end of the input. -/
def endOfInput (line column : Int) : Token where
  kind := .eof
  lexeme := ""
  line := line
  column := column

/-- The line of a token in a token dump: kind, lexeme, and the constant if there
is one. -/
def render (t : Token) : String :=
  let head := t.kind.name ++ " " ++ t.lexeme
  match t.literal with
  | .nil => head
  | .bool b => head ++ (if b then " True" else " False")
  | .number x => head ++ " " ++ Layout.dump.number x
  | .text s => head ++ " " ++ quoted s

end Token

/-- The names that the language itself gives a meaning to inside classes. -/
def initializerName : String := "init"

/-- The name under which a method sees its receiver. -/
def thisName : String := "this"

/-- The name under which a method sees the superclass of its class. -/
def superName : String := "super"

end Lox
