import Lox.Command.Run

/-!
# Arguments of the command

The words after the name of the command are options and operands. Options before the
first operand belong to the command itself; that operand names an action, and all
words after it belong to the action. Words after a double dash are operands whatever
they look like.

A long option may be shortened as long as its beginning fits no other one, and takes
a value after an equals sign. Short options without a value may be written as one
word; a short option with a value takes the rest of its word for it. Between the first
short option of a word and the rest there may be an equals sign, which counts for
nothing.
-/

namespace Lox

/-! ## Decimal digits of all scripts

Many scripts have ten digits of their own. In the Unicode character database the ten
of a script follow one another from its zero on, so that the zeros say where they
are. The table is that of version 14. -/

/-- The code points of the zeros, in increasing order. -/
def decimalZeros : List Nat := [
  0x30, 0x660, 0x6f0, 0x7c0, 0x966, 0x9e6, 0xa66, 0xae6, 0xb66, 0xbe6, 0xc66, 0xce6, 0xd66,
  0xde6, 0xe50, 0xed0, 0xf20, 0x1040, 0x1090, 0x17e0, 0x1810, 0x1946, 0x19d0, 0x1a80, 0x1a90,
  0x1b50, 0x1bb0, 0x1c40, 0x1c50, 0xa620, 0xa8d0, 0xa900, 0xa9d0, 0xa9f0, 0xaa50, 0xabf0,
  0xff10, 0x104a0, 0x10d30, 0x11066, 0x110f0, 0x11136, 0x111d0, 0x112f0, 0x11450, 0x114d0,
  0x11650, 0x116c0, 0x11730, 0x118e0, 0x11950, 0x11c50, 0x11d50, 0x11da0, 0x16a60, 0x16ac0,
  0x16b50, 0x1d7ce, 0x1d7d8, 0x1d7e2, 0x1d7ec, 0x1d7f6, 0x1e140, 0x1e2f0, 0x1e950, 0x1fbf0]

/-- Is this a decimal digit of any script? -/
def isDecimalDigit (c : Char) : Bool :=
  decimalZeros.any fun first => first ≤ c.toNat && c.toNat < first + 10

/-! ## Options -/

/-- The options there are. -/
inductive OptionKind where
  | help | verbose | config | expression
deriving DecidableEq, Repr

namespace OptionKind

/-- Does an option take a value? -/
def takesValue : OptionKind → Bool
  | config => true
  | _ => false

end OptionKind

/-- Options by their names. -/
abbrev OptionTable := List (String × OptionKind)

/-- The options of the command itself. -/
def commandOptions : OptionTable :=
  [("-h", .help), ("--help", .help), ("-v", .verbose), ("--verbose", .verbose),
   ("-c", .config), ("--config", .config)]

/-- The options of every action. -/
def actionOptions : OptionTable :=
  [("-h", .help), ("--help", .help)]

/-- What a word is, before it is known what it is for. -/
inductive Word where
  | operand
  | doubleDash
  /-- An option, with the value that an equals sign gives it. -/
  | option (kind : OptionKind) (value : Option String)
  /-- A short option with more after it in the same word, if only an equals sign. -/
  | cluster (kind : OptionKind) (more : List Char)
  /-- A word that looks like an option and is none. -/
  | unknown
  /-- The beginning of several long options. -/
  | ambiguous
deriving DecidableEq, Repr

namespace Word

/-- A word split at its first equals sign. -/
def splitValue (word : List Char) : String × Option String :=
  match word.span (· != '=') with
  | (name, '=' :: value) => (String.ofList name, some (String.ofList value))
  | (name, _) => (String.ofList name, none)

/-- Is this a negative number, which is no option? A line may end after it. -/
def isNegativeNumber (word : List Char) : Bool :=
  let word := if word.getLast? == some '\n' then word.dropLast else word
  match word with
  | '-' :: rest =>
    let (whole, rest) := rest.span isDecimalDigit
    match rest with
    | [] => !whole.isEmpty
    | '.' :: fraction => !fraction.isEmpty && fraction.all isDecimalDigit
    | _ => false
  | _ => false

/-- The long options that a word is the beginning of. -/
def longOptions (table : OptionTable) (word : List Char) : List Word :=
  let (name, value) := splitValue word
  table.filterMap fun (full, kind) =>
    if name.toList.isPrefixOf full.toList then some (.option kind value) else none

/-- The short options that a word of one dash begins with. -/
def shortOptions (table : OptionTable) (word : List Char) : List Word :=
  let name := String.ofList (word.take 2)
  table.filterMap fun (short, kind) =>
    if short = name then some (.cluster kind (word.drop 2)) else none

/-- What a word that begins with a dash can stand for, if it is not a name in the
table. -/
def candidates (table : OptionTable) (word : List Char) : List Word :=
  match word with
  | '-' :: '-' :: _ => longOptions table word
  | _ => shortOptions table word

/-- Is this the name of a long option? -/
def isLong (name : String) : Bool :=
  ['-', '-'].isPrefixOf name.toList

/-- What a word is that begins with a dash and more. -/
def ofDashed (table : OptionTable) (word : String) : Word :=
  let cs := word.toList
  let (name, value) := splitValue cs
  match table.lookup name, value with
  | some kind, some value =>
    if isLong name then .option kind (some value) else .cluster kind value.toList
  | _, _ =>
    match candidates table cs with
    | [word] => word
    | _ :: _ => .ambiguous
    | [] => if isNegativeNumber cs || cs.contains ' ' then .operand else .unknown

/-- What a word is. -/
def ofString (table : OptionTable) (word : String) : Word :=
  match word.toList with
  | '-' :: _ :: _ =>
    if word = "--" then .doubleDash
    else
      match table.lookup word with
      | some kind => .option kind none
      | none => ofDashed table word
  | _ => .operand

end Word

/-- A word as it was written, with what it is. -/
abbrev MarkedWord := String × Word

/-- What words are. After a double dash all are operands. -/
def markWords (table : OptionTable) : List String → List MarkedWord
  | [] => []
  | w :: rest =>
    match Word.ofString table w with
    | .doubleDash => (w, .doubleDash) :: rest.map fun w => (w, .operand)
    | word => (w, word) :: markWords table rest

/-- Why there is nothing to do: help was asked for, or the words make no sense. -/
inductive Refusal where
  | help
  | usage
deriving DecidableEq, Repr

/-- Options that were read, with their values. -/
abbrev ReadOptions := List (OptionKind × Option String)

/-- What a word of options stands for. -/
structure Unpacked where
  options : ReadOptions
  /-- Was the operand after the word taken as a value? -/
  taken : Bool := false

/-- What an option alone stands for; `next` is the operand after it, if there is one. -/
def alone (next : Option String) (kind : OptionKind) : Option Unpacked :=
  if kind.takesValue then next.map fun value => { options := [(kind, some value)], taken := true }
  else some { options := [(kind, none)] }

/-- What an option with a value stands for. -/
def valued (kind : OptionKind) (value : String) : Option Unpacked :=
  if kind.takesValue then some { options := [(kind, some value)] } else none

/-- What a short option stands for that has more after it in the same word. -/
def unpack (table : OptionTable) (next : Option String) (kind : OptionKind) :
    List Char → Option Unpacked
  | [] => valued kind ""
  | c :: rest =>
    if kind.takesValue then valued kind (String.ofList (c :: rest))
    else do
      let nextKind ← table.lookup (String.ofList ['-', c])
      let u ← if rest.isEmpty then alone next nextKind else unpack table next nextKind rest
      some { u with options := (kind, none) :: u.options }

/-- The operand that comes next. -/
def nextOperand? : List MarkedWord → Option String
  | (w, .operand) :: _ => some w
  | _ => none

/-- What a word stands for before the words `rest`; nothing if it is no option. -/
def unpackWord (table : OptionTable) (rest : List MarkedWord) : Word → Option Unpacked
  | .option kind none => alone (nextOperand? rest) kind
  | .option kind (some value) => valued kind value
  | .cluster kind more => unpack table (nextOperand? rest) kind more
  | _ => none

/-- Reads a word of options. Gives the options and the words after it. -/
def readOptions (table : OptionTable) (word : Word) (rest : List MarkedWord) :
    Except Refusal (ReadOptions × List MarkedWord) :=
  match unpackWord table rest word with
  | none => .error .usage
  | some u =>
    if u.options.any (·.1 == .help) then .error .help
    else .ok (u.options, if u.taken then rest.drop 1 else rest)

/-- What the words of an action hold: its operand, its options, and whether any word
is left over. -/
structure ActionWords where
  operand : Option String := none
  options : ReadOptions := []
  surplus : Bool := false

/-- Reads the words of an action, which takes an operand or none. A double dash before
or after the operand is dropped with it. -/
def readActionWords (table : OptionTable) (takesOperand : Bool) :
    Nat → ActionWords → List MarkedWord → Except Refusal ActionWords
  | 0, _, _ => .error .usage
  | _ + 1, found, [] => .ok found
  | n + 1, found, (_, .doubleDash) :: rest =>
    match rest with
    | (w, _) :: rest =>
      if takesOperand ∧ found.operand = none then
        readActionWords table takesOperand n { found with operand := some w } rest
      else
        readActionWords table takesOperand n { found with surplus := true }
          ((w, .operand) :: rest)
    | [] => .ok { found with surplus := true }
  | n + 1, found, (w, .operand) :: rest =>
    if takesOperand ∧ found.operand = none then
      let rest :=
        match rest with
        | (_, .doubleDash) :: after => if after.isEmpty then after else rest
        | _ => rest
      readActionWords table takesOperand n { found with operand := some w } rest
    else readActionWords table takesOperand n { found with surplus := true } rest
  | n + 1, found, (_, .unknown) :: rest =>
    readActionWords table takesOperand n { found with surplus := true } rest
  | n + 1, found, (_, word) :: rest => do
    let (options, rest) ← readOptions table word rest
    readActionWords table takesOperand n { found with options := found.options ++ options } rest

/-- The words of an action, none of which may be ambiguous. -/
def actionWords (table : OptionTable) (takesOperand : Bool) (words : List String) :
    Except Refusal ActionWords :=
  let marked := markWords table words
  if marked.any (·.2 == .ambiguous) then .error .usage
  else do
    let found ← readActionWords table takesOperand (marked.length + 1) {} marked
    if takesOperand ∧ found.operand = none then .error .usage else .ok found

/-- Reads an action from its name and its words; also says whether a word is left
over. -/
def readAction (name : String) (words : List String) : Except Refusal (Action × Bool) := do
  let withFile (make : String → Action) : Except Refusal (Action × Bool) := do
    let found ← actionWords actionOptions true words
    pure (make (found.operand.getD ""), found.surplus)
  match name with
  | "run" => withFile .run
  | "check" => withFile .check
  | "tokens" => withFile .tokens
  | "ast" => do
    let found ← actionWords (actionOptions ++ [("--expr", .expression)]) true words
    let expression := found.options.any (·.1 == .expression)
    pure (.ast (found.operand.getD "") expression, found.surplus)
  | "repl" => do
    let found ← actionWords actionOptions false words
    pure (.repl, found.surplus)
  | _ => .error .usage

namespace Arguments

/-- The arguments with one more option. -/
def take (a : Arguments) : OptionKind × Option String → Arguments
  | (.verbose, _) => { a with verbose := true }
  | (.config, value) => { a with config := value }
  | _ => a

/-- Reads the words of the command; `surplus` says that one was left over. -/
def read (surplus : Bool) : Nat → Arguments → List MarkedWord → Except Refusal Arguments
  | 0, _, _ => .error .usage
  | _ + 1, a, [] => if surplus then .error .usage else .ok a
  | _ + 1, a, (name, .operand) :: rest => do
    let (action, more) ← readAction name (rest.map Prod.fst)
    if surplus || more then .error .usage else .ok { a with action := action }
  | _ + 1, _, (_, .doubleDash) :: _ => .error .usage
  | n + 1, a, (_, .unknown) :: rest => read true n a rest
  | n + 1, a, (_, word) :: rest => do
    let (options, rest) ← readOptions commandOptions word rest
    read surplus n (options.foldl take a) rest

/-- The arguments that words stand for. -/
def ofWords (words : List String) : Except Refusal Arguments :=
  let marked := markWords commandOptions words
  if marked.any (·.2 == .ambiguous) then .error .usage
  else read false (marked.length + 1) {} marked

end Arguments

/-! ## The command by its words -/

/-- How to use the command. -/
def usageText : String :=
  "usage: " ++ commandName ++
    " [-h] [-v] [-c FILE] \x7brun,check,ast,tokens,repl\x7d ...\n"

/-- What the command shows when it is asked for help. -/
def helpText : String :=
  usageText ++ "\n" ++
  "Tree-walking interpreter for the Lox language\n\n" ++
  "actions:\n" ++
  "  run FILE           run a script\n" ++
  "  check FILE         check a script for errors without running it\n" ++
  "  ast FILE [--expr]  print the syntax tree of a script\n" ++
  "  tokens FILE        print the tokens of a script\n" ++
  "  repl               start an interactive session\n\n" ++
  "options:\n" ++
  "  -h, --help         show this help message and exit\n" ++
  "  -v, --verbose      enable debug logging\n" ++
  "  -c, --config FILE  YAML configuration file\n"

namespace Command

/-- What the command writes on the two streams, and how it ends. -/
def invoke (here : Circumstances) (input : String) (words : List String) :
    String × String × Ending :=
  match Arguments.ofWords words with
  | .error .help => (helpText, "", .exit .success)
  | .error .usage => ("", usageText, .exit .usage)
  | .ok a =>
    let p := perform here input a
    (p.stdout, p.stderr a.verbose, p.ending)

end Command

end Lox
