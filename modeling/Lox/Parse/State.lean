import Lox.Diagnostic
import Lox.Note

/-!
# Reading tokens one after the other

The state of a parse is what is still ahead, what has been taken, and what has been
found wrong so far. A step either gives a result or fails; failing keeps the state,
faults included, so that the parse can be taken up again at a later token. A step that
cannot be finished, because the budget that bounds the recursion is used up or because
it looks back where nothing has been taken, has an outcome of its own and is not taken
for a failure.
-/

namespace Lox

/-- The state of a parse. -/
structure ParseState where
  /-- The tokens before the end of the input. -/
  ahead : List Token
  /-- The end of the input. -/
  finish : Token
  /-- The tokens that have been taken, the last one first. -/
  taken : List Token := []
  /-- The faults found so far, in the order in which they were found. -/
  faults : List SyntaxFault := []
  notes : List Note := []

/-- How a step of the parse ends. -/
inductive Step (α : Type) where
  | ok (value : α) (s : ParseState)
  | failed (s : ParseState)
  | spent (s : ParseState)

/-- A step of the parse. -/
def Parse (α : Type) := ParseState → Step α

namespace ParseState

/-- The state before the first of some tokens. Nothing after the first end of
input counts. Tokens that lack one are given one on the line of the last. -/
def ofTokens (tokens : List Token) : ParseState where
  ahead := tokens.takeWhile (·.kind != .eof)
  finish :=
    match tokens.dropWhile (·.kind != .eof) with
    | t :: _ => t
    | [] => Token.endOfInput ((tokens.getLast?.map (·.line)).getD 1) 0

/-- The next token. -/
def current (s : ParseState) : Token :=
  s.ahead.headD s.finish

/-- How many tokens have been taken, which is the index of the next one. -/
def position (s : ParseState) : Nat :=
  s.taken.length

/-- The state with one more fault. -/
def record (s : ParseState) (fault : SyntaxFault) : ParseState :=
  { s with faults := s.faults ++ [fault] }

/-- The state with one more note. -/
def note (s : ParseState) (n : Note) : ParseState :=
  { s with notes := s.notes ++ [n] }

/-- The state after the next token. At the end of the input there is none to take. -/
def advance (s : ParseState) : ParseState :=
  { s with ahead := s.ahead.tail, taken := s.ahead.head?.toList ++ s.taken }

end ParseState

namespace Parse

variable {α β : Type}

@[always_inline]
instance : Monad Parse where
  pure a := fun s => .ok a s
  bind p f := fun s =>
    match p s with
    | .ok a s => f a s
    | .failed s => .failed s
    | .spent s => .spent s

/-- The end of the recursion budget. -/
def spent : Parse α := fun s => .spent s

/-- The next token, which stays ahead. -/
def current : Parse Token := fun s => .ok s.current s

/-- The token that was taken last. -/
def previous : Parse Token := fun s =>
  match s.taken with
  | t :: _ => .ok t s
  | [] => .spent s

/-- Is nothing ahead any more? -/
def atEnd : Parse Bool := fun s => .ok s.ahead.isEmpty s

/-- Is the next token of this kind? -/
def check (kind : TokenKind) : Parse Bool := fun s =>
  .ok (s.ahead.head?.any (·.kind == kind)) s

/-- Takes the next token if its kind is wanted. -/
def acceptIf (wanted : TokenKind → Bool) : Parse (Option Token) := fun s =>
  match s.ahead with
  | t :: _ => if wanted t.kind then .ok (some t) s.advance else .ok none s
  | [] => .ok none s

/-- Takes the next token if it is of this kind. -/
def accept (kind : TokenKind) : Parse (Option Token) :=
  acceptIf (· == kind)

/-- Notes a fault and goes on. -/
def record (fault : SyntaxFault) : Parse Unit := fun s => .ok () (s.record fault)

/-- Reports the next token as unexpected, and fails. -/
def unexpected (message : String) : Parse α := fun s =>
  .failed (s.record (.unexpectedToken s.current message))

/-- Takes the next token, which has to be of this kind. -/
def expect (kind : TokenKind) (message : String) : Parse Token := do
  match ← accept kind with
  | some t => pure t
  | none => unexpected message

/-- Leaves a note. -/
def note (n : Note) : Parse Unit := fun s => .ok () (s.note n)

/-- Gives a recursive step a budget in proportion to the number of tokens ahead. -/
def budgeted (factor : Nat) (p : Nat → Parse α) : Parse α := fun s =>
  p (factor * (s.ahead.length + 1)) s

/-- Takes the next token, whatever it is. -/
def discard : Parse Unit := fun s => .ok () s.advance

/-- Skips tokens up to the likely beginning of a statement: after a semicolon, or
before a word that begins one. -/
def skip : Nat → Parse Unit
  | 0 => spent
  | n + 1 => do
    if ← atEnd then pure ()
    else do
      let last ← previous
      let next ← current
      if last.kind = .semicolon ∨ next.kind.startsStatement then pure ()
      else do
        discard
        skip n

/-- Skips at least one token, and on to the likely beginning of a statement. -/
def synchronize : Parse Unit := do
  discard
  budgeted 1 skip

/-- Turns a failure into `none`, after skipping to the next statement. -/
def rescue (p : Parse α) : Parse (Option α) := fun s =>
  match p s with
  | .ok a s => .ok (some a) s
  | .failed s => (synchronize >>= fun _ => pure none) s
  | .spent s => .spent s

end Parse

end Lox
