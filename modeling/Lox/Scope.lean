/-!
# Scopes

A scope knows the names that are declared in it, and of each whether it may be
read yet. The scopes around a place are a list, innermost first; what is declared
outside of all of them is global. The distance of a name is its position in that
list, which is the number of frames to go outwards when the program runs.
-/

namespace Lox

/-! ## Names bound to things

A finite map from names is a list of pairs, oldest binding first. A name stands in it once
as long as bindings are made by `insert`. -/

/-- Names with what they are bound to. -/
abbrev Bindings (α : Type) := List (String × α)

namespace Bindings

variable {α : Type}

/-- What a name is bound to. -/
def find? (b : Bindings α) (name : String) : Option α :=
  b.lookup name

def contains (b : Bindings α) (name : String) : Bool :=
  (b.find? name).isSome

/-- Binds a name, in the place of its earlier binding if it has one. -/
def insert (name : String) (value : α) : Bindings α → Bindings α
  | [] => [(name, value)]
  | (n, v) :: rest =>
    if n = name then (name, value) :: rest else (n, v) :: insert name value rest

/-- The names that are bound. -/
def names (b : Bindings α) : List String :=
  b.map Prod.fst

end Bindings

/-! ## Scopes around a place -/

/-- One scope: its names, each with the mark whether its value is there yet. -/
structure Scope where
  label : String := ""
  marks : Bindings Bool := []
deriving DecidableEq, Repr

/-- The scopes around a place, innermost first. -/
abbrev Scopes := List Scope

namespace Scope

/-- The scope with a name that may not be read yet. -/
def declare (s : Scope) (name : String) : Scope :=
  { s with marks := s.marks.insert name false }

/-- The scope with a name that may be read. -/
def define (s : Scope) (name : String) : Scope :=
  { s with marks := s.marks.insert name true }

def isDeclared (s : Scope) (name : String) : Bool :=
  s.marks.contains name

def isDefined (s : Scope) (name : String) : Bool :=
  s.marks.find? name == some true

end Scope

namespace Scopes

/-- How many scopes lie between the innermost one and the one that declares a
name; nothing if none does. -/
def distanceTo? (s : Scopes) (name : String) : Option Nat :=
  s.findIdx? (·.isDeclared name)

/-- Declares a name in the innermost scope. Outside of all scopes nothing is
tracked. -/
def declare (name : String) : Scopes → Scopes
  | [] => []
  | scope :: rest => scope.declare name :: rest

/-- Makes a name readable in the innermost scope. -/
def define (name : String) : Scopes → Scopes
  | [] => []
  | scope :: rest => scope.define name :: rest

/-- Is a name already declared in the innermost scope? -/
def declaresHere (s : Scopes) (name : String) : Bool :=
  s.head?.any (·.isDeclared name)

/-- Is a name declared in the innermost scope, but not readable yet? -/
def isPending (s : Scopes) (name : String) : Bool :=
  s.head?.any fun scope => scope.isDeclared name && !scope.isDefined name

/-- The scope with an index. Indices count from the outermost scope, negative
ones from beyond the innermost. -/
def at? (s : Scopes) (index : Int) : Option Scope :=
  if 0 ≤ index then s.reverse[index.toNat]? else s[(-index - 1).toNat]?

end Scopes

end Lox
