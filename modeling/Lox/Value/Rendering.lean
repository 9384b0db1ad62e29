import Lox.Value.Basic

/-!
# Values as text

`write` gives the text that a program prints for a value. A vector is written with all its
elements, however often it occurs; only inside its own text do dots stand for it. So the
vectors that are being written are marked: a vector is marked before its elements are
written, and its mark is taken off after them, also when one of them could not be written.
Past a limit on the nesting of vectors there is no text.
-/

namespace Lox
namespace Value

/-- The text of a value that is no vector. -/
def plainText (objects : Objects) : Value → String
  | nil => "nil"
  | bool b => if b then "true" else "false"
  | number x => Layout.display.number x
  | text s => s
  | function _ c => "<fn " ++ c.name ++ ">"
  | native _ n => "<native fn " ++ n.name ++ ">"
  | nativeMethod _ n _ => "<native method " ++ n.name ++ ">"
  | cls c => c.name
  | object ref => ((objects[ref]?).map fun inst => inst.cls.name ++ " instance").getD ""
  | unassigned => "UNASSIGNED"

/-- Writes some values in order, up to the first that cannot be written. -/
def writeAll (write : Value → List Nat → Option String × List Nat) :
    List Value → List Nat → Option (List String) × List Nat
  | [], writing => (some [], writing)
  | v :: rest, writing =>
    match write v writing with
    | (none, writing) => (none, writing)
    | (some first, writing) =>
      let (texts, writing) := writeAll write rest writing
      (texts.map (first :: ·), writing)

/-- Writes a value while some vectors are marked, and gives its text and the marks after
it. It gives up where vectors are nested deeper than the limit. -/
def write (objects : Objects) : Nat → Value → List Nat → Option String × List Nat
  | 0, object _, writing => (none, writing)
  | limit + 1, object ref, writing =>
    match (objects[ref]?).bind Instance.elements with
    | none => (some ((object ref).plainText objects), writing)
    | some elements =>
      if ref ∈ writing then (some "[...]", writing)
      else
        let (texts, after) := writeAll (write objects limit) elements.toList (ref :: writing)
        (texts.map fun texts => "[" ++ String.intercalate ", " texts ++ "]", after.erase ref)
  | _, v, writing => (some (v.plainText objects), writing)

end Value

namespace Class

/-- A class with its superclass, for those who inspect it. -/
def describe (c : Class) : String :=
  match c.superclass? with
  | none => "LoxClass(" ++ c.name ++ ")"
  | some s => "LoxClass(" ++ c.name ++ " < " ++ s.name ++ ")"

end Class

namespace Closure

/-- A function with its arity, for those who inspect it. -/
def describe (c : Closure) : String :=
  "LoxFunction(" ++ c.name ++ ", arity=" ++ toString c.arity ++ ")"

end Closure

namespace Instance

/-- An instance with the names of its fields, for those who inspect it. -/
def describe (i : Instance) : String :=
  "LoxInstance(" ++ i.cls.name ++ ", fields=" ++ quotedList (sortedTexts i.fields.names) ++ ")"

end Instance

end Lox
