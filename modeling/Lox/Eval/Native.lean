import Lox.Eval.Machine

/-!
# Native functions at work

What the native functions and methods do to the machine. They fail with a message
and never with a place; the call that they fail in gives them one.
-/

namespace Lox
namespace Eval

/-- Fails with a message. -/
def refuse {α : Type} (message : String) : Eval α := abort (.failure message)

/-- The elements of a vector and its place in the store. -/
def vectorAt (receiver : Value) : Eval (Nat × Array Value) := do
  match ← instance? receiver with
  | some (ref, ⟨_, _, some elements⟩) => pure (ref, elements)
  | _ => fault .notVector

/-- Checks that a value is a vector, and gives its place in the store. -/
def vectorRef (receiver : Value) : Eval Nat := do
  let (ref, _) ← vectorAt receiver
  pure ref

def appendTo (receiver v : Value) : Eval Value := do
  let ref ← vectorRef receiver
  modify ref fun i => { i with elements := i.elements.map fun elements => elements.push v }
  pure .nil

def lengthOf (receiver : Value) : Eval Value := do
  let (_, elements) ← vectorAt receiver
  pure (.number elements.size.toFloat)

/-- The element with an index; a negative one counts from the end. -/
def element (elements : Array Value) (index : Int) : Eval Value :=
  let position := if index < 0 then index + elements.size else index
  let bounds := toString index ++ " is out of bounds for vector of length " ++
    toString elements.size ++ "."
  if position < 0 then refuse ("Negative index " ++ bounds)
  else
    match elements[position.toNat]? with
    | some v => pure v
    | none => refuse ("Index " ++ bounds)

/-- The integer that a value is, if it is one. -/
def index? : Value → Option Int
  | .number x => (Binary.ofFloat x).toInt?
  | _ => none

def elementAt (receiver index : Value) : Eval Value :=
  match index? index with
  | some i => do
    let (_, elements) ← vectorAt receiver
    element elements i
  | none => fun m =>
    let shown :=
      match index with
      | .number x => Layout.display.number x
      | v => v.typeName m.objects
    refuse ("Vectors can only be indexed with integers, index is: " ++ shown ++ ".") m

/-- The name that a body shows in reports about its arguments, and its parameters, two
at most, of which the receiver of a method is the first. Without them it takes what it
is given. -/
def parameters? : NativeBody → Option (String × List String)
  | .clock => some ("BuiltinRegistry._register_all.<locals>.<lambda>", [])
  | .typeOf => some ("type_name", ["value"])
  | .append => some ("_vec_append", ["vector", "value"])
  | .length => some ("_vec_length", ["vector"])
  | .elementAt => some ("_vec_at", ["vector", "index"])
  | _ => none

/-- What is wrong with the number of arguments, if anything. -/
def countFault? (body : NativeBody) (given : Nat) : Option String :=
  match parameters? body with
  | none => none
  | some (name, parameters) =>
    let plural (n : Nat) : String := if n = 1 then "" else "s"
    let missing := parameters.drop given
    if !missing.isEmpty then
      some (name ++ "() missing " ++ toString missing.length ++
        " required positional argument" ++ plural missing.length ++ ": " ++
        String.intercalate " and " (missing.map quoted))
    else if parameters.length < given then
      some (name ++ "() takes " ++ toString parameters.length ++ " positional argument" ++
        plural parameters.length ++ " but " ++ toString given ++
        (if given = 1 then " was given" else " were given"))
    else none

/-- What a native function does with its arguments, of which there are enough; the
receiver of a method is the first of them. -/
def runBody (n : Native) (arguments : List Value) : Eval Value :=
  match n.body, arguments with
  | .clock, _ => readClock
  | .typeOf, v :: _ => fun m => .ok (.text (v.typeName m.objects)) m
  | .append, receiver :: v :: _ => appendTo receiver v
  | .length, receiver :: _ => lengthOf receiver
  | .elementAt, receiver :: index :: _ => elementAt receiver index
  | .argument none, _ => pure .nil
  | .argument (some i), _ =>
    match arguments[i]? with
    | some v => pure v
    | none => refuse (n.name ++ ": tuple index out of range")
  | .refuse message, _ => refuse message
  | .fail message, _ => refuse (n.name ++ ": " ++ message)
  | .breakDown, _ => fault .brokenNative
  | _, _ => pure .nil

/-- Calls a native function. -/
def runFunction (n : Native) (arguments : List Value) : Eval Value :=
  match countFault? n.body arguments.length with
  | some message => refuse (n.name ++ ": " ++ message)
  | none => runBody n arguments

/-- Calls a native method that was taken from `receiver`. -/
def runMethod (n : Native) (receiver : Value) (arguments : List Value) : Eval Value :=
  match receiver with
  | .nil => refuse ("Method '" ++ n.name ++ "' called without a receiver.")
  | _ => runFunction n (receiver :: arguments)

end Eval
end Lox
