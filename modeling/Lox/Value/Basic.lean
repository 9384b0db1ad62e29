import Lox.Store.Frames
import Lox.Tree.Basic

/-!
# Values and objects

Numbers, strings, booleans and nil are plain values. Functions, classes and native
functions are values too; they never change after they were made, so they are kept
whole, with a number that tells two of them apart that were made at different
times. Only instances change. They live in a store, a value refers to one by its
place there, and so two references to one instance see the same fields.
-/

namespace Lox

/-- What goes wrong inside the machine itself, beyond what the language reports
as an error of the program. -/
inductive Fault where
  /-- A variable was not where its distance says. -/
  | distance (fault : DistanceFault)
  /-- `super` was reached without a distance. -/
  | unresolvedSuper
  /-- The value found as a superclass is no class. -/
  | superNotClass
  /-- A native method of vectors was called on something else. -/
  | notVector
  /-- A native function broke down in a way it may not. -/
  | brokenNative
deriving DecidableEq, Repr

/-- The report of a fault. -/
def Fault.message : Fault → String
  | distance .pastRoot => "a variable is further out than the globals"
  | distance (.unbound name) => "the variable " ++ quoted name ++ " is not in its frame"
  | unresolvedSuper => "'super' was not resolved"
  | superNotClass => "the superclass is not a class"
  | notVector => "a method of vectors was called on something else"
  | brokenNative => "a native function broke down"

/-- What the body of a native function does. Those that were added to the standard
ones give one of their arguments back, or fail in one of three ways. -/
inductive NativeBody where
  /-- The time. -/
  | clock
  /-- The kind of its argument. -/
  | typeOf
  /-- Adds its argument to the end of the vector it is called on. -/
  | append
  /-- The length of the vector it is called on. -/
  | length
  /-- The element of the vector it is called on, at its argument. -/
  | elementAt
  /-- The argument with an index, or nil. -/
  | argument (index : Option Nat)
  /-- A refusal with a message of its own. -/
  | refuse (message : String)
  /-- A failure that is reported under the name of the function. -/
  | fail (message : String)
  /-- A failure that is not caught. -/
  | breakDown
deriving DecidableEq, Repr

/-- A native function, or a native method that is not yet a method of anything. -/
structure Native where
  name : String
  arity : Nat
  body : NativeBody
  doc : String := ""
deriving DecidableEq, Repr

/-- A function of the program with the environment it was declared in. -/
structure Closure where
  declaration : FunDecl Slot
  env : Env
  isInitializer : Bool := false

namespace Closure

def name (c : Closure) : String := c.declaration.name.lexeme

def arity (c : Closure) : Nat := c.declaration.params.length

end Closure

/-- What a class keeps under the name of a method. -/
inductive Method where
  | closure (c : Closure)
  | native (n : Native)

namespace Method

def arity : Method → Nat
  | closure c => c.arity
  | native n => n.arity

end Method

/-- A class without its ancestors. -/
structure ClassBody where
  /-- Tells classes apart. -/
  id : Nat
  name : String
  methods : Bindings Method
  /-- Are the instances made by calling it vectors? -/
  isVector : Bool := false

/-- A class with all its ancestors, which were there before it and never change. -/
inductive Class where
  | root (body : ClassBody)
  | derived (body : ClassBody) (superclass : Class)

namespace Class

def body : Class → ClassBody
  | root body => body
  | derived body _ => body

def id (c : Class) : Nat := c.body.id

def name (c : Class) : String := c.body.name

def superclass? : Class → Option Class
  | root _ => none
  | derived _ superclass => some superclass

/-- The method with a name in the nearest class that has one, going upwards. -/
def findMethod? : Class → String → Option Method
  | root body, name => body.methods.find? name
  | derived body superclass, name =>
    match body.methods.find? name with
    | some m => some m
    | none => superclass.findMethod? name

/-- How many arguments making an instance takes: those of the initializer. -/
def arity (c : Class) : Nat :=
  ((c.findMethod? initializerName).map Method.arity).getD 0

end Class

/-- Values. The first number of a function tells functions apart. -/
inductive Value where
  | nil
  | bool (b : Bool)
  | number (x : Float)
  | text (s : String)
  | function (id : Nat) (closure : Closure)
  | native (id : Nat) (native : Native)
  /-- A native method, of `receiver`; that of nil is not a method of anything. -/
  | nativeMethod (id : Nat) (native : Native) (receiver : Value)
  | cls (c : Class)
  | object (ref : Nat)
  /-- What a variable holds that was declared without a value. It marks the
  variable and is never the value of an expression. -/
  | unassigned

/-- An instance of a class. -/
structure Instance where
  cls : Class
  fields : Bindings Value := []
  /-- The elements, if it is a vector. -/
  elements : Option (Array Value) := none

/-- All instances that were ever made. -/
abbrev Objects := Array Instance

namespace Constant

def toValue : Constant → Value
  | nil => .nil
  | bool b => .bool b
  | number x => .number x
  | text s => .text s

end Constant

namespace Value

/-- Nil and false do not hold; everything else does, also zero and the empty
string. -/
def truthy : Value → Bool
  | nil => false
  | bool b => b
  | _ => true

def isNumber : Value → Bool
  | number _ => true
  | _ => false

/-- The word for the kind of a value, which is that of its class for an instance. -/
def typeName (objects : Objects) : Value → String
  | nil => "nil"
  | bool _ => "bool"
  | number _ => "number"
  | text _ => "string"
  | cls _ => "class"
  | object ref => ((objects[ref]?).map (·.cls.name)).getD ""
  | function .. => "function"
  | native .. => "function"
  | nativeMethod .. => "function"
  | unassigned => "_Unassigned"

end Value

/-- Two numbers are the same if they have the same value: the two zeros are, and
so is whatever is not a number with itself and its like. -/
def sameNumber (x y : Float) : Bool :=
  match Binary.ofFloat x, Binary.ofFloat y with
  | .finite _ 0 _, .finite _ 0 _ => true
  | a, b => a == b

namespace Value

/-- Equality as programs see it. Values of different kinds are never equal;
functions, classes and instances are equal only to themselves. -/
def same : Value → Value → Bool
  | nil, nil => true
  | bool a, bool b => a == b
  | number x, number y => sameNumber x y
  | text s, text t => s == t
  | function i _, function j _ => i == j
  | native i _, native j _ => i == j
  | nativeMethod i _ _, nativeMethod j _ _ => i == j
  | cls c, cls d => c.id == d.id
  | object i, object j => i == j
  | unassigned, unassigned => true
  | _, _ => false

end Value

end Lox
