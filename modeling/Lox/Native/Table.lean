import Lox.Value.Basic

/-!
# The table of native functions

Native functions are known by their names, native methods by the names of their
class and their own. The class of vectors is built from the table once, when the
table is made; what is registered for vectors later stands in the table alone.
-/

namespace Lox

/-- Native functions and methods. -/
structure NativeTable where
  functions : Bindings Native
  /-- Methods by the name of their class and their own. -/
  methods : List ((String × String) × Native)
  /-- The class of vectors, which no program declares. -/
  vectorClass : Class

/-- The name of the class of vectors. -/
def vectorClassName : String := "vec"

namespace NativeTable

/-- The methods of a class in a list of methods. -/
def methodsIn (methods : List ((String × String) × Native)) (className : String) :
    Bindings Native :=
  methods.filterMap fun ((owner, name), n) => if owner = className then some (name, n) else none

/-- The class of vectors that the methods make. -/
def makeVectorClass (methods : List ((String × String) × Native)) : Class :=
  .root
    { id := 0
      name := vectorClassName
      methods := (methodsIn methods vectorClassName).map fun (name, n) => (name, .native n)
      isVector := true }

def standardFunctions : List Native :=
  [{ name := "clock", arity := 0, body := .clock, doc := "Seconds since the epoch." },
   { name := "type", arity := 1, body := .typeOf
     doc := "Type tag of a value; instances report their class name." }]

def standardVectorMethods : List Native :=
  [{ name := "append", arity := 1, body := .append, doc := "Append a value; returns nil." },
   { name := "length", arity := 0, body := .length, doc := "Number of elements." },
   { name := "at", arity := 1, body := .elementAt
     doc := "Element at an index; negative counts from the end." }]

/-- The table that every session has. -/
def standard : NativeTable :=
  let methods := standardVectorMethods.map fun n => ((vectorClassName, n.name), n)
  { functions := standardFunctions.map fun n => (n.name, n)
    methods := methods
    vectorClass := makeVectorClass methods }

def function? (t : NativeTable) (name : String) : Option Native :=
  t.functions.find? name

def method? (t : NativeTable) (className name : String) : Option Native :=
  t.methods.lookup (className, name)

/-- The methods of a class. -/
def methodsOf (t : NativeTable) (className : String) : Bindings Native :=
  methodsIn t.methods className

/-- Adds a function, in the place of one with its name. -/
def register (t : NativeTable) (n : Native) : NativeTable :=
  { t with functions := t.functions.insert n.name n }

/-- A list of methods with one more, in the place of one with its names. -/
def insertMethod (key : String × String) (n : Native) :
    List ((String × String) × Native) → List ((String × String) × Native)
  | [] => [(key, n)]
  | (k, m) :: rest => if k = key then (key, n) :: rest else (k, m) :: insertMethod key n rest

/-- Adds a method of a class, in the place of one with its names. -/
def registerMethod (t : NativeTable) (className : String) (n : Native) : NativeTable :=
  { t with methods := insertMethod (className, n.name) n t.methods }

/-- The global names that the table stands for, in the order in which they are
bound. Functions are told apart by their places in the table. -/
def globals (t : NativeTable) : Bindings Value :=
  (t.functions.zipIdx.map fun ((name, n), i) => (name, .native i n)) ++
    [(t.vectorClass.name, .cls t.vectorClass)]

end NativeTable

end Lox
