import Lox.Diagnostic
import Lox.Native.Table
import Lox.Value.Rendering

/-!
# The machine

Everything a running program can change is one record: the frames, the instances,
the current environment, what was printed, the vectors that are being written, and how
often the clock was read. A step of evaluation gives a value
or is aborted, and keeps the changes made up to then either way.

There are four ways to be aborted. An error of the program is reported to the user
and ends the unit. The failure of a native function becomes such an error at the
call. A fault of the machine is neither, and passes through. The end of the budget
that bounds the recursion is no outcome of the program at all.
-/

namespace Lox

/-- The state of a running program. -/
structure Machine where
  /-- The current environment. -/
  env : Env
  frames : Frames Value
  objects : Objects
  /-- The number for the next function or class. -/
  nextId : Nat
  /-- The value of the last expression statement. -/
  lastValue : Value := .nil
  /-- What was printed, in order. -/
  output : Array String := #[]
  /-- The class of vectors. -/
  vectorClass : Class
  /-- The vectors that are being written. -/
  writing : List Nat := []
  /-- What the clock shows whenever it is read. -/
  readings : Nat → Float
  /-- How often the clock was read. -/
  ticks : Nat := 0

/-- The environment outside of all scopes: the first frame alone. -/
def globalEnv : Env := [0]

/-- Why evaluation did not give a value. -/
inductive Abort where
  | error (e : RuntimeError)
  | failure (message : String)
  | fault (f : Fault)
  | spent

/-- How a step of evaluation ends. -/
inductive Result (α : Type) where
  | ok (value : α) (m : Machine)
  | abort (reason : Abort) (m : Machine)

/-- A step of evaluation. -/
def Eval (α : Type) := Machine → Result α

/-- How a statement completes: by reaching its end, or by returning a value. -/
inductive Completion where
  | normal
  | returned (v : Value)

namespace Completion

/-- The value of a call whose body completed so. -/
def value : Completion → Value
  | normal => .nil
  | returned v => v

end Completion

namespace Machine

/-- The frame of the globals before anything has run. -/
def globalFrame (natives : NativeTable) : Frame Value where
  label := "globals"
  bindings := natives.globals.foldl (fun b (name, v) => b.insert name v) []

/-- A machine on which nothing has run. -/
def start (natives : NativeTable) (readings : Nat → Float) : Machine where
  env := globalEnv
  frames := #[globalFrame natives]
  objects := #[]
  nextId := natives.functions.length + 1
  vectorClass := natives.vectorClass
  readings := readings

/-- What a global name is bound to. -/
def global? (m : Machine) (name : String) : Option Value :=
  m.frames.get? globalEnv name

/-- Writes a value. No vectors are nested deeper than there are instances, so the limit is
as good as none. -/
def write (m : Machine) (v : Value) : String × Machine :=
  let (text, writing) := v.write m.objects (m.objects.size + 1) m.writing
  (text.getD "", { m with writing := writing })

/-- The text of a value. -/
def render (m : Machine) (v : Value) : String :=
  (m.write v).1

end Machine

namespace Eval

variable {α β : Type}

@[always_inline]
instance : Monad Eval where
  pure a := fun m => .ok a m
  bind x f := fun m =>
    match x m with
    | .ok a m => f a m
    | .abort reason m => .abort reason m

def abort (reason : Abort) : Eval α := fun m => .abort reason m

/-- Reports an error of the program at a token. -/
def error (fault : RuntimeFault) (t : Token) : Eval α :=
  abort (.error ⟨fault, t⟩)

def fault (f : Fault) : Eval α := abort (.fault f)

/-- The end of the recursion budget. -/
def spent : Eval α := abort .spent

/-- Runs a step in another environment, and comes back however it ends. -/
def within (env : Env) (x : Eval α) : Eval α := fun m =>
  let outer := m.env
  match x { m with env := env } with
  | .ok a m => .ok a { m with env := outer }
  | .abort reason m => .abort reason { m with env := outer }

/-- Turns the failure of a native function into an error at a token. -/
def reporting (t : Token) (x : Eval α) : Eval α := fun m =>
  match x m with
  | .abort (.failure message) m => .abort (.error ⟨.nativeFailure message, t⟩) m
  | r => r

/-- The current environment. -/
def environment : Eval Env := fun m => .ok m.env m

/-- Writes a value. -/
def textOf (v : Value) : Eval String := fun m =>
  let (text, m) := m.write v
  .ok text m

def print (text : String) : Eval Unit := fun m =>
  .ok () { m with output := m.output.push text }

def setLastValue (v : Value) : Eval Unit := fun m =>
  .ok () { m with lastValue := v }

/-- Reads the clock. -/
def readClock : Eval Value := fun m =>
  .ok (.number (m.readings m.ticks)) { m with ticks := m.ticks + 1 }

/-- A number that was not given before. -/
def freshId : Eval Nat := fun m =>
  .ok m.nextId { m with nextId := m.nextId + 1 }

/-! ## Variables -/

/-- Binds a name in the current frame. -/
def define (name : String) (v : Value) : Eval Unit := fun m =>
  .ok () { m with frames := m.frames.define m.env name v }

/-- Makes a frame inside an environment. -/
def enter (label : String) (outer : Env) : Eval Env := fun m =>
  let (env, frames) := m.frames.enter label outer
  .ok env { m with frames := frames }

/-- Binds names in the innermost frame of an environment. -/
def bindAll (env : Env) : List (String × Value) → Eval Unit
  | [] => pure ()
  | (name, v) :: rest => fun m =>
    bindAll env rest { m with frames := m.frames.define env name v }

/-- The variable at a distance. -/
def getAt (env : Env) (distance : Nat) (name : String) : Eval Value := fun m =>
  match m.frames.getAt env distance name with
  | .ok v => .ok v m
  | .error f => .abort (.fault (.distance f)) m

/-- The variable that a token names: at its distance if it has one, else among
the globals. One that has no value yet cannot be read. -/
def lookUp (name : Token) (slot : Slot) : Eval Value := fun m =>
  let found : Except Abort Value :=
    match slot with
    | some distance =>
      (m.frames.getAt m.env distance name.lexeme).mapError fun f => .fault (.distance f)
    | none =>
      match m.frames.get? globalEnv name.lexeme with
      | some v => .ok v
      | none => .error (.error ⟨.undefinedVariable, name⟩)
  match found with
  | .ok .unassigned => .abort (.error ⟨.unassignedVariable, name⟩) m
  | .ok v => .ok v m
  | .error reason => .abort reason m

/-- Gives the variable that a token names a new value. The frame is found first and
changed after, so that there is only one store at any time. -/
def assign (name : Token) (slot : Slot) (v : Value) : Eval Unit := fun m =>
  match slot with
  | some distance =>
    match m.env[distance]? with
    | some id => .ok () { m with frames := m.frames.bind id name.lexeme v }
    | none => .abort (.fault (.distance .pastRoot)) m
  | none =>
    match m.frames.owner? globalEnv name.lexeme with
    | some id => .ok () { m with frames := m.frames.bind id name.lexeme v }
    | none => .abort (.error ⟨.undefinedVariable, name⟩) m

/-! ## Instances -/

/-- Makes an instance of a class, with the elements it has if it is a vector. -/
def allocate (c : Class) (elements : Option (Array Value)) : Eval Value := fun m =>
  .ok (.object m.objects.size)
    { m with objects := m.objects.push { cls := c, elements := elements } }

/-- An instance by its place in the store. -/
def instance? (v : Value) : Eval (Option (Nat × Instance)) := fun m =>
  match v with
  | .object ref => .ok ((m.objects[ref]?).map fun i => (ref, i)) m
  | _ => .ok none m

/-- Changes an instance. -/
def modify (ref : Nat) (f : Instance → Instance) : Eval Unit := fun m =>
  .ok () { m with objects := m.objects.modify ref f }

/-- A method as a method of `receiver`: one of the program sees it under the name
for it, a native one gets it as an argument. -/
def bindMethod (method : Method) (receiver : Value) : Eval Value := do
  match method with
  | .closure c =>
    let env ← enter ("bound " ++ c.name) c.env
    bindAll env [(thisName, receiver)]
    let id ← freshId
    pure (.function id { c with env := env })
  | .native n =>
    let id ← freshId
    pure (.nativeMethod id n receiver)

end Eval

end Lox
