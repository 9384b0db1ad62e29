import Lox.Scope
import Lox.Text.Quoted

/-!
# Frames and environments

A frame holds the variables of one activation of a scope. Frames are never copied
or thrown away: whoever keeps an environment shares the frames in it and sees
every later write to them. An environment is the list of the frames that can be
seen from a place, innermost first, so that going outwards is going down a list
that never changes.

A variable is found either by name, in the first frame that binds it, or by
distance, in the frame that many steps outwards.
-/

namespace Lox

/-- The variables of one activation. -/
structure Frame (α : Type) where
  label : String := "block"
  bindings : Bindings α := []

/-- A frame is known by its place in the store. -/
abbrev FrameId := Nat

/-- The frames that can be seen from a place, innermost first. -/
abbrev Env := List FrameId

/-- All frames that were ever made. -/
abbrev Frames (α : Type) := Array (Frame α)

/-- Why a variable cannot be found by distance. -/
inductive DistanceFault where
  /-- The environment has fewer frames than that. -/
  | pastRoot
  /-- The frame there does not bind the name. -/
  | unbound (name : String)
deriving DecidableEq, Repr

namespace Env

/-- The environment some steps outwards. One step past the outermost frame leads
to no frame at all, more lead nowhere. -/
def ancestor? (env : Env) (distance : Nat) : Option Env :=
  if distance ≤ env.length then some (env.drop distance) else none

end Env

namespace Frames

variable {α : Type}

/-- What a name is bound to in one frame. -/
def binding? (frames : Frames α) (id : FrameId) (name : String) : Option α :=
  frames[id]?.bind fun frame => frame.bindings.find? name

/-- Makes an empty frame inside an environment. -/
def enter (frames : Frames α) (label : String) (outer : Env) : Env × Frames α :=
  (frames.size :: outer, Array.push frames { label := label })

/-- Binds a name in one frame. -/
def bind (frames : Frames α) (id : FrameId) (name : String) (value : α) : Frames α :=
  frames.modify id fun frame => { frame with bindings := frame.bindings.insert name value }

/-- Binds a name in the innermost frame of an environment. -/
def define (frames : Frames α) (env : Env) (name : String) (value : α) : Frames α :=
  match env with
  | [] => frames
  | id :: _ => frames.bind id name value

/-- The first frame of an environment that binds a name. -/
def owner? (frames : Frames α) (env : Env) (name : String) : Option FrameId :=
  env.find? fun id => (frames.binding? id name).isSome

/-- What a name means in an environment. -/
def get? (frames : Frames α) (env : Env) (name : String) : Option α :=
  env.findSome? fun id => frames.binding? id name

/-- Gives the variable that a name means in an environment a new value; fails if
it means none. -/
def assign? (frames : Frames α) (env : Env) (name : String) (value : α) : Option (Frames α) :=
  (frames.owner? env name).map fun id => frames.bind id name value

/-- The variable of the frame some steps outwards. -/
def getAt (frames : Frames α) (env : Env) (distance : Nat) (name : String) :
    Except DistanceFault α :=
  match env[distance]? with
  | none => .error .pastRoot
  | some id =>
    match frames.binding? id name with
    | none => .error (.unbound name)
    | some value => .ok value

/-- Binds a name in the frame some steps outwards. -/
def assignAt (frames : Frames α) (env : Env) (distance : Nat) (name : String) (value : α) :
    Except DistanceFault (Frames α) :=
  match env[distance]? with
  | none => .error .pastRoot
  | some id => .ok (frames.bind id name value)

/-- The names that a frame binds, in the order of their code points. -/
def sortedNames (frames : Frames α) (id : FrameId) : List String :=
  match frames[id]? with
  | none => []
  | some frame => sortedTexts frame.bindings.names

/-- How a frame is shown. -/
def describe (frames : Frames α) (id : FrameId) : String :=
  let label := (frames[id]?.map (·.label)).getD ""
  "Environment(" ++ label ++ ", " ++ quotedList (frames.sortedNames id) ++ ")"

end Frames

end Lox
