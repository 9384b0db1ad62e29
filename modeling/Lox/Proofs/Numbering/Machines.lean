import Lox.Proofs.Context.Rendering
import Lox.Proofs.Simulation.Comparison

/-!
# Machines whose functions have other numbers

Every function gets a number when it is made, which tells it from others that look the
same. The order in which functions are made decides who gets which number, so that two
machines on which the same functions were declared in two orders differ in the numbers.
`renumber` gives the functions of a machine other numbers and changes nothing else.

Numbers of classes and of native functions stay as they are: values of different kinds
are never compared by their numbers.
-/

namespace Lox

/-! ## Other values under the same names -/

section

variable {α β : Type}

/-- The names with other things bound to them. -/
def Bindings.mapValues (f : α → β) (b : Bindings α) : Bindings β :=
  b.map fun x => (x.1, f x.2)

theorem Bindings.find?_mapValues (f : α → β) (b : Bindings α) (name : String) :
    (b.mapValues f).find? name = (b.find? name).map f := by
  induction b with
  | nil => rfl
  | cons x b ih =>
      obtain ⟨n, v⟩ := x
      rw [mapValues, List.map_cons, find?_cons, find?_cons]
      split
      · rfl
      · exact ih

theorem Bindings.insert_mapValues (f : α → β) (b : Bindings α) (name : String) (v : α) :
    (b.mapValues f).insert name (f v) = (b.insert name v).mapValues f := by
  induction b with
  | nil => rfl
  | cons x b ih =>
      obtain ⟨n, u⟩ := x
      rw [mapValues, List.map_cons, insert, insert]
      split
      · rfl
      · exact congrArg ((n, f u) :: ·) ih

namespace Frames

variable (f : α → β) (F : Frames α)

/-- The frames with other things bound in them. -/
def mapValues : Frames β :=
  F.map fun frame => { label := frame.label, bindings := frame.bindings.mapValues f }

theorem binding?_mapValues (id : FrameId) (name : String) :
    (F.mapValues f).binding? id name = (F.binding? id name).map f := by
  simp only [binding?, mapValues, Array.getElem?_map]
  cases F[id]? with
  | none => rfl
  | some frame => exact Bindings.find?_mapValues f frame.bindings name

theorem bind_mapValues (id : FrameId) (name : String) (v : α) :
    (F.mapValues f).bind id name (f v) = (F.bind id name v).mapValues f := by
  refine Array.ext_getElem? fun i => ?_
  simp only [bind, mapValues, Array.getElem?_modify, Array.getElem?_map]
  split
  · cases F[i]? with
    | none => rfl
    | some frame =>
        simp only [Option.map_some, Bindings.insert_mapValues]
  · rfl

theorem define_mapValues (E : Env) (name : String) (v : α) :
    (F.mapValues f).define E name (f v) = (F.define E name v).mapValues f := by
  cases E with
  | nil => rfl
  | cons id E => exact bind_mapValues f F id name v

theorem defineAll_mapValues (E : Env) (l : List (String × α)) :
    (F.mapValues f).defineAll E (l.map fun x => (x.1, f x.2)) =
      (F.defineAll E l).mapValues f := by
  induction l generalizing F with
  | nil => rfl
  | cons x rest ih =>
      rw [List.map_cons, defineAll, defineAll, define_mapValues]
      exact ih _

theorem enter_mapValues (label : String) (E : Env) :
    (F.mapValues f).enter label E =
      ((F.enter label E).1, (F.enter label E).2.mapValues f) := by
  simp only [enter, mapValues, Array.size_map, Array.map_push]
  rfl

theorem getAt_mapValues (E : Env) (d : Nat) (name : String) :
    (F.mapValues f).getAt E d name = (F.getAt E d name).map f := by
  simp only [getAt]
  cases E[d]? with
  | none => rfl
  | some id =>
      simp only [binding?_mapValues]
      cases F.binding? id name <;> rfl

theorem seek_mapValues (E : Env) (name : String) (slot : Slot) :
    (F.mapValues f).seek E name slot = (F.seek E name slot).map f := by
  cases slot with
  | none =>
      simp only [seek, get?_globalEnv, binding?_mapValues]
      cases F.binding? 0 name <;> rfl
  | some d =>
      simp only [seek, getAt_mapValues]
      cases F.getAt E d name <;> rfl

theorem target_mapValues (E : Env) (name : String) (slot : Slot) :
    (F.mapValues f).target E name slot = F.target E name slot := by
  cases slot with
  | none =>
      simp only [target, owner?_globalEnv, binding?_mapValues, Option.isSome_map]
  | some d => rfl

end Frames
end

/-! ## Other numbers -/

variable (π : Nat → Nat)

/-- The value with other numbers for functions. -/
def Value.renumber : Value → Value
  | .function id c => .function (π id) c
  | .nativeMethod id n receiver => .nativeMethod id n receiver.renumber
  | v => v

/-- The instance with other numbers for the functions in it. -/
def Instance.renumber (i : Instance) : Instance where
  cls := i.cls
  fields := i.fields.mapValues (Value.renumber π)
  elements := i.elements.map fun elements => elements.map (Value.renumber π)

/-- The machine with other numbers for its functions. -/
def Machine.renumber (m : Machine) : Machine :=
  { m with
    frames := m.frames.mapValues (Value.renumber π)
    objects := m.objects.map (Instance.renumber π)
    lastValue := m.lastValue.renumber π }

/-- A completion with other numbers for the functions in its value. -/
def Completion.renumber : Completion → Completion
  | .normal => .normal
  | .returned v => .returned (v.renumber π)

/-- The end of a step on the machine with other numbers; `act` renumbers its value. -/
def Result.renumber {α : Type} (act : α → α) : Result α → Result α
  | .ok a m => .ok (act a) (m.renumber π)
  | .abort r m => .abort r (m.renumber π)

namespace Value

variable {π}

@[simp]
theorem truthy_renumber (v : Value) : (v.renumber π).truthy = v.truthy := by
  cases v <;> rfl

@[simp]
theorem arity?_renumber (v : Value) : (v.renumber π).arity? = v.arity? := by
  cases v <;> rfl

/-- Different functions get different numbers. -/
theorem same_renumber (hπ : Function.Injective π) (u v : Value) :
    (u.renumber π).same (v.renumber π) = u.same v := by
  cases u with
  | function i c =>
      cases v with
      | function j d =>
          show (π i == π j) = (i == j)
          rw [Bool.eq_iff_iff, beq_iff_eq, beq_iff_eq]
          exact hπ.eq_iff
      | _ => rfl
  | _ => cases v <;> rfl

theorem typeName_renumber (objects : Objects) (v : Value) :
    (v.renumber π).typeName (objects.map (Instance.renumber π)) = v.typeName objects := by
  cases v with
  | object ref =>
      simp only [renumber, typeName, Array.getElem?_map]
      cases objects[ref]? <;> rfl
  | _ => rfl

theorem renderIn_renumber (objects : Objects) (n : Nat) (path : List Nat) (v : Value) :
    (v.renumber π).renderIn (objects.map (Instance.renumber π)) n path =
      v.renderIn objects n path := by
  induction n generalizing path v with
  | zero => cases v <;> rfl
  | succ n ih =>
      cases v with
      | object ref =>
          simp only [renumber, renderIn, Array.getElem?_map]
          cases objects[ref]? with
          | none => rfl
          | some i =>
              obtain ⟨cls, fields, elements⟩ := i
              cases elements with
              | none => rfl
              | some elements =>
                  simp only [Option.map_some, Instance.renumber, Array.toList_map, List.map_map]
                  have hmap : elements.toList.map
                      (renderIn (objects.map (Instance.renumber π)) n (ref :: path) ∘
                        Value.renumber π) =
                    elements.toList.map (renderIn objects n (ref :: path)) :=
                    List.map_congr_left fun u _ => ih (ref :: path) u
                  rw [hmap]
      | _ => rfl

end Value

theorem Machine.render_renumber {π : Nat → Nat} (m : Machine) (v : Value) :
    (m.renumber π).render (v.renumber π) = m.render v := by
  rw [Machine.render_eq, Machine.render_eq]
  simp only [Machine.renumber, Array.size_map]
  exact Value.renderIn_renumber m.objects _ _ v

/-- Renumbering a result keeps the environment and what was counted and printed. -/
@[simp]
theorem Result.machine_renumber {α : Type} {π : Nat → Nat} (act : α → α) (r : Result α) :
    (r.renumber π act).machine = r.machine.renumber π := by
  cases r <;> rfl

end Lox
