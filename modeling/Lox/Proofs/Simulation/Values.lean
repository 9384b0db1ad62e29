import Lox.Proofs.Context.Rendering
import Lox.Proofs.Simulation.Relations

/-!
# Related values look the same

Whatever a program can find out about a value without calling it is the same for
related values: whether it holds, what it equals, what kind it is, how it is
written, which methods and fields it has and how many arguments it takes.
-/

namespace Lox
namespace Comparison

variable {C : Comparison} {w : C.World}

/-! ## Tables -/

theorem TableRel.find? {α : Type} {R : α → α → Prop} {b b' : Bindings α} (h : TableRel R b b')
    (name : String) : Option.Rel R (b.find? name) (b'.find? name) := by
  induction h with
  | nil => exact .none
  | @cons x y b b' hxy _ ih =>
      obtain ⟨n, a⟩ := x
      obtain ⟨n', a'⟩ := y
      obtain ⟨rfl, ha⟩ := hxy
      simp only [Bindings.find?, List.lookup_cons] at ih ⊢
      split
      · exact .some ha
      · exact ih

theorem TableRel.insert {α : Type} {R : α → α → Prop} {b b' : Bindings α} (h : TableRel R b b')
    (name : String) {a a' : α} (ha : R a a') :
    TableRel R (b.insert name a) (b'.insert name a') := by
  induction h with
  | nil => exact .cons ⟨rfl, ha⟩ .nil
  | @cons x y b b' hxy hrest ih =>
      obtain ⟨n, c⟩ := x
      obtain ⟨n', c'⟩ := y
      obtain ⟨rfl, hc⟩ := hxy
      simp only [Bindings.insert]
      split
      · exact .cons ⟨rfl, ha⟩ hrest
      · exact .cons ⟨rfl, hc⟩ ih

/-! ## Functions and classes -/

theorem FunRel.name {p : C.Spot} {f f' : FunDecl Slot} (h : C.FunRel p f f') :
    f.name.lexeme = f'.name.lexeme := by
  cases h with
  | mk hn _ _ _ => exact hn

theorem FunRel.params {p : C.Spot} {f f' : FunDecl Slot} (h : C.FunRel p f f') :
    f.params.length = f'.params.length := by
  cases h with
  | mk _ hp _ _ => exact hp

theorem ClosureRel.name {c c' : Closure} (h : C.ClosureRel w c c') : c.name = c'.name := by
  obtain ⟨_, _, hf, _, _⟩ := h
  exact hf.name

theorem ClosureRel.arity {c c' : Closure} (h : C.ClosureRel w c c') : c.arity = c'.arity := by
  obtain ⟨_, _, hf, _, _⟩ := h
  exact hf.params

theorem MethodRel.arity {c c' : Method} (h : C.MethodRel w c c') : c.arity = c'.arity := by
  cases h with
  | closure _ _ hf _ => exact hf.params
  | native => rfl

theorem ClassRel.body {c c' : Class} (h : C.ClassRel w c c') : C.BodyRel w c.body c'.body := by
  cases h with
  | root hb => exact hb
  | derived hb _ => exact hb

theorem ClassRel.findMethod? {c c' : Class} (h : C.ClassRel w c c') (name : String) :
    Option.Rel (C.MethodRel w) (c.findMethod? name) (c'.findMethod? name) := by
  induction h with
  | root hb => exact TableRel.find? hb.methods name
  | @derived b b' c c' hb _ ih =>
      have hfound := TableRel.find? hb.methods name
      simp only [Class.findMethod?]
      generalize b.methods.find? name = found at hfound
      generalize b'.methods.find? name = found' at hfound
      cases hfound with
      | none => exact ih
      | some hm => exact .some hm

theorem ClassRel.arity {c c' : Class} (h : C.ClassRel w c c') : c.arity = c'.arity := by
  have hfound := h.findMethod? initializerName
  simp only [Class.arity]
  generalize c.findMethod? initializerName = found at hfound
  generalize c'.findMethod? initializerName = found' at hfound
  cases hfound with
  | none => rfl
  | some hm => simp only [Option.map_some, Option.getD_some, hm.arity]

/-! ## Values -/

variable {v v' u u' : Value}

theorem ValueRel.arity? (h : C.ValueRel w v v') : v.arity? = v'.arity? := by
  cases h with
  | function hc => exact congrArg some hc.arity
  | cls hc => exact congrArg some hc.arity
  | _ => rfl

theorem ValueRel.truthy (h : C.ValueRel w v v') : v.truthy = v'.truthy := by
  cases h <;> rfl

theorem ValueRel.same (h : C.ValueRel w v v') (hu : C.ValueRel w u u') :
    v.same u = v'.same u' := by
  cases h <;> cases hu <;> try rfl
  next hc _ _ hd => simp only [Value.same, Class.id, hc.body.id, hd.body.id]

theorem forall₂_getElem? {α : Type} {R : α → α → Prop} {l l' : List α}
    (h : List.Forall₂ R l l') (i : Nat) : Option.Rel R l[i]? l'[i]? := by
  induction h generalizing i with
  | nil => exact .none
  | cons hx _ ih =>
      cases i with
      | zero => exact .some hx
      | succ i => simpa using ih i

theorem ObjectsRel.get? {o o' : Objects} (h : C.ObjectsRel w o o') (ref : Nat) :
    Option.Rel (C.InstanceRel w) o[ref]? o'[ref]? := by
  rw [← Array.getElem?_toList, ← Array.getElem?_toList]
  exact forall₂_getElem? h ref

theorem ObjectsRel.size {o o' : Objects} (h : C.ObjectsRel w o o') : o.size = o'.size := by
  rw [← Array.length_toList, ← Array.length_toList]
  exact h.length_eq

theorem ValueRel.typeName {o o' : Objects} (h : C.ValueRel w v v') (ho : C.ObjectsRel w o o') :
    v.typeName o = v'.typeName o' := by
  cases h with
  | @object ref =>
      have hget := ho.get? ref
      simp only [Value.typeName]
      generalize o[ref]? = i at hget
      generalize o'[ref]? = i' at hget
      cases hget with
      | none => rfl
      | some hi => simp only [Option.map_some, Option.getD_some, Class.name, hi.cls.body.name]
  | _ => rfl

theorem ValueRel.renderIn {o o' : Objects} (ho : C.ObjectsRel w o o') (n : Nat) (path : List Nat)
    (h : C.ValueRel w v v') : v.renderIn o n path = v'.renderIn o' n path := by
  induction n generalizing path v v' with
  | zero =>
      cases h with
      | function hc => simp only [Value.renderIn, hc.name]
      | cls hc => simp only [Value.renderIn, Class.name, hc.body.name]
      | _ => simp only [Value.renderIn]
  | succ n ih =>
      cases h with
      | function hc => simp only [Value.renderIn, hc.name]
      | cls hc => simp only [Value.renderIn, Class.name, hc.body.name]
      | @object ref =>
          have hget := ho.get? ref
          simp only [Value.renderIn]
          generalize o[ref]? = i at hget
          generalize o'[ref]? = i' at hget
          cases hget with
          | none => rfl
          | @some i i' hi =>
              have helements := hi.elements
              simp only []
              generalize i.elements = es at helements
              generalize i'.elements = es' at helements
              cases helements with
              | none => simp only [Class.name, hi.cls.body.name]
              | @some es es' hes =>
                  have hmap : es.toList.map (Value.renderIn o n (ref :: path)) =
                      es'.toList.map (Value.renderIn o' n (ref :: path)) := by
                    generalize es.toList = l at hes
                    generalize es'.toList = l' at hes
                    induction hes with
                    | nil => rfl
                    | cons hv _ ihs => rw [List.map_cons, List.map_cons, ihs, ih _ hv]
                  simp only [hmap]
      | _ => simp only [Value.renderIn]

theorem MachineRel.render {m m' : Machine} (hm : C.MachineRel w m m') (h : C.ValueRel w v v') :
    m.render v = m'.render v' := by
  rw [m.render_eq, m'.render_eq, hm.objects.size, hm.devices.2.2]
  exact h.renderIn hm.objects _ _

end Comparison
end Lox
