import Lox.Eval.Machine
import Mathlib.Data.List.Forall2

/-!
# Frames, name by name

What every operation on frames does to what each name is bound to in each frame.
An operation changes one name of one frame, and a new frame binds nothing.
-/

namespace Lox

namespace Bindings

variable {α : Type}

@[simp]
theorem find?_nil (name : String) : find? ([] : Bindings α) name = none :=
  rfl

theorem find?_cons (m n : String) (u : α) (rest : Bindings α) :
    find? ((m, u) :: rest) n = if n = m then some u else find? rest n := by
  simp only [find?, List.lookup_cons]
  by_cases h : n = m
  · simp [h]
  · rw [beq_eq_false_iff_ne.mpr h, if_neg h]

theorem find?_insert (b : Bindings α) (name n : String) (v : α) :
    (b.insert name v).find? n = if n = name then some v else b.find? n := by
  induction b with
  | nil => simp [insert, find?_cons]
  | cons x rest ih =>
      obtain ⟨m, u⟩ := x
      rw [insert]
      split
      · next h =>
          subst h
          by_cases hn : n = m <;> simp [find?_cons, hn]
      · next h =>
          by_cases hn : n = m
          · subst hn
            simp [find?_cons, h]
          · simp [find?_cons, hn, ih]

/-- What a table binds that is made by inserting one pair after the other. -/
theorem find?_foldl_insert {β : Type} {key : β → String} {value : β → α} {l : List β}
    {b : Bindings α} {name : String} {v : α}
    (h : (l.foldl (fun b x => b.insert (key x) (value x)) b).find? name = some v) :
    b.find? name = some v ∨ ∃ x ∈ l, key x = name ∧ value x = v := by
  induction l generalizing b with
  | nil => exact .inl h
  | cons x l ih =>
      rcases ih h with hb | ⟨y, hy, h⟩
      · rw [find?_insert] at hb
        split at hb
        · next hname =>
            cases hb
            exact .inr ⟨x, List.mem_cons_self, hname.symm, rfl⟩
        · exact .inl hb
      · exact .inr ⟨y, List.mem_cons_of_mem _ hy, h⟩

theorem mem_of_find? {b : Bindings α} {name : String} {v : α} (h : b.find? name = some v) :
    (name, v) ∈ b := by
  induction b with
  | nil => cases h
  | cons x b ih =>
      obtain ⟨n, u⟩ := x
      rw [find?_cons] at h
      split at h
      · next heq =>
          cases h
          exact heq ▸ List.mem_cons_self
      · exact List.mem_cons_of_mem _ (ih h)

end Bindings

namespace Frames

variable {α : Type} {F : Frames α}

theorem binding?_of_size_le {k : FrameId} (h : F.size ≤ k) (name : String) :
    F.binding? k name = none := by
  simp [binding?, Array.getElem?_eq_none h]

theorem lt_size_of_binding? {k : FrameId} {name : String} (h : (F.binding? k name).isSome) :
    k < F.size := by
  by_contra hlt
  rw [binding?_of_size_le (Nat.not_lt.mp hlt)] at h
  cases h

@[simp]
theorem size_bind (F : Frames α) (id : FrameId) (name : String) (v : α) :
    (F.bind id name v).size = F.size :=
  Array.size_modify ..

@[simp]
theorem size_define (F : Frames α) (E : Env) (name : String) (v : α) :
    (F.define E name v).size = F.size := by
  cases E with
  | nil => rfl
  | cons id E => exact size_bind F id name v

theorem binding?_bind (F : Frames α) {id : FrameId} (hid : id < F.size) (name : String) (v : α)
    (k : FrameId) (n : String) :
    (F.bind id name v).binding? k n = if k = id ∧ n = name then some v else F.binding? k n := by
  simp only [binding?, bind, Array.getElem?_modify]
  by_cases hk : id = k
  · subst hk
    simp only [if_true, true_and]
    rw [Array.getElem?_eq_getElem hid]
    simp only [Option.map_some, Option.bind_some]
    exact Bindings.find?_insert ..
  · have hk' : ¬ k = id := fun h => hk h.symm
    simp [hk, hk']

/-- There is nothing to bind in a frame that was not made. -/
theorem binding?_bind_of_size_le (F : Frames α) {id : FrameId} (hid : F.size ≤ id) (name : String)
    (v : α) (k : FrameId) (n : String) : (F.bind id name v).binding? k n = F.binding? k n := by
  simp only [binding?, bind, Array.getElem?_modify]
  split
  · next heq => rw [← heq, Array.getElem?_eq_none hid]; rfl
  · rfl

/-- A new frame binds nothing, and the others stay as they are. -/
@[simp]
theorem binding?_enter (F : Frames α) (label : String) (E : Env) (k : FrameId) (n : String) :
    (F.enter label E).2.binding? k n = F.binding? k n := by
  simp only [binding?, enter, Array.getElem?_push]
  split
  · next h =>
      subst h
      simp
  · rfl

@[simp]
theorem size_enter (F : Frames α) (label : String) (E : Env) :
    (F.enter label E).2.size = F.size + 1 :=
  Array.size_push ..

@[simp]
theorem env_enter (F : Frames α) (label : String) (E : Env) :
    (F.enter label E).1 = F.size :: E :=
  rfl

/-! ## Searches -/

/-- Outside of all scopes there is one frame to look in. -/
@[simp]
theorem get?_globalEnv (F : Frames α) (name : String) :
    F.get? globalEnv name = F.binding? 0 name := by
  simp only [get?, globalEnv, List.findSome?_cons, List.findSome?_nil]
  cases F.binding? 0 name <;> rfl

theorem owner?_globalEnv (F : Frames α) (name : String) :
    F.owner? globalEnv name = if (F.binding? 0 name).isSome then some 0 else none := by
  simp only [owner?, globalEnv, List.find?_cons, List.find?_nil]
  cases (F.binding? 0 name).isSome <;> rfl

theorem getAt_eq_ok {E : Env} {d : Nat} {k : FrameId} {name : String} {v : α}
    (hk : E[d]? = some k) (hv : F.binding? k name = some v) : F.getAt E d name = .ok v := by
  simp only [getAt, hk, hv]

/-- What is read at a distance is bound in some frame. -/
theorem exists_binding?_of_getAt {E : Env} {d : Nat} {name : String} {v : α}
    (h : F.getAt E d name = .ok v) : ∃ k, F.binding? k name = some v := by
  simp only [getAt] at h
  split at h
  · cases h
  · next k _ =>
      split at h
      · cases h
      · next u hu =>
          cases h
          exact ⟨k, hu⟩

end Frames

/-- Before anything has run the frame of the globals binds what the table stands for. -/
theorem Machine.mem_globals {natives : NativeTable} {name : String} {v : Value}
    (h : (Machine.globalFrame natives).bindings.find? name = some v) :
    (name, v) ∈ natives.globals := by
  rcases Bindings.find?_foldl_insert h with hnil | ⟨x, hx, rfl, rfl⟩
  · cases hnil
  · exact hx

end Lox
