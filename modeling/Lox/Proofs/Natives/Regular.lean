import Lox.Proofs.Preservation.Judgements
import Lox.Proofs.WellFormed

/-!
# Regular machines

What is true of every machine on which accepted programs have run with the standard
native functions. Native values are the standard ones, a native method belongs to an
instance that exists, `this` is bound to instances and `super` to classes only, and
an instance without elements is not one of the class of vectors itself.

A step keeps a machine regular if it leaves one, however it ends, and if every
expression was evaluated on one. Instances are never thrown away, so the number of
them says which references are good, and it only grows.
-/

namespace Lox

open NativeTable (standardFunctions standardVectorMethods)

/-- What a class may keep under the name of a method. -/
inductive Method.Regular : Method → Prop
  | closure {c : Closure} : c.declaration.WellFormed → Method.Regular (.closure c)
  | native {n : Native} : n ∈ standardVectorMethods → Method.Regular (.native n)

def Class.Regular (c : Class) : Prop :=
  ∀ name method, c.findMethod? name = some method → method.Regular

/-- A value where there are `k` instances. -/
inductive Value.Regular (k : Nat) : Value → Prop
  | nil : Value.Regular k .nil
  | bool {b : Bool} : Value.Regular k (.bool b)
  | number {x : Float} : Value.Regular k (.number x)
  | text {s : String} : Value.Regular k (.text s)
  | function {id : Nat} {c : Closure} :
      c.declaration.WellFormed → Value.Regular k (.function id c)
  | native {id : Nat} {n : Native} : n ∈ standardFunctions → Value.Regular k (.native id n)
  | nativeMethod {id ref : Nat} {n : Native} :
      n ∈ standardVectorMethods → ref < k → Value.Regular k (.nativeMethod id n (.object ref))
  | cls {c : Class} : c.Regular → Value.Regular k (.cls c)
  | object {ref : Nat} : ref < k → Value.Regular k (.object ref)
  | unassigned : Value.Regular k .unassigned

/-- A value that a name may be bound to. -/
structure Value.BoundTo (k : Nat) (name : String) (v : Value) : Prop where
  regular : v.Regular k
  super : name = superName → ∃ c, v = .cls c
  this : name = thisName → ∃ ref, v = .object ref

structure Instance.Regular (k : Nat) (i : Instance) : Prop where
  cls : i.cls.Regular
  fields : ∀ name v, i.fields.find? name = some v → v.Regular k
  elements : ∀ vs, i.elements = some vs → ∀ v ∈ vs, v.Regular k
  vector : i.elements = none → i.cls.body.isVector = false

structure Machine.Regular (m : Machine) : Prop where
  frames : ∀ id name v, m.frames.binding? id name = some v → v.BoundTo m.objects.size name
  objects : ∀ (ref : Nat) (i : Instance), m.objects[ref]? = some i → i.Regular m.objects.size
  vectorClass : m.vectorClass.Regular

/-- Expressions are evaluated on regular machines. -/
def Activity.Regular (a : Activity) : Prop :=
  ∀ e, a.task = .eval e → e.WellFormed ∧ a.machine.Regular

/-! ## More instances -/

section

variable {k k' : Nat}

theorem Value.Regular.mono {v : Value} (h : v.Regular k) (hk : k ≤ k') : v.Regular k' := by
  cases h with
  | function hf => exact .function hf
  | native hn => exact .native hn
  | nativeMethod hn href => exact .nativeMethod hn (Nat.lt_of_lt_of_le href hk)
  | cls hc => exact .cls hc
  | object href => exact .object (Nat.lt_of_lt_of_le href hk)
  | _ => constructor

theorem Value.BoundTo.mono {name : String} {v : Value} (h : v.BoundTo k name) (hk : k ≤ k') :
    v.BoundTo k' name :=
  ⟨h.regular.mono hk, h.super, h.this⟩

theorem Instance.Regular.mono {i : Instance} (h : i.Regular k) (hk : k ≤ k') : i.Regular k' :=
  ⟨h.cls, fun name v hv => (h.fields name v hv).mono hk,
    fun vs hvs v hv => (h.elements vs hvs v hv).mono hk, h.vector⟩

/-- What a program gives a name of its own to. -/
theorem Token.IsName.boundTo {t : Token} (h : t.IsName) {v : Value} (hv : v.Regular k) :
    v.BoundTo k t.lexeme :=
  ⟨hv, fun heq => absurd heq h.ne_super, fun heq => absurd heq h.ne_this⟩

theorem Value.BoundTo.super_cls {c : Class} (h : c.Regular) :
    Value.BoundTo k superName (.cls c) :=
  ⟨.cls h, fun _ => ⟨c, rfl⟩, fun heq => absurd heq (by decide)⟩

theorem Value.BoundTo.this_object {ref : Nat} (h : ref < k) :
    Value.BoundTo k thisName (.object ref) :=
  ⟨.object h, fun heq => absurd heq (by decide), fun _ => ⟨ref, rfl⟩⟩

end

namespace Frames

variable {α : Type} {F : Frames α}

/-- What is bound after a binding was bound before, or is it. -/
theorem binding?_bind_cases {id k : FrameId} {name n : String} {v u : α}
    (h : (F.bind id name v).binding? k n = some u) :
    F.binding? k n = some u ∨ n = name ∧ u = v := by
  rcases Nat.lt_or_ge id F.size with hid | hid
  · rw [binding?_bind F hid] at h
    split at h
    · next heq =>
        cases h
        exact .inr ⟨heq.2, rfl⟩
    · exact .inl h
  · rw [binding?_bind_of_size_le F hid] at h
    exact .inl h

theorem binding?_define_cases {E : Env} {k : FrameId} {name n : String} {v u : α}
    (h : (F.define E name v).binding? k n = some u) :
    F.binding? k n = some u ∨ n = name ∧ u = v := by
  cases E with
  | nil => exact .inl h
  | cons id E => exact binding?_bind_cases h

end Frames

/-! ## Steps -/

/-- How a step ends. -/
def Result.Ends {α : Type} (R : Abort → Prop) (Q : Nat → α → Prop) : Result α → Prop
  | .ok a m => Q m.objects.size a
  | .abort r _ => R r

/-- From a machine the step keeps things regular: its value is a `Q`, and if it is
aborted the reason is an `R`. -/
structure Keeps {α : Type} (R : Abort → Prop) (vis : Visits) (Q : Nat → α → Prop) (x : Eval α)
    (m : Machine) : Prop where
  grows : m.objects.size ≤ (x m).machine.objects.size
  regular : (x m).machine.Regular
  ends : (x m).Ends R Q
  visits : ∀ a, vis m a → a.Regular

/-- Nothing is asked of the value of a step. -/
abbrev anyValue {α : Type} (_ : Nat) (_ : α) : Prop := True

section

variable {α β : Type} {R R' : Abort → Prop} {vis vis' : Visits} {Q Q' : Nat → α → Prop}
  {x : Eval α} {m : Machine}

theorem Keeps.imp (h : Keeps R vis Q x m) (hvis : ∀ a, vis' m a → vis m a)
    (hR : ∀ r, R r → R' r) (hQ : ∀ k a, m.objects.size ≤ k → Q k a → Q' k a) :
    Keeps R' vis' Q' x m where
  grows := h.grows
  regular := h.regular
  ends := by
    have hends := h.ends
    have hgrows := h.grows
    cases hx : x m with
    | ok a m' =>
        rw [hx] at hends hgrows
        exact hQ _ a hgrows hends
    | abort r m' =>
        rw [hx] at hends
        exact hR r hends
  visits a ha := h.visits a (hvis a ha)

theorem keeps_of_ok {a : α} {m' : Machine} (hx : x m = .ok a m') (hm : m'.Regular)
    (hgrows : m.objects.size ≤ m'.objects.size) (ha : Q m'.objects.size a) :
    Keeps R .none Q x m := by
  refine ⟨?_, ?_, ?_, fun _ h => h.elim⟩
  all_goals rw [hx]
  · exact hgrows
  · exact hm
  · exact ha

theorem keeps_pure {a : α} (hm : m.Regular) (ha : Q m.objects.size a) :
    Keeps R .none Q (pure a) m :=
  keeps_of_ok rfl hm (Nat.le_refl _) ha

theorem keeps_abort {r : Abort} (hm : m.Regular) (hr : R r) :
    Keeps R .none Q (Eval.abort r) m :=
  ⟨Nat.le_refl _, hm, hr, fun _ h => h.elim⟩

/-- A step after another one. What the second begins with is what the first left. -/
theorem Keeps.bind {P : Nat → β → Prop} {y : Eval β} {f : β → Eval α} {next : β → Visits}
    (h : Keeps R vis P y m)
    (hnext : ∀ b m₁, y m = .ok b m₁ → m.objects.size ≤ m₁.objects.size → m₁.Regular →
      P m₁.objects.size b → Keeps R (next b) Q (f b) m₁) :
    Keeps R (vis.andThen y next) Q (y >>= f) m := by
  obtain ⟨hgrows, hregular, hends, hvis⟩ := h
  cases hy : y m with
  | abort r m₁ =>
      have hbind : (y >>= f) m = .abort r m₁ := by rw [Eval.bind_apply, hy]
      rw [hy] at hgrows hregular hends
      refine ⟨?_, ?_, ?_, fun a ha => ?_⟩
      · rw [hbind]; exact hgrows
      · rw [hbind]; exact hregular
      · rw [hbind]; exact hends
      · rcases ha with ha | ⟨b, m₂, heq, _⟩
        · exact hvis a ha
        · rw [hy] at heq
          cases heq
  | ok b m₁ =>
      have hbind : (y >>= f) m = f b m₁ := by rw [Eval.bind_apply, hy]
      rw [hy] at hgrows hregular hends
      obtain ⟨hgrows', hregular', hends', hvis'⟩ := hnext b m₁ hy hgrows hregular hends
      refine ⟨?_, ?_, ?_, fun a ha => ?_⟩
      · rw [hbind]; exact Nat.le_trans hgrows hgrows'
      · rw [hbind]; exact hregular'
      · rw [hbind]; exact hends'
      · rcases ha with ha | ⟨b', m₂, heq, ha⟩
        · exact hvis a ha
        · rw [hy] at heq
          cases heq
          exact hvis' a ha

theorem Keeps.map {P : Nat → β → Prop} {y : Eval β} {f : β → Eval α}
    (h : Keeps R vis P y m)
    (hnext : ∀ b m₁, y m = .ok b m₁ → m.objects.size ≤ m₁.objects.size → m₁.Regular →
      P m₁.objects.size b → Keeps R .none Q (f b) m₁) :
    Keeps R vis Q (y >>= f) m :=
  (h.bind hnext).imp (fun _ => .inl) (fun _ => id) fun _ _ _ => id

/-- Which environment is current does not matter. -/
theorem Machine.Regular.at_env (h : m.Regular) (E : Env) : { m with env := E }.Regular :=
  ⟨h.frames, h.objects, h.vectorClass⟩

theorem Keeps.within {E : Env} (h : Keeps R vis Q x { m with env := E }) :
    Keeps R (.within E vis) Q (Eval.within E x) m := by
  obtain ⟨hgrows, hregular, hends, hvis⟩ := h
  refine ⟨?_, ?_, ?_, hvis⟩
  all_goals
    simp only [Eval.within]
    cases hx : x { m with env := E }
    all_goals rw [hx] at hgrows hregular hends
  · exact hgrows
  · exact hgrows
  · exact hregular.at_env _
  · exact hregular.at_env _
  · exact hends
  · exact hends

/-- A failure that leaves a call is reported where the call ends. -/
theorem Keeps.reporting {t : Token} (h : Keeps Abort.LeavesCall vis Q x m) :
    Keeps Abort.Passes vis Q (Eval.reporting t x) m := by
  obtain ⟨hgrows, hregular, hends, hvis⟩ := h
  refine ⟨?_, ?_, ?_, hvis⟩
  all_goals
    simp only [Eval.reporting]
    rcases hx : x m with ⟨a, m'⟩ | ⟨_ | _ | _ | _, m'⟩
    all_goals
      rw [hx] at hgrows hregular hends
      first
        | exact hgrows
        | exact hregular
        | exact hends

/-! ## Machines -/

/-- New bindings in a regular machine. -/
theorem Machine.Regular.with_frames (h : m.Regular) {F : Frames Value}
    (hF : ∀ id name v, F.binding? id name = some v → v.BoundTo m.objects.size name) :
    { m with frames := F }.Regular :=
  ⟨hF, h.objects, h.vectorClass⟩

theorem Machine.Regular.define (h : m.Regular) (E : Env) {name : String} {v : Value}
    (hv : v.BoundTo m.objects.size name) :
    { m with frames := m.frames.define E name v }.Regular := by
  refine h.with_frames fun id n u hu => ?_
  rcases Frames.binding?_define_cases hu with hu | ⟨rfl, rfl⟩
  · exact h.frames id n u hu
  · exact hv

theorem Machine.Regular.defineAll (h : m.Regular) (E : Env) (l : List (String × Value))
    (hl : ∀ x ∈ l, x.2.BoundTo m.objects.size x.1) :
    { m with frames := m.frames.defineAll E l }.Regular := by
  induction l generalizing m with
  | nil => exact h
  | cons x rest ih =>
      exact ih (h.define E (hl x List.mem_cons_self))
        fun y hy => hl y (List.mem_cons_of_mem x hy)

theorem Machine.Regular.enter (h : m.Regular) (label : String) (E : Env) :
    { m with frames := (m.frames.enter label E).2 }.Regular := by
  refine h.with_frames fun id n u hu => ?_
  rw [Frames.binding?_enter] at hu
  exact h.frames id n u hu

/-- Making an instance. -/
theorem Machine.Regular.push (h : m.Regular) {i : Instance}
    (hi : i.Regular (m.objects.size + 1)) :
    { m with objects := m.objects.push i }.Regular where
  frames id name v hv := by
    rw [Array.size_push]
    exact (h.frames id name v hv).mono (Nat.le_succ _)
  objects ref j hj := by
    rw [Array.size_push]
    rw [Array.getElem?_push] at hj
    split at hj
    · cases hj
      exact hi
    · exact (h.objects ref j hj).mono (Nat.le_succ _)
  vectorClass := h.vectorClass

/-- Changing an instance. -/
theorem Machine.Regular.modify (h : m.Regular) (ref : Nat) {f : Instance → Instance}
    (hf : ∀ i, i.Regular m.objects.size → (f i).Regular m.objects.size) :
    { m with objects := m.objects.modify ref f }.Regular where
  frames id name v hv := by
    rw [Array.size_modify]
    exact h.frames id name v hv
  objects r j hj := by
    rw [Array.size_modify]
    rw [Array.getElem?_modify] at hj
    split at hj
    · obtain ⟨i, hi, rfl⟩ := Option.map_eq_some_iff.mp hj
      exact hf i (h.objects r i hi)
    · exact h.objects r j hj
  vectorClass := h.vectorClass

end

end Lox
