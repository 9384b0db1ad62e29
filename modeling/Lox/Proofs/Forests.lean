import Lox.Proofs.Frames
import Mathlib.Data.Nat.Find
import Mathlib.Order.Bounds.Basic

/-!
# Forests of environments

Environments that are made one inside another share the frames further out, so a write to one
frame can be seen from many environments, and from none in which a nearer frame binds the same
name. By name and by distance one comes to the same frame if the distance is that of the
nearest frame that binds the name.

Which environments see a write depends on where their searches pass. In a forest a frame is the
first of one environment only, so a search that passes a frame goes on in the same way from
wherever it came.
-/

namespace Lox

/-! ## Hops -/

namespace Env

/-- The first frame of the environment some hops out. -/
def hop? (E : Env) (d : Nat) : Option FrameId :=
  (E.ancestor? d).bind List.head?

@[simp]
theorem ancestor?_zero (E : Env) : E.ancestor? 0 = some E :=
  rfl

@[simp]
theorem ancestor?_cons (k : FrameId) (E : Env) (d : Nat) :
    ancestor? (k :: E) (d + 1) = E.ancestor? d := by
  simp [ancestor?]

@[simp]
theorem hop?_nil (d : Nat) : hop? [] d = none := by
  cases d <;> simp [hop?, ancestor?]

@[simp]
theorem hop?_zero (k : FrameId) (E : Env) : hop? (k :: E) 0 = some k :=
  rfl

@[simp]
theorem hop?_cons (k : FrameId) (E : Env) (d : Nat) : hop? (k :: E) (d + 1) = E.hop? d := by
  simp [hop?]

theorem hop?_eq (E : Env) (d : Nat) : E.hop? d = E[d]? := by
  induction E generalizing d with
  | nil => simp
  | cons k E ih =>
      cases d with
      | zero => rfl
      | succ d => rw [hop?_cons, List.getElem?_cons_succ, ih]

theorem hop?_of_ancestor? {E outer : Env} {k : FrameId} {d : Nat}
    (h : E.ancestor? d = some (k :: outer)) : E.hop? d = some k := by
  rw [hop?, h]
  rfl

theorem ancestor?_of_hop? {E : Env} {k : FrameId} {d : Nat} (h : E.hop? d = some k) :
    ∃ outer, E.ancestor? d = some (k :: outer) := by
  obtain ⟨E', hE', hhead⟩ := Option.bind_eq_some_iff.mp h
  exact ⟨E'.tail, by rw [hE', List.cons_head?_tail hhead]⟩

end Env

namespace Frames

variable {α : Type} {F : Frames α} {E : Env} {k : FrameId} {name n : String} {d : Nat}

/-- The frame some hops out binds the name. -/
def BindsAt (F : Frames α) (E : Env) (name : String) (d : Nat) : Prop :=
  ∃ k, E.hop? d = some k ∧ (F.binding? k name).isSome = true

/-- The nearest frame that binds the name is so many hops out. -/
def NearestAt (F : Frames α) (E : Env) (name : String) (d : Nat) : Prop :=
  IsLeast {d | F.BindsAt E name d} d

/-- In the environment the name means the variable of the frame. -/
def Resolves (F : Frames α) (E : Env) (name : String) (k : FrameId) : Prop :=
  ∃ d, F.NearestAt E name d ∧ E.hop? d = some k

/-- The search for the name comes to the environment `inner`, past frames of which none binds
the name. -/
def Reaches (F : Frames α) (E : Env) (name : String) (inner : Env) : Prop :=
  ∃ d, E.ancestor? d = some inner ∧ ∀ e < d, ¬ F.BindsAt E name e

/-! ## The nearest frame -/

theorem get?_cons (F : Frames α) (k : FrameId) (E : Env) (name : String) :
    F.get? (k :: E) name = (F.binding? k name).or (F.get? E name) := by
  rw [get?, List.findSome?_cons]
  cases F.binding? k name <;> rfl

theorem get?_bind_of_ne (F : Frames α) (k : FrameId) (v : α) (E : Env) (h : n ≠ name) :
    (F.bind k name v).get? E n = F.get? E n := by
  have hsame : ∀ j, (F.bind k name v).binding? j n = F.binding? j n := by
    intro j
    by_cases hk : k < F.size
    · rw [binding?_bind F hk, if_neg fun hjn => h hjn.2]
    · exact binding?_bind_of_size_le F (Nat.not_lt.mp hk) name v j n
  simp only [get?, hsame]

theorem not_bindsAt_nil : ¬ F.BindsAt [] name d := by
  rintro ⟨k, hk, _⟩
  simp at hk

theorem bindsAt_zero : F.BindsAt (k :: E) name 0 ↔ (F.binding? k name).isSome = true := by
  simp [BindsAt]

theorem bindsAt_succ : F.BindsAt (k :: E) name (d + 1) ↔ F.BindsAt E name d := by
  simp [BindsAt]

/-- A search that passes a frame and goes on has passed no frame with the name. -/
theorem unbound_succ : (∀ e < d + 1, ¬ F.BindsAt (k :: E) name e) ↔
    F.binding? k name = none ∧ ∀ e < d, ¬ F.BindsAt E name e := by
  constructor
  · intro h
    refine ⟨?_, fun e he => ?_⟩
    · have hfirst := h 0 (Nat.zero_lt_succ d)
      rw [bindsAt_zero] at hfirst
      simpa using hfirst
    · rw [← bindsAt_succ (k := k)]
      exact h (e + 1) (by omega)
  · rintro ⟨hk, h⟩ e he
    cases e with
    | zero => simp [bindsAt_zero, hk]
    | succ e =>
        rw [bindsAt_succ]
        exact h e (by omega)

theorem nearestAt_iff :
    F.NearestAt E name d ↔ F.BindsAt E name d ∧ ∀ e < d, ¬ F.BindsAt E name e := by
  constructor
  · intro h
    refine ⟨h.1, fun e he hbinds => ?_⟩
    have hle : d ≤ e := h.2 hbinds
    omega
  · rintro ⟨hbinds, hfirst⟩
    refine ⟨hbinds, fun e he => ?_⟩
    by_contra hlt
    exact hfirst e (by omega) he

/-- If any frame binds the name, one of them is the nearest. -/
theorem exists_nearestAt (h : F.BindsAt E name d) : ∃ e, F.NearestAt E name e := by
  classical
  exact ⟨Nat.find ⟨d, h⟩, Nat.find_spec _, fun e he => Nat.find_min' _ he⟩

theorem nearestAt_zero (h : (F.binding? k name).isSome = true) : F.NearestAt (k :: E) name 0 :=
  ⟨bindsAt_zero.mpr h, fun _ _ => Nat.zero_le _⟩

/-- A frame that does not bind the name is one hop more. -/
theorem nearestAt_succ (hk : F.binding? k name = none) :
    F.NearestAt (k :: E) name (d + 1) ↔ F.NearestAt E name d := by
  rw [nearestAt_iff, nearestAt_iff, bindsAt_succ, unbound_succ]
  simp [hk]

/-- What by name and by distance is found at the nearest frame that binds the name. -/
theorem NearestAt.found (h : F.NearestAt E name d) :
    ∃ k v, E.hop? d = some k ∧ F.binding? k name = some v ∧ F.get? E name = some v ∧
      F.owner? E name = some k := by
  induction E generalizing d with
  | nil => exact absurd h.1 not_bindsAt_nil
  | cons j E ih =>
      cases hj : F.binding? j name with
      | some v =>
          have hle : d ≤ 0 := h.2 (bindsAt_zero.mpr (by rw [hj]; rfl))
          obtain rfl : d = 0 := by omega
          exact ⟨j, v, rfl, hj, by simp [get?, hj], by simp [owner?, hj]⟩
      | none =>
          cases d with
          | zero =>
              have hbound := bindsAt_zero.mp h.1
              rw [hj] at hbound
              cases hbound
          | succ d =>
              obtain ⟨k, v, hk, hv, hget, howner⟩ := ih ((nearestAt_succ hj).mp h)
              refine ⟨k, v, by rw [Env.hop?_cons, hk], hv, ?_, ?_⟩
              · rw [get?_cons, hj, Option.none_or, hget]
              · rw [owner?, List.find?_cons, hj]
                exact howner

theorem owner?_eq_none_iff : F.owner? E name = none ↔ ∀ d, ¬ F.BindsAt E name d := by
  rw [owner?, List.find?_eq_none]
  constructor
  · rintro h d ⟨k, hk, hbound⟩
    rw [Env.hop?_eq] at hk
    exact h k (List.mem_of_getElem? hk) hbound
  · intro h k hk hbound
    obtain ⟨d, hd⟩ := List.mem_iff_getElem?.mp hk
    exact h d ⟨k, by rw [Env.hop?_eq, hd], hbound⟩

/-- The first frame with the name is the nearest one. -/
theorem exists_nearestAt_of_owner? (h : F.owner? E name = some k) :
    ∃ d, F.NearestAt E name d ∧ E.hop? d = some k ∧ (F.binding? k name).isSome = true := by
  have hbinds : ∃ d, F.BindsAt E name d := by
    by_contra hnone
    rw [owner?_eq_none_iff.mpr (not_exists.mp hnone)] at h
    cases h
  obtain ⟨d, hd⟩ := exists_nearestAt hbinds.choose_spec
  obtain ⟨j, v, hhop, hv, _, howner⟩ := hd.found
  rw [h] at howner
  cases howner
  exact ⟨d, hd, hhop, by rw [hv]; rfl⟩

/-- By name nothing is found exactly where no frame binds the name. -/
theorem get?_eq_none_iff : F.get? E name = none ↔ ∀ d, ¬ F.BindsAt E name d := by
  rw [← owner?_eq_none_iff, get?, owner?, List.findSome?_eq_none_iff, List.find?_eq_none]
  simp

theorem getAt_eq (hk : E.hop? d = some k) {v : α} (hv : F.binding? k name = some v) :
    F.getAt E d name = .ok v :=
  getAt_eq_ok (Env.hop?_eq E d ▸ hk) hv

theorem assignAt_eq (hk : E.hop? d = some k) (v : α) :
    F.assignAt E d name v = .ok (F.bind k name v) := by
  rw [Env.hop?_eq] at hk
  simp only [assignAt, hk]

/-- A frame keeps its label when a name is bound in it. -/
theorem label_bind (F : Frames α) (k : FrameId) (name : String) (v : α) (j : FrameId) :
    ((F.bind k name v)[j]?).map (·.label) = (F[j]?).map (·.label) := by
  rw [bind, Array.getElem?_modify]
  split
  · next h => rw [← h, Option.map_map]; rfl
  · rfl

end Frames

/-! ## Forests -/

/-- All environments that were made, by the numbers of their first frames, and the frames that
they share. -/
structure Forest (α : Type) where
  frames : Frames α := #[]
  envs : Array Env := #[]

namespace Forest

variable {α : Type}

/-- What can be done to a forest. An environment is named by its number. -/
inductive Operation (α : Type) where
  /-- Makes an environment, inside another one or outside of all. -/
  | new (label : String) (outer : Option Nat)
  | define (env : Nat) (name : String) (value : α)
  | assign (env : Nat) (name : String) (value : α)
  | assignAt (env : Nat) (distance : Nat) (name : String) (value : α)

/-- The forest with a new environment. -/
def make (f : Forest α) (label : String) (outer : Env) : Forest α where
  frames := (f.frames.enter label outer).2
  envs := f.envs.push (f.frames.enter label outer).1

/-- The forest after an operation that succeeds. -/
def perform? (f : Forest α) : Operation α → Option (Forest α)
  | .new label none => some (f.make label [])
  | .new label (some i) => (f.envs[i]?).map (f.make label)
  | .define i name v => (f.envs[i]?).map fun E => { f with frames := f.frames.define E name v }
  | .assign i name v =>
    (f.envs[i]?).bind fun E =>
      (f.frames.assign? E name v).map fun frames => { f with frames := frames }
  | .assignAt i d name v =>
    (f.envs[i]?).bind fun E =>
      (f.frames.assignAt E d name v).toOption.map fun frames => { f with frames := frames }

/-- The forest after an operation. One that fails leaves it as it is. -/
def perform (f : Forest α) (op : Operation α) : Forest α :=
  (f.perform? op).getD f

/-- The forest that is there after some operations. -/
def grown (ops : List (Operation α)) : Forest α :=
  ops.foldl perform {}

/-! ## What stands in a forest -/

/-- An environment is its own frame and then an older environment, or nothing. -/
structure Standing (f : Forest α) : Prop where
  size : f.envs.size = f.frames.size
  form : ∀ (k : Nat) (E : Env), f.envs[k]? = some E →
    ∃ outer, E = k :: outer ∧ (outer = [] ∨ ∃ j < k, f.envs[j]? = some outer)

/-- An operation makes an environment, or keeps those that there are. -/
theorem perform?_cases {f f' : Forest α} {op : Operation α} (h : f.perform? op = some f') :
    (∃ label outer, (outer = [] ∨ ∃ j : Nat, f.envs[j]? = some outer) ∧
        f' = f.make label outer) ∨
      f'.envs = f.envs ∧ f'.frames.size = f.frames.size := by
  cases op with
  | new label outer =>
      cases outer with
      | none =>
          cases h
          exact .inl ⟨label, [], .inl rfl, rfl⟩
      | some i =>
          obtain ⟨E, hE, rfl⟩ := Option.map_eq_some_iff.mp h
          exact .inl ⟨label, E, .inr ⟨i, hE⟩, rfl⟩
  | define i name v =>
      obtain ⟨E, _, rfl⟩ := Option.map_eq_some_iff.mp h
      exact .inr ⟨rfl, Frames.size_define ..⟩
  | assign i name v =>
      obtain ⟨E, _, h⟩ := Option.bind_eq_some_iff.mp h
      obtain ⟨frames, hframes, rfl⟩ := Option.map_eq_some_iff.mp h
      obtain ⟨k, _, rfl⟩ := Option.map_eq_some_iff.mp hframes
      exact .inr ⟨rfl, Frames.size_bind ..⟩
  | assignAt i d name v =>
      obtain ⟨E, _, h⟩ := Option.bind_eq_some_iff.mp h
      obtain ⟨frames, hframes, rfl⟩ := Option.map_eq_some_iff.mp h
      refine .inr ⟨rfl, ?_⟩
      rw [Frames.assignAt] at hframes
      split at hframes
      · cases hframes
      · cases hframes
        exact Frames.size_bind ..

/-- Environments keep their numbers when another one is made. -/
theorem make_envs {f : Forest α} {j : Nat} {E : Env} (hj : f.envs[j]? = some E) (label : String)
    (outer : Env) : j < f.envs.size ∧ (f.make label outer).envs[j]? = some E := by
  have hlt : j < f.envs.size := (Array.getElem?_eq_some_iff.mp hj).1
  refine ⟨hlt, ?_⟩
  rw [make, Array.getElem?_push_lt hlt, ← hj, Array.getElem?_eq_getElem hlt]

theorem Standing.make {f : Forest α} (h : f.Standing) (label : String) {outer : Env}
    (houter : outer = [] ∨ ∃ j : Nat, f.envs[j]? = some outer) : (f.make label outer).Standing where
  size := by simp [Forest.make, h.size]
  form := by
    intro k E hE
    have hpush := hE
    rw [Forest.make, Array.getElem?_push] at hpush
    split at hpush
    · next heq =>
        cases hpush
        rw [heq, Frames.env_enter, ← h.size]
        exact ⟨outer, rfl, houter.imp_right fun ⟨j, hj⟩ => ⟨j, make_envs hj label outer⟩⟩
    · obtain ⟨outer', rfl, houter'⟩ := h.form k E hpush
      refine ⟨outer', rfl, houter'.imp_right ?_⟩
      rintro ⟨j, hj, hE'⟩
      exact ⟨j, hj, (make_envs hE' label outer).2⟩

theorem Standing.of_envs {f f' : Forest α} (h : f.Standing) (henvs : f'.envs = f.envs)
    (hsize : f'.frames.size = f.frames.size) : f'.Standing where
  size := by rw [henvs, hsize, h.size]
  form := by
    rw [henvs]
    exact h.form

theorem Standing.perform {f : Forest α} (h : f.Standing) (op : Operation α) :
    (f.perform op).Standing := by
  rw [Forest.perform]
  cases hop : f.perform? op with
  | none => exact h
  | some f' =>
      rcases perform?_cases hop with ⟨label, outer, houter, rfl⟩ | ⟨henvs, hsize⟩
      · exact h.make label houter
      · exact h.of_envs henvs hsize

theorem Standing.performAll {f : Forest α} (h : f.Standing) (ops : List (Operation α)) :
    (ops.foldl Forest.perform f).Standing := by
  induction ops generalizing f with
  | nil => exact h
  | cons op ops ih => exact ih (h.perform op)

theorem standing_grown (ops : List (Operation α)) : (grown ops : Forest α).Standing :=
  Standing.performAll ⟨rfl, fun k E h => by simp at h⟩ ops

/-! ## Environments of a forest -/

section

variable {f f' : Forest α} {E E' : Env} {k : FrameId} {name : String} {v : α}

/-- The environments of a forest, and what is around the outermost of them. -/
def Has (f : Forest α) (E : Env) : Prop :=
  E = [] ∨ E ∈ f.envs

theorem Standing.has (h : f.Standing) (hE : f.Has (k :: E)) :
    f.envs[k]? = some (k :: E) ∧ f.Has E := by
  obtain ⟨j, hj⟩ := Array.mem_iff_getElem?.mp (hE.resolve_left (List.cons_ne_nil k E))
  obtain ⟨outer, heq, houter⟩ := h.form j _ hj
  cases heq
  refine ⟨hj, houter.imp_right ?_⟩
  rintro ⟨i, _, hi⟩
  exact Array.mem_of_getElem? hi

/-- What lies some hops out is an environment as well. -/
theorem Standing.ancestor (h : f.Standing) (hE : f.Has E) {d : Nat}
    (hd : E.ancestor? d = some E') : f.Has E' := by
  induction E generalizing d with
  | nil =>
      cases d with
      | zero => cases hd; exact hE
      | succ d => cases hd
  | cons k E ih =>
      cases d with
      | zero => cases hd; exact hE
      | succ d =>
          rw [Env.ancestor?_cons] at hd
          exact ih (h.has hE).2 hd

/-- All frames of an environment are there. -/
theorem Standing.lt_size (h : f.Standing) (hE : f.Has E) (hk : k ∈ E) : k < f.frames.size := by
  induction E with
  | nil => cases hk
  | cons j E ih =>
      obtain ⟨hj, hE⟩ := h.has hE
      rcases List.mem_cons.mp hk with rfl | hk
      · rw [← h.size]
        exact (Array.getElem?_eq_some_iff.mp hj).1
      · exact ih hE hk

/-- On the way out the frames become older, so none is met twice. -/
theorem Standing.pairwise (h : f.Standing) (hE : f.Has E) : E.Pairwise (· > ·) := by
  induction E with
  | nil => exact .nil
  | cons k E ih =>
      obtain ⟨hk, hE'⟩ := h.has hE
      refine List.pairwise_cons.mpr ⟨fun i hi => ?_, ih hE'⟩
      obtain ⟨outer, heq, houter⟩ := h.form k _ hk
      cases heq
      rcases houter with rfl | ⟨j, hj, houter⟩
      · cases hi
      · obtain ⟨outer', rfl, _⟩ := h.form j _ houter
        rcases List.mem_cons.mp hi with rfl | hi
        · exact hj
        · exact Nat.lt_trans ((List.pairwise_cons.mp (ih hE')).1 i hi) hj

/-! ## What a write changes -/

/-- The variable `name` of the frame `k` has the value `v`, and nothing else is changed: no
other variable, no label, and no environment. -/
structure Sets (f : Forest α) (k : FrameId) (name : String) (v : α) (f' : Forest α) : Prop where
  envs : f'.envs = f.envs
  size : f'.frames.size = f.frames.size
  labels : ∀ j : FrameId, (f'.frames[j]?).map (·.label) = (f.frames[j]?).map (·.label)
  bindings : ∀ j n,
    f'.frames.binding? j n = if j = k ∧ n = name then some v else f.frames.binding? j n

/-- The name means `v` in the environments that see it, and all else means what it meant. -/
def Shows (f : Forest α) (name : String) (v : α) (sees : Env → Prop) (f' : Forest α) : Prop :=
  ∀ E ∈ f.envs, ∀ n,
    (n = name ∧ sees E → f'.frames.get? E n = some v) ∧
      (¬ (n = name ∧ sees E) → f'.frames.get? E n = f.frames.get? E n)

theorem sets_bind (f : Forest α) (hk : k < f.frames.size) (name : String) (v : α) :
    f.Sets k name v { f with frames := f.frames.bind k name v } where
  envs := rfl
  size := Frames.size_bind ..
  labels := Frames.label_bind f.frames k name v
  bindings := Frames.binding?_bind f.frames hk name v

/-- A search that does not begin at the frame comes to it past a first frame without the name. -/
theorem reaches_cons {F : Frames α} {j : FrameId} (hj : j ≠ k) :
    F.Reaches (j :: E') name (k :: E) ↔ F.binding? j name = none ∧ F.Reaches E' name (k :: E) := by
  constructor
  · rintro ⟨d, hd, hfirst⟩
    cases d with
    | zero =>
        cases hd
        exact absurd rfl hj
    | succ d =>
        obtain ⟨hunbound, hfirst⟩ := Frames.unbound_succ.mp hfirst
        exact ⟨hunbound, d, by rw [← hd, Env.ancestor?_cons], hfirst⟩
  · rintro ⟨hunbound, d, hd, hfirst⟩
    exact ⟨d + 1, by rw [Env.ancestor?_cons, hd], Frames.unbound_succ.mpr ⟨hunbound, hfirst⟩⟩

/-- The searches that come to a frame find what is bound there. The others go on as before. -/
theorem Standing.get?_bind (h : f.Standing) (hk : f.envs[k]? = some (k :: E)) (hE' : f.Has E')
    (name : String) (v : α) :
    (f.frames.Reaches E' name (k :: E) → (f.frames.bind k name v).get? E' name = some v) ∧
      (¬ f.frames.Reaches E' name (k :: E) →
        (f.frames.bind k name v).get? E' name = f.frames.get? E' name) := by
  have hsize : k < f.frames.size :=
    h.lt_size (.inr (Array.mem_of_getElem? hk)) List.mem_cons_self
  induction E' with
  | nil =>
      refine ⟨fun hreaches => ?_, fun _ => rfl⟩
      obtain ⟨d, hd, _⟩ := hreaches
      have hhop := Env.hop?_of_ancestor? hd
      simp at hhop
  | cons j E' ih =>
      obtain ⟨hj, hE'⟩ := h.has hE'
      rw [Frames.get?_cons, Frames.get?_cons, Frames.binding?_bind f.frames hsize]
      by_cases hjk : j = k
      · subst hjk
        rw [hk] at hj
        cases hj
        refine ⟨fun _ => by simp, fun hreaches => absurd ?_ hreaches⟩
        exact ⟨0, rfl, fun e he => absurd he (Nat.not_lt_zero e)⟩
      · rw [reaches_cons hjk, if_neg fun h => hjk h.1]
        cases hbound : f.frames.binding? j name with
        | some u => exact ⟨fun hreaches => absurd hreaches.1 (by simp), fun _ => rfl⟩
        | none => simpa using ih hE'

theorem Standing.shows_bind (h : f.Standing) (hk : f.envs[k]? = some (k :: E)) (name : String)
    (v : α) : f.Shows name v (f.frames.Reaches · name (k :: E))
      { f with frames := f.frames.bind k name v } := by
  intro E' hE' n
  by_cases hn : n = name
  · subst hn
    simpa using h.get?_bind hk (.inr hE') n v
  · exact ⟨fun hsees => absurd hsees.1 hn, fun _ => Frames.get?_bind_of_ne f.frames k v E' hn⟩

theorem Shows.congr {sees sees' : Env → Prop} (h : f.Shows name v sees f')
    (hsees : ∀ E ∈ f.envs, sees' E ↔ sees E) : f.Shows name v sees' f' := by
  intro E hE n
  rw [hsees E hE]
  exact h E hE n

/-- A name means the variable of a frame where the search for it comes to the frame. -/
theorem Standing.resolves_iff (h : f.Standing) (hk : f.envs[k]? = some (k :: E))
    (hbound : (f.frames.binding? k name).isSome = true) (hE' : f.Has E') :
    f.frames.Resolves E' name k ↔ f.frames.Reaches E' name (k :: E) := by
  constructor
  · rintro ⟨d, hd, hhop⟩
    obtain ⟨outer, houter⟩ := Env.ancestor?_of_hop? hhop
    have hsame := (h.has (h.ancestor hE' houter)).1
    rw [hk] at hsame
    cases hsame
    exact ⟨d, houter, (Frames.nearestAt_iff.mp hd).2⟩
  · rintro ⟨d, hd, hfirst⟩
    have hhop := Env.hop?_of_ancestor? hd
    exact ⟨d, Frames.nearestAt_iff.mpr ⟨⟨k, hhop, hbound⟩, hfirst⟩, hhop⟩

end

/-! ## The laws -/

/-- What reading and writing a name do in one environment of a forest. -/
structure Lawful (f : Forest α) (i : Nat) (E : Env) (name : String) (v : α) : Prop where
  /-- By name one finds what is found by the distance of the nearest frame with the name. -/
  found : ∀ d, f.frames.NearestAt E name d →
    ∃ u, f.frames.get? E name = some u ∧ f.frames.getAt E d name = .ok u
  /-- By name nothing is found exactly if no frame on the way out binds the name. -/
  missing : f.frames.get? E name = none ↔ ∀ d, ¬ f.frames.BindsAt E name d
  /-- What can be assigned by name is assigned as by the distance of the nearest frame with the
  name. One variable is set, and is seen where the name means this variable. -/
  assigned : ∀ f', f.perform? (.assign i name v) = some f' →
    ∃ d k, f.frames.NearestAt E name d ∧ E.hop? d = some k ∧
      f.perform? (.assignAt i d name v) = some f' ∧ f.Sets k name v f' ∧
      f.Shows name v (f.frames.Resolves · name k) f'
  /-- Nothing can be assigned exactly if no frame on the way out binds the name, and then
  nothing is changed. -/
  refused : (f.perform? (.assign i name v) = none ↔ ∀ d, ¬ f.frames.BindsAt E name d) ∧
    ((∀ d, ¬ f.frames.BindsAt E name d) → f.perform (.assign i name v) = f)
  /-- What is defined is a variable of the first frame. It is seen where the search for the
  name comes to this environment, before any frame that binds the name. -/
  defined : ∃ k f', E.hop? 0 = some k ∧ f.perform? (.define i name v) = some f' ∧
    f.Sets k name v f' ∧ f.Shows name v (f.frames.Reaches · name E) f'

section

variable {f : Forest α} {i : Nat} {E : Env} {name : String}

theorem perform?_assign (hE : f.envs[i]? = some E) (v : α) : f.perform? (.assign i name v) =
    (f.frames.owner? E name).map fun k => { f with frames := f.frames.bind k name v } := by
  simp only [perform?, hE, Option.bind_some, Frames.assign?, Option.map_map]
  rfl

theorem Standing.assigned (h : f.Standing) (hE : f.envs[i]? = some E) {v : α} {f' : Forest α}
    (hf' : f.perform? (.assign i name v) = some f') :
    ∃ d k, f.frames.NearestAt E name d ∧ E.hop? d = some k ∧
      f.perform? (.assignAt i d name v) = some f' ∧ f.Sets k name v f' ∧
      f.Shows name v (f.frames.Resolves · name k) f' := by
  rw [perform?_assign hE, Option.map_eq_some_iff] at hf'
  obtain ⟨k, howner, rfl⟩ := hf'
  obtain ⟨d, hd, hhop, hbound⟩ := Frames.exists_nearestAt_of_owner? howner
  obtain ⟨outer, houter⟩ := Env.ancestor?_of_hop? hhop
  have hk := (h.has (h.ancestor (.inr (Array.mem_of_getElem? hE)) houter)).1
  refine ⟨d, k, hd, hhop, ?_, f.sets_bind ?_ name v, ?_⟩
  · simp only [perform?, hE, Option.bind_some, Frames.assignAt_eq hhop]
    rfl
  · exact Frames.lt_size_of_binding? hbound
  · exact (h.shows_bind hk name v).congr fun E' hE' => h.resolves_iff hk hbound (.inr hE')

theorem Standing.defined (h : f.Standing) (hE : f.envs[i]? = some E) (v : α) :
    ∃ k f', E.hop? 0 = some k ∧ f.perform? (.define i name v) = some f' ∧
      f.Sets k name v f' ∧ f.Shows name v (f.frames.Reaches · name E) f' := by
  obtain ⟨outer, rfl, _⟩ := h.form i E hE
  refine ⟨i, _, rfl, by rw [perform?, hE]; rfl, f.sets_bind ?_ name v, h.shows_bind hE name v⟩
  exact h.lt_size (.inr (Array.mem_of_getElem? hE)) List.mem_cons_self

/-- In every forest that some operations leave, reading and writing by name are reading and
writing in the nearest frame that binds the name. A write changes one variable of one frame, and
is seen exactly by the searches that end at it. -/
theorem grown_lawful (ops : List (Operation α)) (hE : (grown ops).envs[i]? = some E)
    (name : String) (v : α) : (grown ops).Lawful i E name v where
  found := by
    intro d hd
    obtain ⟨k, u, hhop, hu, hget, _⟩ := hd.found
    exact ⟨u, hget, Frames.getAt_eq hhop hu⟩
  missing := Frames.get?_eq_none_iff
  assigned := fun _ => (standing_grown ops).assigned hE
  refused := by
    have hnone : (grown ops).perform? (.assign i name v) = none ↔
        ∀ d, ¬ (grown ops).frames.BindsAt E name d := by
      rw [perform?_assign hE, Option.map_eq_none_iff, Frames.owner?_eq_none_iff]
    refine ⟨hnone, fun hunbound => ?_⟩
    rw [perform, hnone.mpr hunbound, Option.getD_none]
  defined := (standing_grown ops).defined hE v

/-- Two environments are made inside a third, and one of them has a variable of the same name as
the third. -/
theorem grown_lawful_shadowed :
    let f : Forest Nat := grown
      [.new "globals" none, .define 0 "a" 1, .new "block" (some 0), .define 1 "a" 2,
        .new "block" (some 0), .assign 2 "a" 3, .assign 2 "b" 4]
    f.envs = #[[0], [1, 0], [2, 0]] ∧ f.frames.get? [1, 0] "a" = some 2 ∧
      f.frames.get? [2, 0] "a" = some 3 ∧ f.frames.get? [2, 0] "b" = none ∧
      f.Lawful 1 [1, 0] "a" 5 ∧ f.Lawful 2 [2, 0] "a" 5 ∧ f.Lawful 2 [2, 0] "b" 5 := by
  intro f
  refine ⟨by decide +kernel, by decide +kernel, by decide +kernel, by decide +kernel, ?_, ?_, ?_⟩
  · exact grown_lawful _ (by decide +kernel) "a" 5
  · exact grown_lawful _ (by decide +kernel) "a" 5
  · exact grown_lawful _ (by decide +kernel) "b" 5

end

end Forest

end Lox
