import Lox.Eval.Run
import Lox.Proofs.Dispatch.Surroundings
import Lox.Proofs.Frames

/-!
# What is known for good about a run

A class object owns the methods of its declaration, each with the environment that the
declaration was run in. Looking for a method goes up the chain of the classes and takes
the first that owns one of that name.

A frame is made for one scope, and the name of the language in it, if it is the scope of
a receiver or a superclass, is never bound again. An instance keeps its class. Both are
kept in a ledger, which only grows. Against a ledger it can be said, without the machine,
what is right about closures, classes and values: a function stands in an environment of
its place, a method in one of its class, and the superclass that such an environment
binds is that of the class that owns the method. A receiver is an instance of a class
that descends from the owner of the method.
-/

namespace Lox

namespace Class

/-- The class and its ancestors, the nearest first. -/
def chain : Class → List Class
  | root body => [root body]
  | derived body superclass => derived body superclass :: superclass.chain

/-- The class owns the method `f`, whose environment is `E`. -/
def Owns (c : Class) (f : FunDecl Slot) (E : Env) : Prop :=
  c.body.methods.find? f.name.lexeme =
    some (.closure ⟨f, E, f.name.lexeme == initializerName⟩)

variable {a b c : Class} {name : String} {method : Method}

theorem mem_chain_self (c : Class) : c ∈ c.chain := by
  cases c <;> exact List.mem_cons_self

/-- The ancestors of an ancestor. -/
theorem chain_subset (h : b ∈ c.chain) : ∀ a ∈ b.chain, a ∈ c.chain := by
  induction c with
  | root body =>
      rw [List.mem_singleton.mp h]
      exact fun _ ha => ha
  | derived body superclass ih =>
      rcases List.mem_cons.mp h with rfl | h
      · exact fun _ ha => ha
      · exact fun a ha => List.mem_cons_of_mem _ (ih h a ha)

theorem mem_chain_superclass (h : b ∈ c.chain) (hsuper : b.superclass? = some a) :
    a ∈ c.chain := by
  refine chain_subset h a ?_
  cases b with
  | root body => cases hsuper
  | derived body superclass =>
      cases hsuper
      exact List.mem_cons_of_mem _ (mem_chain_self _)

/-- Lookup takes the method of the nearest class of the chain that has one. -/
theorem findMethod?_eq (c : Class) (name : String) :
    c.findMethod? name = c.chain.findSome? (·.body.methods.find? name) := by
  induction c with
  | root body =>
      rw [findMethod?, chain, List.findSome?_cons, List.findSome?_nil]
      cases h : body.methods.find? name <;> simp [Class.body, h]
  | derived body superclass ih =>
      rw [findMethod?, chain, List.findSome?_cons, ih]
      cases h : body.methods.find? name <;> simp [Class.body, h]

theorem exists_owner (h : c.findMethod? name = some method) :
    ∃ b ∈ c.chain, b.body.methods.find? name = some method := by
  rw [findMethod?_eq] at h
  exact List.exists_of_findSome?_eq_some h

end Class

/-! ## Ledgers -/

/-- What is known for good about a frame. -/
structure Origin where
  opening : Opening
  /-- The environment that it was made in. -/
  outer : Env
  /-- The value of the name of the language that the scope is opened for, if it is for
  one. -/
  held : Value := .nil

/-- What is known for good about a run of some programs. -/
structure Ledger (programs : List (List (Stmt Slot))) where
  size : Nat
  made : FrameId → Option Origin
  /-- The classes of the instances. -/
  classes : Nat → Option Class

namespace Ledger

variable {programs : List (List (Stmt Slot))}

/-- All that is known in the first ledger is known in the second one. -/
structure Later (w w' : Ledger programs) : Prop where
  size : w.size ≤ w'.size
  made : ∀ k o, w.made k = some o → w'.made k = some o
  classes : ∀ ref c, w.classes ref = some c → w'.classes ref = some c

/-- The frames of the environment were made for the scopes around the place. -/
inductive Around (w : Ledger programs) : Place → Env → Prop
  | global : Around w [] globalEnv
  | frame {l : Level} {p : Place} {k : FrameId} {o : Origin} :
      w.made k = some o → o.opening = l.opening → Around w p o.outer →
      Around w (l :: p) (k :: o.outer)

variable {w w' w'' : Ledger programs} {p : Place} {E : Env}

theorem Later.refl (w : Ledger programs) : w.Later w :=
  ⟨Nat.le_refl _, fun _ _ h => h, fun _ _ h => h⟩

theorem Later.trans (h : w.Later w') (h' : w'.Later w'') : w.Later w'' :=
  ⟨Nat.le_trans h.size h'.size, fun k o hk => h'.made k o (h.made k o hk),
    fun ref c hc => h'.classes ref c (h.classes ref c hc)⟩

theorem Around.later (h : w.Around p E) (hw : w.Later w') : w'.Around p E := by
  induction h with
  | global => exact .global
  | frame hmade ho _ ih => exact .frame (hw.made _ _ hmade) ho ih

/-- The frame at a distance was made for the scope at that distance. -/
theorem Around.at (h : w.Around p E) {d : Nat} {l : Level} (hl : p[d]? = some l) :
    ∃ k o, E[d]? = some k ∧ E.drop d = k :: E.drop (d + 1) ∧ w.made k = some o ∧
      o.opening = l.opening ∧ o.outer = E.drop (d + 1) ∧ w.Around (p.drop (d + 1)) o.outer := by
  induction h generalizing d with
  | global => cases hl
  | @frame _ _ k o hmade ho hE ih =>
      cases d with
      | zero =>
          cases hl
          exact ⟨k, o, rfl, rfl, hmade, ho, rfl, hE⟩
      | succ d => exact ih hl

/-- Which names a scope declares does not matter. -/
theorem Around.head {l l' : Level} (h : w.Around (l :: p) E) (hopening : l.opening = l'.opening) :
    w.Around (l' :: p) E := by
  cases h with
  | frame hmade ho hE => exact .frame hmade (ho.trans hopening) hE

theorem Around.define (h : w.Around p E) (name : String) : w.Around (p.define name) E := by
  cases p with
  | nil => exact h
  | cons l p => exact h.head rfl

theorem Around.declare (h : w.Around p E) (name : String) : w.Around (p.declare name) E := by
  cases p with
  | nil => exact h
  | cons l p => exact h.head rfl

theorem Around.after (h : w.Around p E) (s : Stmt Slot) : w.Around (p.after s) E := by
  rw [Place.after]
  split
  · exact h
  · exact h.define _

end Ledger

/-! ## Closures, classes and values -/

section

variable {programs : List (List (Stmt Slot))} (w : Ledger programs)

/-- The function stands at a place of the programs, in an environment of that place, and
is marked as an initializer if the resolver took it for one. -/
def Closure.Sound (c : Closure) : Prop :=
  ∃ p, Occurs programs p (.function c.declaration) ∧ w.Around p c.env ∧
    (c.isInitializer = true ↔ p.functionKind c.declaration = .initializer)

/-- The closure is a method of the class: it stands in the environment of its declaration,
and the superclass that is bound there is that of the class. -/
structure Closure.MethodOf (c : Closure) (b : Class) : Prop where
  mark : c.isInitializer = (c.declaration.name.lexeme == initializerName)
  placed : ∃ p, Occurs programs (p.enter (.receiver c.declaration)) (.function c.declaration) ∧
    w.Around p c.env ∧
    ∀ l ∈ p.head?, l.opening.isSuperclass = true →
      ∃ k o superclass, c.env.head? = some k ∧ w.made k = some o ∧
        b.superclass? = some superclass ∧ o.held = .cls superclass

def Class.Sound (c : Class) : Prop :=
  ∀ b ∈ c.chain, ∀ name m, b.body.methods.find? name = some (.closure m) →
    m.declaration.name.lexeme = name ∧ m.MethodOf w b

def Value.Sound : Value → Prop
  | .function _ c => c.Sound w
  | .cls c => c.Sound w
  | .nativeMethod _ _ receiver => receiver.Sound
  | .object ref => ∃ c, w.classes ref = some c
  | _ => True

/-- The receiver of a method is an instance of a class that descends from one that owns
the method. -/
def Origin.Sound (o : Origin) : Prop :=
  ∀ f, o.opening = .receiver f →
    ∃ ref c b, o.held = .object ref ∧ w.classes ref = some c ∧ b ∈ c.chain ∧ b.Owns f o.outer

structure Ledger.Sound : Prop where
  positive : 0 < w.size
  bounds : ∀ k o, w.made k = some o → k ≠ 0 ∧ k < w.size
  origins : ∀ k o, w.made k = some o → o.Sound w
  classes : ∀ ref c, w.classes ref = some c → c.Sound w

structure Instance.Sound (i : Instance) : Prop where
  fields : ∀ name v, i.fields.find? name = some v → v.Sound w
  elements : ∀ vs, i.elements = some vs → ∀ v ∈ vs, v.Sound w

/-- The machine is as the ledger says, and what it holds is sound. -/
structure Machine.Sound (m : Machine) : Prop where
  ledger : w.Sound
  size : m.frames.size = w.size
  held : ∀ k o name, w.made k = some o → o.opening.reserved? = some name →
    m.frames.binding? k name = some o.held
  values : ∀ k name v, m.frames.binding? k name = some v → v.Sound w
  classes : ∀ ref, w.classes ref = (m.objects[ref]?).map (·.cls)
  instances : ∀ (ref : Nat) (i : Instance), m.objects[ref]? = some i → i.Sound w
  vectorClass : m.vectorClass.Sound w

end

/-! ## Later ledgers -/

section

variable {programs : List (List (Stmt Slot))} {w w' : Ledger programs}

theorem Closure.Sound.later {c : Closure} (h : c.Sound w) (hw : w.Later w') : c.Sound w' := by
  obtain ⟨p, hoccurs, hp, hmark⟩ := h
  exact ⟨p, hoccurs, hp.later hw, hmark⟩

theorem Closure.MethodOf.later {c : Closure} {b : Class} (h : c.MethodOf w b)
    (hw : w.Later w') : c.MethodOf w' b := by
  obtain ⟨hmark, p, hoccurs, hp, hsuper⟩ := h
  refine ⟨hmark, p, hoccurs, hp.later hw, fun l hl hopening => ?_⟩
  obtain ⟨k, o, superclass, hk, hmade, h⟩ := hsuper l hl hopening
  exact ⟨k, o, superclass, hk, hw.made k o hmade, h⟩

theorem Class.Sound.later {c : Class} (h : c.Sound w) (hw : w.Later w') : c.Sound w' := by
  intro b hb name m hm
  obtain ⟨hname, hmethod⟩ := h b hb name m hm
  exact ⟨hname, hmethod.later hw⟩

theorem Value.Sound.later {v : Value} (h : v.Sound w) (hw : w.Later w') : v.Sound w' := by
  induction v with
  | function id c => exact Closure.Sound.later (c := c) h hw
  | cls c => exact Class.Sound.later (c := c) h hw
  | nativeMethod id n receiver ih => exact ih h
  | object ref =>
      obtain ⟨c, hc⟩ := h
      exact ⟨c, hw.classes ref c hc⟩
  | _ => trivial

theorem Origin.Sound.later {o : Origin} (h : o.Sound w) (hw : w.Later w') : o.Sound w' := by
  intro f hf
  obtain ⟨ref, c, b, hheld, hc, h⟩ := h f hf
  exact ⟨ref, c, b, hheld, hw.classes ref c hc, h⟩

theorem Instance.Sound.later {i : Instance} (h : i.Sound w) (hw : w.Later w') : i.Sound w' :=
  ⟨fun name v hv => (h.fields name v hv).later hw,
    fun vs hvs v hv => (h.elements vs hvs v hv).later hw⟩

/-- A closure that is kept under a name is owned as the method of that name. -/
theorem Class.Sound.owns {b c : Class} (h : c.Sound w) (hb : b ∈ c.chain) {name : String}
    {m : Closure} (hm : b.body.methods.find? name = some (.closure m)) :
    b.Owns m.declaration m.env := by
  obtain ⟨hname, hmethod⟩ := h b hb name m hm
  rw [Class.Owns, ← hmethod.mark, hname]
  exact hm

/-- A class without methods of the program. -/
theorem Class.sound_of_natives {body : ClassBody}
    (h : ∀ name m, body.methods.find? name ≠ some (.closure m)) : (Class.root body).Sound w := by
  intro b hb name m hm
  rw [List.mem_singleton.mp hb] at hm
  exact absurd hm (h name m)

end

end Lox
