import Lox.Proofs.Dispatch.Evaluation
import Lox.Proofs.Scoping.Runs

/-!
# Dispatch is sound

Units that are accepted are run one after the other on one machine. Wherever `this` is
evaluated, in a method, in a block or a function inside of it, and however much later, it
is an instance that descends from the class object that owns the method. `super` begins
at the superclass that this class object was made with, and what it finds is bound to
that instance. Properties are fields first, then methods of the nearest class.
-/

namespace Lox

open Eval

/-- What a class gives a method as one of a receiver: a function in a new frame that binds
`this` to it, inside the environment of the method, or a native method with it. -/
def Method.BoundTo (receiver : Value) (m : Machine) (r : Result Value) : Method → Prop
  | .closure c => ∃ id m', r = .ok (.function id { c with env := m.frames.size :: c.env }) m' ∧
      m'.frames.binding? m.frames.size thisName = some receiver
  | .native f => ∃ id m', r = .ok (.nativeMethod id f receiver) m'

/-- The result of looking a method up that begins at a class: that of the nearest class of
the chain that has one of the name, as a method of the receiver. -/
def Class.GivesMethod (c : Class) (name : Token) (receiver : Value) (m : Machine)
    (r : Result Value) : Prop :=
  match c.chain.findSome? (·.body.methods.find? name.lexeme) with
  | some method => method.BoundTo receiver m r
  | none => r = .abort (.error ⟨.undefinedProperty, name⟩) m

/-- The place is in the method `f`, whose receiver is `d` scopes further out. There `this`
is the instance `i`, which descends from the class object `b` that owns the method. -/
structure Machine.InMethodOf (m : Machine) (p : Place) (d : Nat) (f : FunDecl Slot) (ref : Nat)
    (i : Instance) (b : Class) : Prop where
  innermost : p.InMethod d f
  this : ∀ n keyword, keyword.lexeme = thisName →
    eval (n + 1) (.thisRef keyword (p.scopes.distanceTo? thisName)) m = .ok (.object ref) m
  object : m.objects[ref]? = some i
  owner : b.Owns f (m.env.drop (d + 1))
  descends : b ∈ i.cls.chain

/-- Dispatch is sound while the programs are run from the machine. -/
structure DispatchesSoundly (budget : Nat) (m : Machine) (programs : List (List (Stmt Slot))) :
    Prop where
  /-- `this` is an instance that descends from the owner of the innermost method. -/
  receivers : ∀ a, m.activities budget programs a →
    ∀ n keyword slot, a.budget = n + 1 → a.task = .eval (.thisRef keyword slot) →
      ∃ p d f ref i b, Occurs programs p (.expr (.thisRef keyword slot)) ∧
        Mirrors (fun o E => ∃ b, m.activities budget programs b ∧ b.task = .opens o E) p
          a.machine.env ∧
        a.machine.InMethodOf p d f ref i b ∧
        eval (n + 1) (.thisRef keyword slot) a.machine = .ok (.object ref) a.machine
  /-- `super` begins at the superclass of that owner. -/
  superclasses : ∀ a, m.activities budget programs a →
    ∀ n keyword method slot, a.budget = n + 1 → a.task = .eval (.superRef keyword method slot) →
      ∃ p d f ref i b s, Occurs programs p (.expr (.superRef keyword method slot)) ∧
        Mirrors (fun o E => ∃ b, m.activities budget programs b ∧ b.task = .opens o E) p
          a.machine.env ∧
        a.machine.InMethodOf p d f ref i b ∧ b.superclass? = some s ∧ s ≠ i.cls ∧
        s.GivesMethod method (.object ref) a.machine
          (eval (n + 1) (.superRef keyword method slot) a.machine)
  /-- Properties of instances are their fields, else methods of their classes. -/
  properties : ∀ a, m.activities budget programs a →
    ∀ n object name, a.budget = n + 1 → a.task = .eval (.get object name) →
      ∀ ref m', eval n object a.machine = .ok (.object ref) m' →
        ∃ i, m'.objects[ref]? = some i ∧
          match i.fields.find? name.lexeme with
          | some field => eval (n + 1) (.get object name) a.machine = .ok field m'
          | none => i.cls.GivesMethod name (.object ref) m'
              (eval (n + 1) (.get object name) a.machine)

/-! ## Machines on which nothing has run -/

section

variable {programs : List (List (Stmt Slot))} {w : Ledger programs} {m : Machine}

/-- Nothing is known before anything has run. -/
def Ledger.start (programs : List (List (Stmt Slot))) : Ledger programs where
  size := 1
  made _ := none
  classes _ := none

theorem makeVectorClass_sound (methods : List ((String × String) × Native)) :
    (NativeTable.makeVectorClass methods).Sound w := by
  refine Class.sound_of_natives fun name m hm => ?_
  obtain ⟨⟨_, _⟩, _, heq⟩ := List.mem_map.mp (Bindings.mem_of_find? hm)
  cases heq

theorem start_sound {natives : NativeTable} (hnatives : natives.HasNativeVectors)
    (readings : Nat → Float) :
    (Machine.start natives readings).Sound (Ledger.start programs) := by
  obtain ⟨methods, hvectors⟩ := hnatives
  have hvector : natives.vectorClass.Sound (Ledger.start programs) := by
    rw [hvectors]
    exact makeVectorClass_sound methods
  refine ⟨⟨Nat.one_pos, (fun _ _ h => by cases h), (fun _ _ h => by cases h),
    fun _ _ h => by cases h⟩, rfl, (fun _ _ _ h => by cases h), fun k name v hv => ?_,
    fun _ => rfl, (fun _ _ h => by cases h), hvector⟩
  cases k with
  | zero =>
      rcases List.mem_append.mp (Machine.mem_globals hv) with hmem | hmem
      · obtain ⟨_, _, heq⟩ := List.mem_map.mp hmem
        cases heq
        trivial
      · cases List.mem_singleton.mp hmem
        exact hvector
  | succ k => cases hv

theorem Machine.Sound.fresh (h : m.Sound w) : m.fresh.Sound w :=
  ⟨h.ledger, h.size, h.held, h.values, h.classes, h.instances, h.vectorClass⟩

/-! ## Units one after the other -/

variable (haccepted : ∀ program ∈ programs, Accepted program)
include haccepted

theorem interpretWith_sound (budget : Nat) (hm : m.Sound w) (henv : m.env = globalEnv)
    {program : List (Stmt Slot)} (hprogram : program ∈ programs) :
    ∃ w', w.Later w' ∧ (m.interpretWith budget program).2.Sound w' ∧
      (m.interpretWith budget program).2.env = globalEnv ∧
      ∀ a, Eval.visits budget (.unit program) m.fresh a → a.Sound w' := by
  have hplace : w.Around [] m.fresh.env := (show m.fresh.env = globalEnv from henv) ▸ .global
  obtain ⟨w', hw, hm', henv', _, hvisits⟩ :=
    ((leading haccepted).holds budget).execUnit hm.fresh ⟨.program hprogram, hplace⟩
  rw [Machine.interpretWith_machine]
  exact ⟨w', hw, hm', henv'.trans henv, hvisits⟩

theorem runAll_sound (budget : Nat) (hm : m.Sound w) (henv : m.env = globalEnv)
    {rest : List (List (Stmt Slot))} (hrest : ∀ program ∈ rest, program ∈ programs) :
    ∃ w', w.Later w' ∧ (m.runAll budget rest).2.Sound w' ∧
      ∀ a, m.activities budget rest a → a.Sound w' := by
  induction rest generalizing w m with
  | nil => exact ⟨w, .refl w, hm, fun _ h => h.elim⟩
  | cons program rest ih =>
      obtain ⟨w₁, hw₁, hm₁, henv₁, hvisits⟩ :=
        interpretWith_sound haccepted budget hm henv (hrest program List.mem_cons_self)
      obtain ⟨w₂, hw₂, hm₂, hactivities⟩ :=
        ih hm₁ henv₁ fun p hp => hrest p (List.mem_cons_of_mem program hp)
      refine ⟨w₂, hw₁.trans hw₂, hm₂, fun a ha => ?_⟩
      rcases ha with ha | ha
      · exact (hvisits a ha).later hw₂
      · exact hactivities a ha

end

/-! ## Moments of a run -/

section

variable {programs : List (List (Stmt Slot))} {w : Ledger programs} {m : Machine}

/-- An environment that belongs to a place mirrors it, if the frames were announced. -/
theorem Ledger.Around.mirrors {visits : Activity → Prop} (hvisits : ∀ a, visits a → a.Sound w)
    (hannounced : ∀ k, k ≠ 0 → k < w.size → ∃ a o E, visits a ∧ a.task = .opens o (k :: E))
    (hw : w.Sound) {p : Place} {E : Env} (h : w.Around p E) :
    Mirrors (fun o E => ∃ a, visits a ∧ a.task = .opens o E) p E := by
  induction h with
  | global => exact .global
  | @frame l p k o hmade ho _ ih =>
      obtain ⟨hk, hlt⟩ := hw.bounds k o hmade
      obtain ⟨a, o', E', ha, htask⟩ := hannounced k hk hlt
      obtain ⟨w₁, hw₁, _, htasks⟩ := hvisits a ha
      rw [htask] at htasks
      obtain ⟨k', origin, heq, hmade', hopening⟩ := htasks
      cases heq
      have hlater := hw₁.made _ _ hmade'
      rw [hmade] at hlater
      cases hlater
      refine .frame ⟨a, ha, ?_⟩ hk ih
      rw [htask, ← ho, hopening]

/-- Where the environment belongs to a place in a method. -/
theorem Machine.Sound.inMethodOf (hm : m.Sound w) {p : Place} {d : Nat} {f : FunDecl Slot}
    (hin : p.InMethod d f) (hdistance : p.scopes.distanceTo? thisName = some d)
    {ref : Nat} {c b : Class} (hthis : m.frames.getAt m.env d thisName = .ok (.object ref))
    (hc : w.classes ref = some c) (hb : b ∈ c.chain) (howns : b.Owns f (m.env.drop (d + 1))) :
    ∃ i, i.cls = c ∧ m.InMethodOf p d f ref i b := by
  obtain ⟨i, hi, _, _, hcls⟩ := hm.instance_of_object ⟨c, hc⟩
  rw [hc] at hcls
  cases hcls
  refine ⟨i, rfl, hin, fun n keyword hkeyword => ?_, hi, howns, hb⟩
  rw [eval, Comparison.lookUp_eq, hkeyword, hdistance, Frames.seek, hthis]
  rfl

theorem bindMethod_boundTo (method : Method) (v : Value) (m : Machine) :
    method.BoundTo v m (bindMethod method v m) := by
  cases method with
  | native f => exact ⟨_, _, rfl⟩
  | closure c =>
      refine ⟨_, _, rfl, ?_⟩
      have hsize : m.frames.size < (m.frames.enter ("bound " ++ c.name) c.env).2.size := by
        rw [Frames.size_enter]
        exact Nat.lt_succ_self _
      exact (Frames.binding?_bind _ hsize _ _ _ _).trans (if_pos ⟨rfl, rfl⟩)

/-- Looking a method up, as `super` and properties do. -/
theorem Class.givesMethod (c : Class) (name : Token) (v : Value) (m : Machine) :
    c.GivesMethod name v m (match c.findMethod? name.lexeme with
      | some method => bindMethod method v m
      | none => error .undefinedProperty name m) := by
  rw [GivesMethod, findMethod?_eq]
  split
  · next method hfound => exact bindMethod_boundTo method v m
  · rfl

/-- A superclass has fewer ancestors. -/
theorem Class.chain_length_le {b c : Class} (h : b ∈ c.chain) :
    b.chain.length ≤ c.chain.length := by
  induction c with
  | root body => exact Nat.le_of_eq (congrArg (·.chain.length) (List.mem_singleton.mp h))
  | derived body superclass ih =>
      rcases List.mem_cons.mp h with rfl | h
      · exact Nat.le_refl _
      · exact Nat.le_succ_of_le (ih h)

theorem Class.superclass_ne {b c s : Class} (h : b ∈ c.chain) (hs : b.superclass? = some s) :
    s ≠ c := by
  rintro rfl
  have hle := chain_length_le h
  cases b with
  | root body => cases hs
  | derived body superclass =>
      cases hs
      exact absurd hle (Nat.not_succ_le_self _)

/-! ## References in sound machines -/

variable (haccepted : ∀ program ∈ programs, Accepted program) {p : Place} (n : Nat)
include haccepted

theorem thisRef_sound {keyword : Token} {slot : Slot} (hm : m.Sound w) (hp : w.Around p m.env)
    (h : Occurs programs p (.expr (.thisRef keyword slot))) :
    ∃ d f ref i b, m.InMethodOf p d f ref i b ∧
      eval (n + 1) (.thisRef keyword slot) m = .ok (.object ref) m := by
  obtain ⟨hkeyword, d, f, rfl, hin⟩ := h.thisRef haccepted
  have hdistance := hin.distance_this (h.reserved haccepted)
  obtain ⟨ref, c, b, hthis, hc, hb, howns⟩ := hm.receiver hp hin
  obtain ⟨i, _, hmethod⟩ := hm.inMethodOf hin hdistance hthis hc hb howns
  exact ⟨d, f, ref, i, b, hmethod, hdistance ▸ hmethod.this n keyword hkeyword⟩

theorem superRef_sound {keyword method : Token} {slot : Slot} (hm : m.Sound w)
    (hp : w.Around p m.env) (h : Occurs programs p (.expr (.superRef keyword method slot))) :
    ∃ d f ref i b s, m.InMethodOf p d f ref i b ∧ b.superclass? = some s ∧ s ≠ i.cls ∧
      s.GivesMethod method (.object ref) m (eval (n + 1) (.superRef keyword method slot) m) := by
  obtain ⟨d, f, l, t, rfl, hin, hdistance, hl, ht⟩ := h.superRef haccepted
  obtain ⟨ref, c, b, s, hthis, hc, hb, howns, hs, _, heq⟩ := hm.superMethod hp hin hl ht method
  obtain ⟨i, rfl, hmethod⟩ := hm.inMethodOf hin hdistance hthis hc hb howns
  refine ⟨d, f, ref, i, b, s, hmethod, hs, Class.superclass_ne hb hs, ?_⟩
  rw [eval, heq]
  exact s.givesMethod method (.object ref) m

theorem get_sound {object : Expr Slot} {name : Token} (hm : m.Sound w) (hp : w.Around p m.env)
    (h : Occurs programs p (.expr (.get object name))) {ref : Nat} {m' : Machine}
    (hobject : eval n object m = .ok (.object ref) m') :
    ∃ i, m'.objects[ref]? = some i ∧
      match i.fields.find? name.lexeme with
      | some field => eval (n + 1) (.get object name) m = .ok field m'
      | none => i.cls.GivesMethod name (.object ref) m' (eval (n + 1) (.get object name) m) := by
  obtain ⟨w₁, _, hm₁, _, hvalue, _⟩ :=
    ((leading haccepted).holds n).eval hm ⟨p, h.part List.mem_cons_self, hp⟩
  have hm' : m'.Sound w₁ := by
    rw [hobject] at hm₁
    exact hm₁
  obtain ⟨i, hi, _⟩ := hm'.instance_of_object (hvalue _ m' hobject)
  have heval : eval (n + 1) (.get object name) m = match i.fields.find? name.lexeme with
      | some field => .ok field m'
      | none =>
        match i.cls.findMethod? name.lexeme with
        | some method => bindMethod method (.object ref) m'
        | none => error .undefinedProperty name m' := by
    have hget := Comparison.getProperty_object ref name m'
    rw [hi] at hget
    rw [eval, bind_apply, hobject]
    exact hget
  refine ⟨i, hi, ?_⟩
  rw [heval]
  cases i.fields.find? name.lexeme with
  | some field => rfl
  | none => exact i.cls.givesMethod name (.object ref) m'

end

/-- All activities of accepted units are sound, and the environments that belong to places
mirror them. -/
theorem units_sound {natives : NativeTable} (hnatives : natives.HasNativeVectors)
    (readings : Nat → Float) (budget : Nat) (units : List SourceUnit)
    (haccepted : ∀ u ∈ units, u.Accepted) :
    (∀ program ∈ units.map (·.reading.program), Accepted program) ∧
      ∃ w : Ledger (units.map (·.reading.program)),
        (∀ a, (Machine.start natives readings).activities budget (units.map (·.reading.program)) a →
          a.Sound w) ∧
        ∀ p E, w.Around p E → Mirrors (fun o E => ∃ b, (Machine.start natives readings).activities
          budget (units.map (·.reading.program)) b ∧ b.task = .opens o E) p E := by
  have hprograms : ∀ program ∈ units.map (·.reading.program), Accepted program := by
    intro program hprogram
    obtain ⟨u, hu, rfl⟩ := List.mem_map.mp hprogram
    exact UnitReading.ofSource_accepted (haccepted u hu).1 (haccepted u hu).2
  obtain ⟨w, _, hend, hactivities⟩ := runAll_sound hprograms budget (start_sound hnatives readings)
    rfl fun _ hp => hp
  obtain ⟨_, hfollowed⟩ := start_followed hprograms hnatives readings budget
  refine ⟨hprograms, w, hactivities, fun p E hp => ?_⟩
  refine hp.mirrors hactivities (fun k hk hlt => ?_) hend.ledger
  exact hfollowed.announced k (Nat.pos_of_ne_zero hk) (hend.size ▸ hlt)

/-- Units that lexer, parser and resolver accept, run one after the other, dispatch
soundly. -/
theorem units_dispatchSoundly {natives : NativeTable} (hnatives : natives.HasNativeVectors)
    (readings : Nat → Float) (budget : Nat) (units : List SourceUnit)
    (haccepted : ∀ u ∈ units, u.Accepted) :
    DispatchesSoundly budget (Machine.start natives readings) (units.map (·.reading.program)) := by
  obtain ⟨hprograms, w, hactivities, hmirrors⟩ :=
    units_sound hnatives readings budget units haccepted
  have hplace : ∀ a, (Machine.start natives readings).activities budget
      (units.map (·.reading.program)) a → ∀ e, a.task = .eval e →
      ∃ (w₀ : Ledger (units.map (·.reading.program))) (p : Place),
        a.machine.Sound w₀ ∧ w₀.Around p a.machine.env ∧
        Occurs (units.map (·.reading.program)) p (.expr e) ∧
        Mirrors (fun o E => ∃ b, (Machine.start natives readings).activities budget
          (units.map (·.reading.program)) b ∧ b.task = .opens o E) p a.machine.env := by
    intro a ha e htask
    obtain ⟨w₀, hw, hm, hsound⟩ := hactivities a ha
    rw [htask] at hsound
    obtain ⟨p, hoccurs, hp⟩ := hsound
    exact ⟨w₀, p, hm, hp, hoccurs, hmirrors p _ (hp.later hw)⟩
  refine ⟨?_, ?_, ?_⟩
  · intro a ha n keyword slot _ htask
    obtain ⟨w₀, p, hm, hp, hoccurs, hmirrors⟩ := hplace a ha _ htask
    obtain ⟨d, f, ref, i, b, hmethod, heval⟩ := thisRef_sound hprograms n hm hp hoccurs
    exact ⟨p, d, f, ref, i, b, hoccurs, hmirrors, hmethod, heval⟩
  · intro a ha n keyword method slot _ htask
    obtain ⟨w₀, p, hm, hp, hoccurs, hmirrors⟩ := hplace a ha _ htask
    obtain ⟨d, f, ref, i, b, s, hmethod, hs, hne, hgives⟩ :=
      superRef_sound hprograms n hm hp hoccurs
    exact ⟨p, d, f, ref, i, b, s, hoccurs, hmirrors, hmethod, hs, hne, hgives⟩
  · intro a ha n object name _ htask ref m' hobject
    obtain ⟨w₀, p, hm, hp, hoccurs, _⟩ := hplace a ha _ htask
    exact get_sound hprograms n hm hp hoccurs hobject

/-- A method that calls that of the superclass, and one whose receiver outlives its call. -/
def dispatchUnits : List SourceUnit :=
  [{ importer := ⟨⟨[], false⟩, {}⟩
     limit := .count 20
     source :=
      "class A \x7b m() \x7b fun get() \x7b return this; \x7d return get; \x7d \x7d\n" ++
      "class B < A \x7b m() \x7b return super.m(); \x7d \x7d\n" ++
      "class C < B \x7b \x7d\n" },
   { importer := ⟨⟨[], false⟩, {}⟩
     limit := .count 20
     source := "var get = C().m; print get()();" }]

theorem units_dispatchSoundly_closures :
    (∀ u ∈ dispatchUnits, u.Accepted) ∧
      DispatchesSoundly 100 (Machine.start NativeTable.standard fun _ => 0)
        (dispatchUnits.map (·.reading.program)) := by
  have haccepted : ∀ u ∈ dispatchUnits, u.Accepted :=
    SourceUnit.accepted_of_all (by decide +kernel)
  exact ⟨haccepted, units_dispatchSoundly ⟨_, rfl⟩ (fun _ => 0) 100 dispatchUnits haccepted⟩

end Lox
