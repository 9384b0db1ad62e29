import Lox.Proofs.Dispatch.Runs
import Lox.Proofs.Returns.Completions

/-!
# Returns are disciplined

Units that are accepted are run one after the other on one machine. No statement outside
of functions returns, and initializers return nil only. A function is marked as an
initializer exactly if the resolver took it for one; its call gives the receiver. The
call of a class gives the new instance. Every other call gives what the first `return` in
the body gave, which is the last thing that the body did, or nil if there was none.
-/

namespace Lox

open Eval

/-- The resolver went through the function at the place, and the function is marked as an
initializer if and only if the resolver took it for one there. -/
structure Closure.MarkedAt (programs : List (List (Stmt Slot))) (c : Closure) (p : Place) :
    Prop where
  occurs : Occurs programs p (.function c.declaration)
  resolved : Fragment.Surrounded p (.function c.declaration)
  mark : c.isInitializer = true ↔ p.functionKind c.declaration = .initializer

/-- All functions of the value are marked as the resolver took them, at the places that
their environments mirror. -/
def Value.Marked (programs : List (List (Stmt Slot))) (opened : Opening → Env → Prop) :
    Value → Prop
  | .function _ c => ∃ p, c.MarkedAt programs p ∧ Mirrors opened p c.env
  | .cls c => ∀ b ∈ c.chain, ∀ name f, b.body.methods.find? name = some (.closure f) →
      ∃ p, f.MarkedAt programs (p.enter (.receiver f.declaration)) ∧ Mirrors opened p f.env
  | _ => True

/-- A variable, a field or an element of a vector has the value. -/
def Machine.Holds (m : Machine) (v : Value) : Prop :=
  (∃ k name, m.frames.binding? k name = some v) ∨
    ∃ (ref : Nat) (i : Instance), m.objects[ref]? = some i ∧
      ((∃ name, i.fields.find? name = some v) ∨ ∃ vs, i.elements = some vs ∧ v ∈ vs)

/-- The function is a method of the instance `ref`, which is bound to `this` in it. -/
def Machine.Receives (m : Machine) (c : Closure) (ref : Nat) : Prop :=
  m.frames.getAt c.env 0 thisName = .ok (.object ref) ∧
    ∃ i b, m.objects[ref]? = some i ∧ b ∈ i.cls.chain ∧ b.Owns c.declaration (c.env.drop 1)

/-- Returns are disciplined while the programs are run from the machine. -/
structure DisciplinesReturns (budget : Nat) (m : Machine) (programs : List (List (Stmt Slot))) :
    Prop where
  /-- Statements of a unit do not return. -/
  topLevel : ∀ a, m.activities budget programs a →
    ∀ n s rest, a.budget = n + 1 → a.task = .unit (s :: rest) →
      ∀ v m', exec n s a.machine ≠ .ok (.returned v) m'
  /-- Resolver and interpreter agree on what is an initializer. -/
  marks : ∀ a, m.activities budget programs a →
    ∀ v, (a.machine.Holds v ∨ ∃ vs, a.task = .call v vs) →
      v.Marked programs fun o E => ∃ b, m.activities budget programs b ∧ b.task = .opens o E
  /-- Initializers return nil only, and calling one gives its instance. -/
  initializers : ∀ a, m.activities budget programs a →
    ∀ n id c vs, a.budget = n + 1 → a.task = .call (.function id c) vs →
      c.isInitializer = true → ∃ ref, a.machine.Receives c ref ∧
        (∀ E m₁ v m₂, callEnv c vs a.machine = .ok E m₁ →
          execAll n c.declaration.body { m₁ with env := E } = .ok (.returned v) m₂ → v = .nil) ∧
        ∀ v m', Eval.call (n + 1) (.function id c) vs a.machine = .ok v m' → v = .object ref
  /-- Calling a class gives a new instance of it. -/
  classes : ∀ a, m.activities budget programs a →
    ∀ c vs, a.task = .call (.cls c) vs →
      ∀ v m', Eval.call a.budget (.cls c) vs a.machine = .ok v m' →
        v = .object a.machine.objects.size ∧
          ∃ i, m'.objects[a.machine.objects.size]? = some i ∧ i.cls = c
  /-- Calling another function gives the value of the first `return` in its body, after
  which nothing is done, or nil without one. -/
  functions : ∀ a, m.activities budget programs a →
    ∀ n id c vs, a.budget = n + 1 → a.task = .call (.function id c) vs →
      c.isInitializer = false →
      ∀ v m', Eval.call (n + 1) (.function id c) vs a.machine = .ok v m' →
        ∃ (E : Env) (m₁ : Machine) (k : Completion),
          callEnv c vs a.machine = .ok E m₁ ∧ v = k.value ∧
          (∀ b, b ∈ steps n (.execAll c.declaration.body) { m₁ with env := E } ↔
            ownVisits n (.execAll c.declaration.body) { m₁ with env := E } b) ∧
          k.Ends (steps n (.execAll c.declaration.body) { m₁ with env := E }) m'

/-! ## Calls that succeed -/

theorem callValue_ok {c : Closure} {k : Completion} {m m' : Machine} {v : Value}
    (h : callValue c k m = .ok v m') :
    m' = m ∧ (c.isInitializer = true → m.frames.getAt c.env 0 thisName = .ok v) ∧
      (c.isInitializer = false → v = k.value) := by
  rw [callValue] at h
  split at h
  · next hc =>
      rw [getAt] at h
      split at h
      · next u hu =>
          cases h
          exact ⟨rfl, fun _ => hu, fun hf => by rw [hf] at hc; cases hc⟩
      · cases h
  · next hc =>
      cases h
      exact ⟨rfl, fun ht => absurd ht hc, fun _ => rfl⟩

/-- A call of a function makes its frame, runs its body and takes the value. -/
theorem call_function_ok {n id : Nat} {c : Closure} {vs : List Value} {m m' : Machine} {v : Value}
    (h : Eval.call (n + 1) (.function id c) vs m = .ok v m') :
    ∃ E m₁ k m₂, callEnv c vs m = .ok E m₁ ∧
      execAll n c.declaration.body { m₁ with env := E } = .ok k m₂ ∧
      callValue c k { m₂ with env := m₁.env } = .ok v m' := by
  rw [Eval.call, bind_apply] at h
  cases hE : callEnv c vs m with
  | abort r m₁ =>
      rw [hE] at h
      cases h
  | ok E m₁ =>
      rw [hE] at h
      dsimp only at h
      rw [bind_apply, Eval.within] at h
      cases hk : execAll n c.declaration.body { m₁ with env := E } with
      | abort r m₂ =>
          simp only [hk] at h
          cases h
      | ok k m₂ =>
          simp only [hk] at h
          exact ⟨E, m₁, k, m₂, rfl, hk, h⟩

/-- The call of a function gives what the first `return` in its body does. -/
theorem call_function_ends {n id : Nat} {c : Closure} {vs : List Value} {m m' : Machine}
    {v : Value} (hc : c.isInitializer = false)
    (h : Eval.call (n + 1) (.function id c) vs m = .ok v m') :
    ∃ (E : Env) (m₁ : Machine) (k : Completion), callEnv c vs m = .ok E m₁ ∧ v = k.value ∧
      k.Ends (steps n (.execAll c.declaration.body) { m₁ with env := E }) m' := by
  obtain ⟨E, m₁, k, m₂, hE, hk, hv⟩ := call_function_ok h
  obtain ⟨rfl, _, hvalue⟩ := callValue_ok hv
  have hends := (statementsFollow n).execAll c.declaration.body _ k m₂ hk
  exact ⟨E, m₁, k, hE, hvalue hc, hends.at_env m₁.env⟩

/-! ## Sound machines -/

section

variable {programs : List (List (Stmt Slot))} {w : Ledger programs} {m : Machine}
  (haccepted : ∀ program ∈ programs, Accepted program)

/-- What a sound machine holds is sound. -/
theorem Machine.Sound.holds (hm : m.Sound w) {v : Value} (hv : m.Holds v) : v.Sound w := by
  rcases hv with ⟨k, name, hv⟩ | ⟨ref, i, hi, ⟨name, hv⟩ | ⟨vs, hvs, hv⟩⟩
  · exact hm.values k name v hv
  · exact (hm.instances ref i hi).fields name v hv
  · exact (hm.instances ref i hi).elements vs hvs v hv

/-- The receiver of a method stays what it is. -/
theorem Machine.Sound.getAt_receiver (hm : m.Sound w) {w' : Ledger programs} {m' : Machine}
    (hm' : m'.Sound w') (hw : w.Later w') {p : Place} {E : Env} (hp : w.Around p E) {d : Nat}
    {f : FunDecl Slot} (hin : p.InMethod d f) :
    m'.frames.getAt E d thisName = m.frames.getAt E d thisName := by
  obtain ⟨l, hl, hopening⟩ := hin.level
  obtain ⟨k, o, hk, _, hmade, ho, _⟩ := hp.at hl
  have hname : o.opening.reserved? = some thisName := by rw [ho, hopening]; rfl
  rw [Frames.getAt_eq_ok hk (hm.held k o thisName hmade hname),
    Frames.getAt_eq_ok hk (hm'.held k o thisName (hw.made k o hmade) hname)]

include haccepted

theorem Value.Sound.marked {opened : Opening → Env → Prop} {v : Value} (hv : v.Sound w)
    (hmirrors : ∀ p E, w.Around p E → Mirrors opened p E) : v.Marked programs opened := by
  cases v with
  | function id c =>
      obtain ⟨p, hoccurs, hp, hmark⟩ := hv
      exact ⟨p, ⟨hoccurs, hoccurs.surrounded haccepted, hmark⟩, hmirrors p c.env hp⟩
  | cls c =>
      intro b hb name f hf
      obtain ⟨_, hmethod⟩ := hv b hb name f hf
      obtain ⟨p, hoccurs, hp, _⟩ := hmethod.placed
      exact ⟨p, ⟨hoccurs, hoccurs.surrounded haccepted, hmethod.isInitializer_iff p⟩,
        hmirrors p f.env hp⟩
  | _ => trivial

/-- An initializer is a method, and stands in the scope of its receiver. -/
theorem Occurs.initializer {p : Place} {f : FunDecl Slot} (h : Occurs programs p (.function f))
    (hkind : p.functionKind f = .initializer) : p.InMethod 0 f := by
  obtain ⟨hp | ⟨s, q, rfl⟩, _⟩ := h.surrounded haccepted
  · rw [hp.functionKind] at hkind
    cases hkind
  · exact .here rfl

/-- Statements outside of functions do not return. -/
theorem exec_topLevel {n : Nat} {s : Stmt Slot} (h : Occurs programs [] (.stmt s)) (v : Value)
    (m' : Machine) : exec n s m ≠ .ok (.returned v) m' := by
  intro hreturned
  have hends := (statementsFollow n).exec s m _ m' hreturned
  exact (hends.returned haccepted ((statementsStand programs n).exec h m)).1 rfl

/-- What the body of an initializer returns is nil. -/
theorem execAll_initializer {n : Nat} {p : Place} {f : FunDecl Slot}
    (h : Occurs programs p (.function f)) (hkind : p.functionKind f = .initializer) {v : Value}
    {m' : Machine} (hreturned : execAll n f.body m = .ok (.returned v) m') : v = .nil := by
  have hbody : Occurs programs (p.enter (.call f)) (.body f.body) := h.inside List.mem_cons_self
  have hends := (statementsFollow n).execAll f.body m _ m' hreturned
  exact (hends.returned haccepted ((statementsStand programs n).execAll hbody m)).2 hkind

/-- The call of an initializer gives the receiver. -/
theorem call_initializer {n id : Nat} {c : Closure} {vs : List Value} (hm : m.Sound w)
    (hc : (Value.function id c).Sound w) (hvs : ∀ u ∈ vs, u.Sound w)
    (hinitializer : c.isInitializer = true) :
    ∃ ref, m.Receives c ref ∧
      ∀ v m', Eval.call (n + 1) (.function id c) vs m = .ok v m' → v = .object ref := by
  obtain ⟨p, hoccurs, hp, hmark⟩ := hc
  have hin := hoccurs.initializer haccepted (hmark.mp hinitializer)
  obtain ⟨ref, d, b, hthis, hd, hb, howns⟩ := hm.receiver hp hin
  obtain ⟨i, hi, _, _, hcls⟩ := hm.instance_of_object ⟨d, hd⟩
  rw [hd] at hcls
  cases hcls
  refine ⟨ref, ⟨hthis, i, b, hi, hb, howns⟩, fun v m' hcall => ?_⟩
  obtain ⟨w', hw, hm', _⟩ := ((leading haccepted).holds (n + 1)).call (f := .function id c) hm
    ⟨⟨p, hoccurs, hp, hmark⟩, hvs⟩
  rw [hcall] at hm'
  -- `this` is read after the body has run, from a frame that keeps its receiver
  obtain ⟨E, m₁, k, m₂, _, _, hvalue⟩ := call_function_ok hcall
  obtain ⟨rfl, hgiven, _⟩ := callValue_ok hvalue
  have hlater := hm.getAt_receiver hm' hw hp hin
  rw [hthis] at hlater
  cases (hgiven hinitializer).symm.trans hlater
  rfl

/-- The call of a class gives a new instance of it. -/
theorem call_class {n : Nat} {c : Class} {vs : List Value} (hm : m.Sound w) (hc : c.Sound w)
    (hvs : ∀ u ∈ vs, u.Sound w) {v : Value} {m' : Machine}
    (h : Eval.call n (.cls c) vs m = .ok v m') :
    v = .object m.objects.size ∧ ∃ i, m'.objects[m.objects.size]? = some i ∧ i.cls = c := by
  cases n with
  | zero =>
      rw [Eval.call] at h
      cases h
  | succ n =>
      obtain ⟨w', _, hm', _, hvalue, _⟩ := leads_construct
        (fun hm hf hvs => ((leading haccepted).holds n).call hm ⟨hf, hvs⟩) hm hc hvs
      rw [h] at hm'
      obtain ⟨hv, hclass⟩ := hvalue v m' h
      obtain ⟨i, hi, _, _, hcls⟩ := hm'.instance_of_object ⟨c, hclass⟩
      rw [hclass] at hcls
      cases hcls
      exact ⟨hv, i, hi, rfl⟩

end

/-- Units that lexer, parser and resolver accept, run one after the other, keep to the
discipline. -/
theorem units_disciplineReturns {natives : NativeTable} (hnatives : natives.HasNativeVectors)
    (readings : Nat → Float) (budget : Nat) (units : List SourceUnit)
    (haccepted : ∀ u ∈ units, u.Accepted) :
    DisciplinesReturns budget (Machine.start natives readings) (units.map (·.reading.program)) := by
  obtain ⟨hprograms, w, hactivities, hmirrors⟩ :=
    units_sound hnatives readings budget units haccepted
  refine ⟨?_, ?_, ?_, ?_, ?_⟩
  · intro a ha n s rest _ htask
    obtain ⟨w₀, _, _, hsound⟩ := hactivities a ha
    rw [htask] at hsound
    exact exec_topLevel hprograms (hsound.1.inside List.mem_cons_self)
  · intro a ha v hv
    obtain ⟨w₀, hw, hm, hsound⟩ := hactivities a ha
    have hv₀ : v.Sound w₀ := by
      rcases hv with hv | ⟨vs, htask⟩
      · exact hm.holds hv
      · rw [htask] at hsound
        exact hsound.1
    exact (hv₀.later hw).marked hprograms hmirrors
  · intro a ha n id c vs _ htask hinitializer
    obtain ⟨w₀, _, hm, hsound⟩ := hactivities a ha
    rw [htask] at hsound
    obtain ⟨hc, hvs⟩ := hsound
    obtain ⟨ref, hreceives, hcall⟩ := call_initializer hprograms (n := n) hm hc hvs hinitializer
    obtain ⟨p, hoccurs, _, hmark⟩ := hc
    refine ⟨ref, hreceives, fun E m₁ v m₂ _ hreturned => ?_, hcall⟩
    exact execAll_initializer hprograms hoccurs (hmark.mp hinitializer) hreturned
  · intro a ha c vs htask v m' hcall
    obtain ⟨w₀, _, hm, hsound⟩ := hactivities a ha
    rw [htask] at hsound
    exact call_class hprograms hm hsound.1 hsound.2 hcall
  · intro a _ n id c vs _ _ hfunction v m' hcall
    obtain ⟨E, m₁, k, hE, hv, hends⟩ := call_function_ends hfunction hcall
    exact ⟨E, m₁, k, hE, hv, fun b => lists_steps n _ _ b, hends⟩

/-- An initializer that returns early and is inherited, a function in it of the same name,
and a `return` in a block of a loop. -/
def returnUnits : List SourceUnit :=
  [{ importer := ⟨⟨[], false⟩, {}⟩
     limit := .count 20
     source :=
      "class A \x7b init() \x7b fun init() \x7b return 1; \x7d " ++
      "this.n = init(); return; \x7d \x7d\n" ++
      "class B < A \x7b init() \x7b super.init(); return; \x7d \x7d\n" },
   { importer := ⟨⟨[], false⟩, {}⟩
     limit := .count 20
     source := "fun f() \x7b while (true) \x7b return B(); \x7d \x7d print f().init();" }]

theorem units_disciplineReturns_initializers :
    (∀ u ∈ returnUnits, u.Accepted) ∧
      DisciplinesReturns 100 (Machine.start NativeTable.standard fun _ => 0)
        (returnUnits.map (·.reading.program)) := by
  have haccepted : ∀ u ∈ returnUnits, u.Accepted :=
    SourceUnit.accepted_of_all (by decide +kernel)
  exact ⟨haccepted, units_disciplineReturns ⟨_, rfl⟩ (fun _ => 0) 100 returnUnits haccepted⟩

end Lox
