import Lox.Proofs.Scoping.Agreement
import Lox.Proofs.Simulation.Units

/-!
# Runs of accepted units follow their scopes

Units are run one after the other on one machine, so closures and methods that one
of them makes are still there for the next. What holds at the moments of all of
them: the current environment has a frame for each scope around whatever is
evaluated, made for that scope and no other.
-/

namespace Lox

/-- A unit as it is given to the interpreter. -/
structure SourceUnit where
  importer : Importer
  limit : ErrorLimit
  name : Option String := none
  typed : Bool := false
  source : String

namespace SourceUnit

def reading (u : SourceUnit) : UnitReading :=
  UnitReading.ofSource u.importer u.limit u.name u.typed u.source

/-- Scanning, parsing and resolution find nothing wrong with the unit. -/
def Accepted (u : SourceUnit) : Prop :=
  u.reading.faults = [] ∧ u.reading.halt = none

/-- Units can be tested all at once. -/
theorem accepted_of_all {units : List SourceUnit}
    (h : units.all (fun u => u.reading.faults.isEmpty && u.reading.halt.isNone) = true) :
    ∀ u ∈ units, u.Accepted := by
  intro u hu
  have hfound := List.all_eq_true.mp h u hu
  rw [Bool.and_eq_true] at hfound
  exact ⟨List.isEmpty_iff.mp hfound.1, Option.isNone_iff_eq_none.mp hfound.2⟩

end SourceUnit

namespace Machine

/-- Runs programs one after the other. How each ended, and the machine after them. -/
def runAll (budget : Nat) (m : Machine) : List (List (Stmt Slot)) → List UnitEnd × Machine
  | [] => ([], m)
  | program :: rest =>
    let (finish, m) := m.interpretWith budget program
    let (ends, m) := m.runAll budget rest
    (finish :: ends, m)

/-- What happens while programs are run one after the other. -/
def activities (budget : Nat) (m : Machine) : List (List (Stmt Slot)) → Activity → Prop
  | [], _ => False
  | program :: rest, a =>
    Eval.visits budget (.unit program) m.fresh a ∨
      (m.interpretWith budget program).2.activities budget rest a

end Machine

/-- The kind, the token and the slot of an expression that is a reference. -/
def Expr.reference? : Expr Slot → Option (ReferenceKind × Token × Slot)
  | .var name slot => some (.var, name, slot)
  | .assign name slot _ => some (.assign, name, slot)
  | .thisRef keyword slot => some (.thisRef, keyword, slot)
  | .superRef keyword _ slot => some (.superRef, keyword, slot)
  | _ => none

/-- The environment has a frame for each scope around the place, opened for that
scope inside the frames further out, and at its end the frame of the globals. -/
inductive Mirrors (opened : Opening → Env → Prop) : Place → Env → Prop
  | global : Mirrors opened [] globalEnv
  | frame {l : Level} {p : Place} {k : FrameId} {E : Env} :
      opened l.opening (k :: E) → k ≠ 0 → Mirrors opened p E → Mirrors opened (l :: p) (k :: E)

/-- Where a reference with a slot leads. With a distance it leads to a frame of a
scope that declares the name. What is read there is bound, and so is the receiver one
hop nearer than a superclass. Without a distance it is a variable or an assignment,
and the global frame alone decides. -/
def LeadsToScope (p : Place) (kind : ReferenceKind) (name : String) (m : Machine) : Slot → Prop
  | some d =>
    ∃ l k, p[d]? = some l ∧ l.scope.isDeclared name = true ∧ m.env[d]? = some k ∧ k ≠ 0 ∧
      (kind ≠ .assign → ∃ v, m.frames.getAt m.env d name = .ok v) ∧
      (kind = .superRef → ∃ d' v, d = d' + 1 ∧ m.frames.getAt m.env d' thisName = .ok v)
  | none =>
    (kind = .var ∨ kind = .assign) ∧
      (m.frames.seek m.env name none).toOption = m.frames.binding? 0 name ∧
      (m.frames.target m.env name none).toOption =
        (m.frames.binding? 0 name).map fun _ => 0

/-- The programs that are run from the machine follow their scopes. -/
structure FollowsScopes (budget : Nat) (m : Machine) (programs : List (List (Stmt Slot))) :
    Prop where
  /-- A reference that is evaluated stands at a place that the environment mirrors,
  and its slot is the distance of its name there. -/
  references : ∀ a, m.activities budget programs a →
    ∀ e kind t slot, a.task = .eval e → e.reference? = some (kind, t, slot) →
      ∃ p, Occurs programs p (.expr e) ∧ slot = p.scopes.distanceTo? t.lexeme ∧
        Mirrors (fun o E => ∃ b, m.activities budget programs b ∧ b.task = .opens o E) p
          a.machine.env ∧
        LeadsToScope p kind t.lexeme a.machine slot
  /-- Every frame but that of the globals was opened for one scope. -/
  openings : ∀ a b o o' k E E', m.activities budget programs a → a.task = .opens o (k :: E) →
    m.activities budget programs b → b.task = .opens o' (k :: E') → o = o' ∧ E = E'
  /-- It binds only names that this scope declares. -/
  bindings : ∀ a, m.activities budget programs a →
    ∀ k n, k ≠ 0 → (a.machine.frames.binding? k n).isSome = true →
      ∃ b o E, m.activities budget programs b ∧ b.task = .opens o (k :: E) ∧ o.Declares n
  /-- No search by distance ever fails. -/
  ends : ∀ finish ∈ (m.runAll budget programs).1, ∀ f, finish = .fault f → ¬ f.IsMiss

/-! ## Units one after the other -/

section

variable {programs : List (List (Stmt Slot))}
  (haccepted : ∀ program ∈ programs, Accepted program)

/-- What is known after some programs were run. -/
structure Followed (w : FrameLog) (budget : Nat) (m : Machine)
    (rest : List (List (Stmt Slot))) : Prop where
  matched : ∀ a, m.activities budget rest a → (scoping haccepted).Matched w a
  announced : ∀ k, m.frames.size ≤ k → k < (m.runAll budget rest).2.frames.size →
    ∃ a o E, m.activities budget rest a ∧ a.task = .opens o (k :: E)
  ends : ∀ finish ∈ (m.runAll budget rest).1, ∀ f, finish = .fault f → ¬ f.IsMiss
  machine : (scoping haccepted).MachineRel w (m.runAll budget rest).2 (m.runAll budget rest).2

/-- An abort that is related to another one is no missing frame. -/
theorem not_isMiss {f : Fault} {r : Abort} (h : (scoping haccepted).AbortRel (.fault f) r) :
    ¬ f.IsMiss := by
  cases h with
  | misplaced hmiss => exact hmiss.elim
  | fault hf => exact hf

theorem interpretWith_followed {w : FrameLog} {m : Machine} (budget : Nat)
    (hm : (scoping haccepted).MachineRel w m m) (henv : m.env = globalEnv)
    {program : List (Stmt Slot)} (hprogram : program ∈ programs) :
    ∃ w', w.Later w' ∧
      (scoping haccepted).MachineRel w' (m.interpretWith budget program).2
        (m.interpretWith budget program).2 ∧
      (m.interpretWith budget program).2.env = globalEnv ∧
      (∀ a, Eval.visits budget (.unit program) m.fresh a → (scoping haccepted).Matched w' a) ∧
      (∀ k, m.frames.size ≤ k → k < (m.interpretWith budget program).2.frames.size →
        ∃ a o E, Eval.visits budget (.unit program) m.fresh a ∧ a.task = .opens o (k :: E)) ∧
      ∀ f, (m.interpretWith budget program).1 = .fault f → ¬ f.IsMiss := by
  have hstart : (scoping haccepted).Env w [] m.fresh.env m.fresh.env :=
    ⟨rfl, (show m.fresh.env = globalEnv from henv) ▸ .global⟩
  obtain ⟨w', hw, hr, hmatched, hannounced⟩ :=
    ((scoping haccepted).agrees budget).execUnit
      (stmtsRel_self haccepted program (.program hprogram)) hstart (hm.fresh rfl)
  refine ⟨w', hw, ?_⟩
  rw [Machine.interpretWith_machine]
  have hend : ∀ f, (m.interpretWith budget program).1 = .fault f → ¬ f.IsMiss := by
    intro f hf
    rw [Machine.interpretWith] at hf
    rcases hx : Eval.execUnit budget program m.fresh with ⟨_, _⟩ | ⟨r, _⟩
    · rw [hx] at hf
      cases hf
    · rw [hx] at hf hr
      cases r with
      | error e => cases hf
      | failure message =>
          cases hf
          exact id
      | fault f =>
          cases hf
          exact not_isMiss haccepted hr.2.2.2
      | spent => cases hf
  refine ⟨?_, ?_, hmatched, hannounced, hend⟩
  · cases hx : Eval.execUnit budget program m.fresh with
    | ok v m₁ => rw [hx] at hr; exact hr.2.2.1
    | abort r m₁ => rw [hx] at hr; exact hr.2.2.1
  · cases hx : Eval.execUnit budget program m.fresh with
    | ok v m₁ => rw [hx] at hr; exact hr.1.trans henv
    | abort r m₁ => rw [hx] at hr; exact hr.1.trans henv

theorem runAll_followed {w : FrameLog} {m : Machine} (budget : Nat)
    (hm : (scoping haccepted).MachineRel w m m) (henv : m.env = globalEnv)
    {rest : List (List (Stmt Slot))} (hrest : ∀ program ∈ rest, program ∈ programs) :
    ∃ w', w.Later w' ∧ Followed haccepted w' budget m rest := by
  induction rest generalizing w m with
  | nil =>
      refine ⟨w, FrameLog.Later.refl w, fun _ h => h.elim, fun k hk hk' => ?_,
        (fun _ h => nomatch h), hm⟩
      exact absurd hk' (Nat.not_lt.mpr hk)
  | cons program rest ih =>
      obtain ⟨w₁, hw₁, hm₁, henv₁, hmatched, hannounced, hend⟩ :=
        interpretWith_followed haccepted budget hm henv (hrest program List.mem_cons_self)
      obtain ⟨w₂, hw₂, h⟩ :=
        ih hm₁ henv₁ fun p hp => hrest p (List.mem_cons_of_mem program hp)
      refine ⟨w₂, hw₁.trans hw₂, ?_, ?_, ?_, h.machine⟩
      · intro a ha
        rcases ha with ha | ha
        · exact (hmatched a ha).later hw₂
        · exact h.matched a ha
      · intro k hk hk'
        rcases Nat.lt_or_ge k (m.interpretWith budget program).2.frames.size with hlt | hge
        · obtain ⟨a, o, E, ha, htask⟩ := hannounced k hk hlt
          exact ⟨a, o, E, .inl ha, htask⟩
        · obtain ⟨a, o, E, ha, htask⟩ := h.announced k hge hk'
          exact ⟨a, o, E, .inr ha, htask⟩
      · intro finish hfinish f hf
        rcases List.mem_cons.mp hfinish with rfl | hfinish
        · exact hend f hf
        · exact h.ends finish hfinish f hf

/-! ## Moments of a run -/

variable {haccepted} {w : FrameLog} {budget : Nat} {m : Machine}
  {rest : List (List (Stmt Slot))}

/-- An opening that was announced is the one that is on record. -/
theorem Followed.made (h : Followed haccepted w budget m rest) {a : Activity}
    (ha : m.activities budget rest a) {o : Opening} {k : FrameId} {E : Env}
    (htask : a.task = .opens o (k :: E)) : w.made k = some (o, E) := by
  obtain ⟨w₀, t', m', hw, _, ht⟩ := h.matched a ha
  rw [htask] at ht
  cases ht with
  | opens ho hE =>
      obtain ⟨_, rfl⟩ := ho
      obtain ⟨_, hE⟩ := hE
      cases hE with
      | frame hmade _ _ _ => exact hw.made _ _ hmade

/-- A frame that is there at some moment was announced, unless it was there before. -/
theorem Followed.opened (h : Followed haccepted w budget m rest) {a : Activity} {w₀ : FrameLog}
    {m' : Machine} (hw : w₀.Later w) (hm : (scoping haccepted).MachineRel w₀ a.machine m')
    {k : FrameId} (hk : m.frames.size ≤ k) (hk' : k < a.machine.frames.size) :
    ∃ o E, (∃ b, m.activities budget rest b ∧ b.task = .opens o (k :: E)) ∧
      w₀.made k = some (o, E) := by
  have hsize : a.machine.frames.size ≤ (m.runAll budget rest).2.frames.size := by
    rw [hm.frames.size, h.machine.frames.size]
    exact hw.size
  obtain ⟨b, o, E, hb, htask⟩ := h.announced k hk (Nat.lt_of_lt_of_le hk' hsize)
  refine ⟨o, E, ⟨b, hb, htask⟩, ?_⟩
  have hmade := h.made hb htask
  rcases Nat.eq_zero_or_pos k with rfl | hpos
  · exact absurd rfl (h.machine.frames.logged 0 _ hmade).1
  · obtain ⟨x, hx⟩ := Option.isSome_iff_exists.mp
      (hm.frames.complete k (Nat.ne_of_gt hpos) (hm.frames.size ▸ hk'))
    have hlater := hw.made k x hx
    rw [hmade] at hlater
    cases hlater
    exact hx

/-- An environment that belongs to a place mirrors it. -/
theorem Followed.mirrors (h : Followed haccepted w budget m rest) (hsize : m.frames.size = 1)
    {a : Activity} {w₀ : FrameLog} {m' : Machine} (hw : w₀.Later w)
    (hm : (scoping haccepted).MachineRel w₀ a.machine m') {p : Place} {E : Env}
    (hE : w₀.Chain p E) :
    Mirrors (fun o E => ∃ b, m.activities budget rest b ∧ b.task = .opens o E) p E := by
  induction hE with
  | global => exact .global
  | @frame l p k E hmade hk _ _ ih =>
      have hlt := (hm.frames.logged k _ hmade).2
      rw [← hm.frames.size] at hlt
      obtain ⟨o, E', hopened, hmade'⟩ := h.opened hw hm
        (hsize ▸ Nat.pos_of_ne_zero hk) hlt
      rw [hmade] at hmade'
      cases hmade'
      exact .frame hopened hk ih

/-- What is related is an expression at a place of the program. -/
theorem occurs_of_reference {p : Place} {e e' : Expr Slot} {x : ReferenceKind × Token × Slot}
    (h : (scoping haccepted).ExprRel p e e') (he : e.reference? = some x) :
    Occurs programs p (.expr e) := by
  cases h with
  | var hr => exact hr.2
  | assign hr _ => exact hr.2
  | thisRef hr => exact hr.2
  | superRef _ hr => exact hr.2
  | _ => cases he

/-- Outside of all scopes the frame of the globals decides. -/
theorem global_decides (F : Frames Value) (E : Env) (name : String) :
    (F.seek E name none).toOption = F.binding? 0 name ∧
      (F.target E name none).toOption = (F.binding? 0 name).map fun _ => 0 := by
  simp only [Frames.seek, Frames.target, Frames.get?_globalEnv, Frames.owner?_globalEnv]
  cases F.binding? 0 name <;> exact ⟨rfl, rfl⟩

/-- `this` always has a distance. -/
theorem Fragment.Resolved.thisRef {p : Place} {t : Token} {slot : Slot}
    (h : Fragment.Resolved p (.expr (.thisRef t slot))) : slot.isSome = true := by
  obtain ⟨c, y, hp, hw, hf, heq⟩ := h
  cases y with
  | thisRef keyword slot' =>
      cases heq
      simp only [Expr.scopeFaults] at hf
      split at hf
      · cases hf
      · next hc =>
          have hlexeme : t.lexeme = thisName := hw
          rw [if_neg hc, hlexeme]
          exact hp.this hc
  | _ => cases heq

/-- The value that a frame of the chain binds is found by distance. -/
theorem getAt_of_bound {w₀ : FrameLog} {V : ValueRelation} {F F' : Frames Value} {E : Env}
    (hF : w₀.Store V F F') {d : Nat} {k : FrameId} {name : String} (hk : E[d]? = some k)
    (hbound : w₀.bound k name) : ∃ v, F.getAt E d name = .ok v := by
  obtain ⟨v, hv⟩ := Option.isSome_iff_exists.mp (hF.bound k name hbound)
  exact ⟨v, Frames.getAt_eq_ok hk hv⟩

/-- A reference in an environment that belongs to its place leads to its scope. -/
theorem leadsToScope {w₀ : FrameLog} {m m' : Machine} {p : Place} {e : Expr Slot}
    {kind : ReferenceKind} {t : Token} {slot : Slot}
    (hoccurs : Occurs programs p (.expr e)) (he : e.reference? = some (kind, t, slot))
    (hE : w₀.Chain p m.env) (hm : (scoping haccepted).MachineRel w₀ m m') :
    slot = p.scopes.distanceTo? t.lexeme ∧ LeadsToScope p kind t.lexeme m slot := by
  have hresolved := hoccurs.resolved haccepted
  have hread : ∀ d l, p[d]? = some l → l.scope.isDefined t.lexeme = true → kind ≠ .superRef →
      LeadsToScope p kind t.lexeme m (some d) := by
    intro d l hl hdefined hkind
    obtain ⟨k, hk, _, hne, _, hbound⟩ := hE.at hl
    exact ⟨l, k, hl, Scope.isDeclared_of_isDefined hdefined, hk, hne,
      fun _ => getAt_of_bound hm.frames hk (hbound _ hdefined), fun h => absurd h hkind⟩
  cases e with
  | var name slot' =>
      cases he
      obtain ⟨hslot, hlevel⟩ := hresolved.read (.inl rfl)
      refine ⟨hslot, ?_⟩
      cases slot with
      | none => exact ⟨.inl rfl, global_decides _ _ _⟩
      | some d =>
          obtain ⟨l, hl, hdefined⟩ := hlevel d rfl
          exact hread d l hl hdefined (by decide)
  | thisRef keyword slot' =>
      cases he
      obtain ⟨hslot, hlevel⟩ := hresolved.read (.inr rfl)
      refine ⟨hslot, ?_⟩
      cases slot with
      | none => cases hresolved.thisRef
      | some d =>
          obtain ⟨l, hl, hdefined⟩ := hlevel d rfl
          exact hread d l hl hdefined (by decide)
  | assign name slot' value =>
      cases he
      obtain ⟨hslot, hlevel⟩ := hresolved.assigned
      refine ⟨hslot, ?_⟩
      cases slot with
      | none => exact ⟨.inr rfl, global_decides _ _ _⟩
      | some d =>
          obtain ⟨l, hl, hdeclared, _⟩ := hlevel d rfl
          obtain ⟨k, hk, _, hne, _, _⟩ := hE.at hl
          exact ⟨l, k, hl, hdeclared, hk, hne, fun h => absurd rfl h, fun h => nomatch h⟩
  | superRef keyword method slot' =>
      cases he
      obtain ⟨hlexeme, hslot, d, l, l', rfl, hl, hsuper, hl', hthis⟩ := hresolved.superRef
      obtain ⟨k, hk, _, hne, _, hbound⟩ := hE.at hl
      obtain ⟨k', hk', _, _, _, hbound'⟩ := hE.at hl'
      rw [hlexeme]
      refine ⟨hslot, l, k, hl, Scope.isDeclared_of_isDefined hsuper, hk, hne,
        fun _ => getAt_of_bound hm.frames hk (hbound _ hsuper), fun _ => ?_⟩
      obtain ⟨v, hv⟩ := getAt_of_bound hm.frames hk' (hbound' _ hthis)
      exact ⟨d, v, rfl, hv⟩
  | _ => cases he

end

/-- Accepted programs, run on a machine on which nothing has run. -/
theorem start_followed {programs : List (List (Stmt Slot))}
    (haccepted : ∀ program ∈ programs, Accepted program) {natives : NativeTable}
    (hnatives : natives.HasNativeVectors) (readings : Nat → Float) (budget : Nat) :
    ∃ w, Followed haccepted w budget (Machine.start natives readings) programs := by
  have hstore : FrameLog.Store ⟨1, fun _ => none, fun _ _ => False⟩
      ((scoping haccepted).ValueRel ⟨1, fun _ => none, fun _ _ => False⟩)
      #[Machine.globalFrame natives] #[Machine.globalFrame natives] :=
    { size := rfl
      size' := rfl
      global := Nat.one_pos
      values := by
        intro k n
        cases k with
        | zero => exact Comparison.globalFrame_self hnatives n
        | succ k =>
            rw [Frames.binding?_of_size_le (Nat.le_add_left 1 k)]
            exact .none
      bound := fun _ _ h => h.elim
      logged := fun _ _ h => nomatch h
      complete := fun k hk hlt => absurd (Nat.lt_one_iff.mp hlt) hk
      declared := fun _ _ _ _ h => nomatch h }
  have hstart := Comparison.start_self (C := scoping haccepted) hnatives readings rfl hstore
  obtain ⟨w, _, h⟩ := runAll_followed haccepted budget hstart rfl fun _ hp => hp
  exact ⟨w, h⟩

/-- Units that lexer, parser and resolver accept, run one after the other, follow
their scopes. -/
theorem units_followScopes {natives : NativeTable} (hnatives : natives.HasNativeVectors)
    (readings : Nat → Float) (budget : Nat) (units : List SourceUnit)
    (haccepted : ∀ u ∈ units, u.Accepted) :
    FollowsScopes budget (Machine.start natives readings) (units.map (·.reading.program)) := by
  have hprograms : ∀ program ∈ units.map (·.reading.program), Accepted program := by
    intro program hprogram
    obtain ⟨u, hu, rfl⟩ := List.mem_map.mp hprogram
    exact UnitReading.ofSource_accepted (haccepted u hu).1 (haccepted u hu).2
  obtain ⟨w, h⟩ := start_followed hprograms hnatives readings budget
  refine ⟨?_, ?_, ?_, h.ends⟩
  · intro a ha e kind t slot htask he
    obtain ⟨w₀, t', m', hw, hm, ht⟩ := h.matched a ha
    rw [htask] at ht
    cases ht with
    | @eval p _ e' hE hrel =>
        have hoccurs := occurs_of_reference hrel he
        obtain ⟨hslot, hleads⟩ := leadsToScope hoccurs he hE.2 hm
        exact ⟨p, hoccurs, hslot, h.mirrors rfl hw hm hE.2, hleads⟩
  · intro a b o o' k E E' ha htask hb htask'
    have hmade := h.made ha htask
    rw [h.made hb htask'] at hmade
    cases hmade
    exact ⟨rfl, rfl⟩
  · intro a ha k n hk hn
    obtain ⟨w₀, t', m', hw, hm, _⟩ := h.matched a ha
    obtain ⟨o, E, ⟨b, hb, htask⟩, hmade⟩ := h.opened hw hm (Nat.pos_of_ne_zero hk)
      (Frames.lt_size_of_binding? hn)
    exact ⟨b, o, E, hb, htask, hm.frames.declared k o E n hmade hn⟩

/-- Two units, of which the second uses what the first has made. -/
def classUnits : List SourceUnit :=
  [{ importer := ⟨⟨[], false⟩, {}⟩
     limit := .count 20
     source :=
      "fun f(a) \x7b \x7b var b = a; a = b; return b; \x7d \x7d\n" ++
      "class A \x7b m() \x7b return this; \x7d \x7d\n" ++
      "class B < A \x7b m() \x7b return super.m(); \x7d \x7d\n" },
   { importer := ⟨⟨[], false⟩, {}⟩
     limit := .count 20
     typed := true
     source := "f(B().m())" }]

theorem units_followScopes_classes :
    (∀ u ∈ classUnits, u.Accepted) ∧
      FollowsScopes 100 (Machine.start NativeTable.standard fun _ => 0)
        (classUnits.map (·.reading.program)) := by
  have haccepted : ∀ u ∈ classUnits, u.Accepted :=
    SourceUnit.accepted_of_all (by decide +kernel)
  exact ⟨haccepted, units_followScopes ⟨_, rfl⟩ (fun _ => 0) 100 classUnits haccepted⟩

end Lox
