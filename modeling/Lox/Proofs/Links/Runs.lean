import Lox.Proofs.Links.Evaluation
import Lox.Proofs.Scoping.Runs

/-!
# Searches end

Programs are run one after the other on one machine, whatever they are. At every moment
each environment leads to the globals, and each class to one without a superclass, along
links that are never changed. So following them comes to an end, and finds what the
environment and the class say, however values refer to each other and whatever names and
classes are declared anew.
-/

namespace Lox

/-- Following the links from an environment or from a class ends, with what the machine
finds there. -/
structure Machine.Searches (L : Links) (m : Machine) : Prop where
  /-- A frame is the first of one environment, whose other frames are older. -/
  outwards : ∀ k E, L.Chain (k :: E) → E.length ≤ k ∧ ∀ E', L.Chain (k :: E') → E = E'
  get : ∀ k E name, L.Chain (k :: E) → L.get? m.frames k name = m.frames.get? (k :: E) name
  assign : ∀ k E name v, L.Chain (k :: E) →
    L.assign? m.frames k name v = m.frames.assign? (k :: E) name v
  ancestor : ∀ k E distance, L.Chain (k :: E) →
    L.ancestor? k distance = (k :: E)[distance]?
  findMethod : ∀ (c : Class) name, c.Linked L → L.findMethod? c.id name = c.findMethod? name

/-- While the programs are run from the machine, there are no links but those of `L`, none of
them ever changes, and to follow them ends. -/
structure KeepsLinks (budget : Nat) (m : Machine) (programs : List (List (Stmt Slot)))
    (L : Links) : Prop where
  activities : ∀ a, m.activities budget programs a →
    ∃ L₀ L₁, a.Along L₀ L₁ ∧ L₁.Later L ∧ a.machine.Searches L₀
  ends : (m.runAll budget programs).2.Linked L ∧ (m.runAll budget programs).2.Searches L

theorem Machine.searches (L : Links) (m : Machine) : m.Searches L where
  outwards _ _ h := ⟨h.length_le, fun _ => h.unique⟩
  get _ _ name h := h.get? m.frames name
  assign _ _ name v h := h.assign? m.frames name v
  ancestor _ _ distance h := h.ancestor? distance
  findMethod _ name h := Links.findMethod?_eq h name

/-! ## Machines on which nothing has run -/

/-- The frame of the globals, and the class of vectors. -/
def Links.start (natives : NativeTable) : Links where
  frames := 1
  enclosing _ := none
  ids := natives.functions.length + 1
  classes id := if id = 0 then some ⟨natives.vectorClass.body, none⟩ else none
  positive := Nat.one_pos
  outermost := rfl
  enclosing_lt h := by cases h
  classes_lt {id entry} h := by
    split at h
    · next heq => exact heq ▸ Nat.succ_pos _
    · cases h
  superclass_lt {id entry above} h habove := by
    split at h
    · cases h
      cases habove
    · cases h

theorem vectorClass_linked {natives : NativeTable} (h : natives.HasNativeVectors) :
    natives.vectorClass.Linked (.start natives) := by
  obtain ⟨methods, heq⟩ := h
  have hentry : (Links.start natives).classes 0 =
      some ⟨(NativeTable.makeVectorClass methods).body, none⟩ := by
    rw [← heq]
    rfl
  rw [heq]
  refine ⟨hentry, fun name m hm => ?_⟩
  obtain ⟨⟨_, _⟩, _, hmethod⟩ := List.mem_map.mp (Bindings.mem_of_find? hm)
  cases hmethod
  trivial

theorem start_linked {natives : NativeTable} (hnatives : natives.HasNativeVectors)
    (readings : Nat → Float) :
    (Machine.start natives readings).Linked (.start natives) := by
  refine ⟨rfl, rfl, .globals, fun k name v hv => ?_, (fun _ _ h => by cases h), trivial,
    vectorClass_linked hnatives⟩
  cases k with
  | zero =>
      rcases List.mem_append.mp (Machine.mem_globals hv) with hmem | hmem
      · obtain ⟨_, _, heq⟩ := List.mem_map.mp hmem
        cases heq
        trivial
      · cases List.mem_singleton.mp hmem
        exact vectorClass_linked hnatives
  | succ k => cases hv

/-! ## Units one after the other -/

section

variable {L : Links} {m : Machine}

theorem Machine.Linked.fresh (h : m.Linked L) : m.fresh.Linked L :=
  ⟨h.frames, h.ids, h.env, h.values, h.instances, trivial, h.vectorClass⟩

theorem interpretWith_linked (budget : Nat) (hm : m.Linked L) (program : List (Stmt Slot)) :
    ∃ L', L.Later L' ∧ (m.interpretWith budget program).2.Linked L' ∧
      ∀ a, Eval.visits budget (.unit program) m.fresh a → a.Linked L' := by
  have hgrows : Grows L (Eval.visits budget (.unit program)) whatever
      (Eval.execUnit budget program) m.fresh :=
    (linking.holds budget).execUnit hm.fresh ⟨hm.fresh.env, trivial⟩
  obtain ⟨L', hL, hm', _, hvisits⟩ := hgrows
  rw [Machine.interpretWith_machine]
  exact ⟨L', hL, hm', hvisits⟩

theorem runAll_linked (budget : Nat) (hm : m.Linked L) (programs : List (List (Stmt Slot))) :
    ∃ L', L.Later L' ∧ (m.runAll budget programs).2.Linked L' ∧
      ∀ a, m.activities budget programs a → a.Linked L' := by
  induction programs generalizing L m with
  | nil => exact ⟨L, .refl L, hm, fun _ h => h.elim⟩
  | cons program rest ih =>
      obtain ⟨L₁, hL₁, hm₁, hvisits⟩ := interpretWith_linked budget hm program
      obtain ⟨L₂, hL₂, hm₂, hactivities⟩ := ih hm₁
      refine ⟨L₂, hL₁.trans hL₂, hm₂, fun a ha => ?_⟩
      rcases ha with ha | ha
      · exact (hvisits a ha).later hL₂
      · exact hactivities a ha

end

/-- Programs that are run one after the other keep their links, whatever they bind and
declare. -/
theorem programs_keepLinks {natives : NativeTable} (hnatives : natives.HasNativeVectors)
    (readings : Nat → Float) (budget : Nat) (programs : List (List (Stmt Slot))) :
    ∃ L, KeepsLinks budget (Machine.start natives readings) programs L := by
  obtain ⟨L, _, hend, hactivities⟩ := runAll_linked budget (start_linked hnatives readings) programs
  refine ⟨L, fun a ha => ?_, hend, Machine.searches L _⟩
  obtain ⟨L₀, L₁, hL, halong⟩ := hactivities a ha
  exact ⟨L₀, L₁, halong, hL, Machine.searches L₀ _⟩

/-- A class is declared anew below the one that had its name, and a function is kept in the
frame that it was made in. -/
def relinkedUnits : List SourceUnit :=
  [{ importer := ⟨⟨[], false⟩, {}⟩
     limit := .count 20
     source :=
      "class A \x7b m() \x7b return 1; \x7d \x7d\n" ++
      "var Old = A;\n" ++
      "class A < Old \x7b n() \x7b return super.m; \x7d \x7d\n" },
   { importer := ⟨⟨[], false⟩, {}⟩
     limit := .count 20
     source :=
      "fun make() \x7b fun self() \x7b return self; \x7d return self; \x7d\n" ++
      "var Old = A; class A < Old \x7b \x7d print A().n()() == make()(); print A().m;" }]

theorem programs_keepLinks_redeclared :
    NativeTable.standard.HasNativeVectors ∧
      ((Machine.start NativeTable.standard fun _ => 0).runAll 100
        (relinkedUnits.map (·.reading.program))).2.output = #["false", "<fn m>"] ∧
      ∃ L, KeepsLinks 100 (Machine.start NativeTable.standard fun _ => 0)
        (relinkedUnits.map (·.reading.program)) L :=
  ⟨⟨_, rfl⟩, by decide +kernel, programs_keepLinks ⟨_, rfl⟩ (fun _ => 0) 100 _⟩

end Lox
