import Lox.Proofs.Budget
import Lox.Proofs.Simulation.Evaluation
import Lox.Proofs.Simulation.Steps
import Lox.Proofs.Simulation.Values
import Lox.Session

/-!
# How compared units begin and end

Before anything has run there are native functions only, and these are related to themselves
under every comparison. Of the two machines it has to be shown that their stores are related;
the rest is the same in both. Runs that simulate each other end in the same way: both complete,
or the same error ends both.
-/

namespace Lox

/-! ## Machines on which nothing has run -/

/-- The class of vectors has native methods only. -/
def NativeTable.HasNativeVectors (natives : NativeTable) : Prop :=
  ∃ methods, natives.vectorClass = NativeTable.makeVectorClass methods

namespace Comparison

variable {C : Comparison} {w : C.World}

theorem makeVectorClass_self (methods : List ((String × String) × Native)) :
    C.ClassRel w (NativeTable.makeVectorClass methods) (NativeTable.makeVectorClass methods) := by
  refine .root ⟨rfl, rfl, ?_, rfl⟩
  refine List.forall₂_same.mpr fun x hx => ⟨rfl, ?_⟩
  obtain ⟨⟨name, n⟩, _, rfl⟩ := List.mem_map.mp hx
  exact .native

variable {natives : NativeTable}

theorem vectorClass_self (h : natives.HasNativeVectors) :
    C.ClassRel w natives.vectorClass natives.vectorClass := by
  obtain ⟨methods, heq⟩ := h
  rw [heq]
  exact makeVectorClass_self methods

theorem globals_self (h : natives.HasNativeVectors) :
    ∀ x ∈ natives.globals, C.ValueRel w x.2 x.2 := by
  intro x hx
  rcases List.mem_append.mp hx with hx | hx
  · obtain ⟨⟨⟨name, n⟩, i⟩, _, rfl⟩ := List.mem_map.mp hx
    exact .native
  · rw [List.mem_singleton.mp hx]
    exact .cls (vectorClass_self h)

theorem foldl_insert_self (l : List (String × Value)) (b : Bindings Value)
    (hl : ∀ x ∈ l, C.ValueRel w x.2 x.2) (hb : TableRel (C.ValueRel w) b b) :
    TableRel (C.ValueRel w) (l.foldl (fun b (name, v) => b.insert name v) b)
      (l.foldl (fun b (name, v) => b.insert name v) b) := by
  induction l generalizing b with
  | nil => exact hb
  | cons x l ih =>
      exact ih _ (fun y hy => hl y (List.mem_cons_of_mem x hy))
        (TableRel.insert hb x.1 (hl x List.mem_cons_self))

/-- The frame of the globals is related to itself, name by name. -/
theorem globalFrame_self (h : natives.HasNativeVectors) (name : String) :
    Option.Rel (C.ValueRel w) ((Machine.globalFrame natives).bindings.find? name)
      ((Machine.globalFrame natives).bindings.find? name) :=
  TableRel.find? (foldl_insert_self natives.globals [] (globals_self h) .nil) name

theorem start_self (h : natives.HasNativeVectors) (readings : Nat → Float)
    (hpast : C.past = #[])
    (hF : C.Store w (C.ValueRel w) #[Machine.globalFrame natives]
      #[Machine.globalFrame natives]) :
    C.MachineRel w (Machine.start natives readings) (Machine.start natives readings) where
  frames := hF
  objects := .nil
  nextId := rfl
  output := by rw [hpast]; rfl
  vectorClass := vectorClass_self h
  devices := ⟨rfl, rfl, rfl⟩

theorem MachineRel.fresh {m m' : Machine} (h : C.MachineRel w m m') (hpast : C.past = #[]) :
    C.MachineRel w m.fresh m'.fresh :=
  ⟨h.frames, h.objects, h.nextId, by rw [hpast]; rfl, h.vectorClass, h.devices⟩

end Comparison

/-! ## Ends of units -/

/-- How a run of statements ends a unit. -/
def Result.finish : Result Unit → UnitEnd × Machine
  | .ok _ m => (.completed, m)
  | .abort (.error e) m => (.error e, m)
  | .abort (.failure _) m => (.fault .brokenNative, m)
  | .abort (.fault f) m => (.fault f, m)
  | .abort .spent m => (.spent, m)

theorem Machine.interpretWith_eq (budget : Nat) (m : Machine) (program : List (Stmt Slot)) :
    m.interpretWith budget program = (Eval.execUnit budget program m.fresh).finish :=
  rfl

/-- A unit is run with some budget. -/
theorem Machine.interpret_eq (m : Machine) (program : List (Stmt Slot)) :
    ∃ n, m.interpret program = (Eval.execUnit n program m.fresh).finish :=
  ⟨stepBudget, rfl⟩

/-- The outcome of a unit that was run. -/
def UnitEnd.outcome : UnitEnd → Outcome
  | completed => .completed
  | error e => .failed e
  | fault f => .escaped (.fault f)
  | spent => .escaped .spent

/-- Outcomes of runs that are the same but for the tokens in reports. -/
inductive Outcome.Alike : Outcome → Outcome → Prop
  | completed : Alike .completed .completed
  | failed {fault : RuntimeFault} {t t' : Token} :
      Alike (.failed ⟨fault, t⟩) (.failed ⟨fault, t'⟩)
  | fault {f : Fault} : Alike (.escaped (.fault f)) (.escaped (.fault f))
  | misplaced {f f' : DistanceFault} :
      Alike (.escaped (.fault (.distance f))) (.escaped (.fault (.distance f')))
  | spent : Alike (.escaped .spent) (.escaped .spent)

theorem UnitEnd.outcome_alike (e : UnitEnd) : e.outcome.Alike e.outcome := by
  cases e with
  | completed => exact .completed
  | error => exact .failed
  | fault => exact .fault
  | spent => exact .spent

theorem Outcome.Alike.trans {o o' o'' : Outcome} (h : o.Alike o') (h' : o'.Alike o'') :
    o.Alike o'' := by
  cases h with
  | completed => exact h'
  | failed =>
      cases h' with
      | failed => exact .failed
  | fault => exact h'
  | misplaced =>
      cases h' with
      | fault => exact .misplaced
      | misplaced => exact .misplaced
  | spent => exact h'

/-! ## Larger budgets -/

section

variable {n k : Nat} (h : n ≤ k) {m : Machine} {program : List (Stmt Slot)}

include h

/-- A budget that suffices may as well be larger. -/
theorem Machine.interpretWith_larger (hends : (m.interpretWith n program).1 ≠ .spent) :
    m.interpretWith k program = m.interpretWith n program := by
  rw [interpretWith_eq] at hends
  rcases (execUnit_outruns h program).ends m.fresh with ⟨m', hspent, _⟩ | heq
  · rw [hspent] at hends
    exact absurd rfl hends
  · rw [interpretWith_eq, interpretWith_eq, heq]

/-- With a larger budget no less is printed. -/
theorem Machine.interpretWith_prints :
    (m.interpretWith n program).2.output.toList <+:
      (m.interpretWith k program).2.output.toList := by
  rw [interpretWith_machine, interpretWith_machine]
  exact (execUnit_outruns h program).output m.fresh

end

/-- A step in another environment ends as it does there. -/
theorem Result.finish_within (E : Env) (x : Eval Unit) (m : Machine) :
    (Eval.within E x m).finish.1 = (x { m with env := E }).finish.1 ∧
      (Eval.within E x m).finish.2.output = (x { m with env := E }).finish.2.output := by
  rw [Eval.within]
  cases x { m with env := E } with
  | ok _ _ => exact ⟨rfl, rfl⟩
  | abort a _ => cases a <;> exact ⟨rfl, rfl⟩

namespace Comparison

variable {C : Comparison} {w : C.World}

theorem AbortRel.finish {r r' : Abort} (h : C.AbortRel r r') (m m' : Machine) :
    (Result.finish (.abort r m)).1.outcome.Alike (Result.finish (.abort r' m')).1.outcome := by
  cases h with
  | error => exact .failed
  | failure => exact .fault
  | misplaced _ => exact .misplaced
  | fault _ => exact .fault
  | spent => exact .spent

theorem ResultRel.finish {E E' : Lox.Env} {R : Unit → Unit → Prop} {r r' : Result Unit}
    (h : C.ResultRel w E E' R r r') :
    r.finish.1.outcome.Alike r'.finish.1.outcome ∧ r.finish.2.env = E ∧ r'.finish.2.env = E' ∧
      C.MachineRel w r.finish.2 r'.finish.2 := by
  have hmachine : ∀ (a : Abort) (m : Machine), (Result.finish (.abort a m)).2 = m := by
    intro a m
    cases a <;> rfl
  cases r with
  | ok _ m =>
      cases r' with
      | ok _ m' => exact ⟨.completed, h.1, h.2.1, h.2.2.1⟩
      | abort _ _ => exact h.elim
  | abort a m =>
      cases r' with
      | ok _ _ => exact h.elim
      | abort a' m' =>
          refine ⟨h.2.2.2.finish m m', ?_⟩
          rw [hmachine, hmachine]
          exact ⟨h.1, h.2.1, h.2.2.1⟩

/-- Related units on related machines end alike, and leave related machines, in the
environments in which they began. -/
theorem execUnit_finish {m m' : Machine} {p : C.Spot} {ss ss' : List (Stmt Slot)} (n : Nat)
    (hm : C.MachineRel w m m') (he : C.Env w p m.env m'.env) (h : C.StmtsRel p ss ss') :
    let r := (Eval.execUnit n ss m).finish
    let r' := (Eval.execUnit n ss' m').finish
    r.1.outcome.Alike r'.1.outcome ∧ r.2.env = m.env ∧ r'.2.env = m'.env ∧
      ∃ w', C.Later w w' ∧ C.MachineRel w' r.2 r'.2 := by
  obtain ⟨w', hw, hresult, _⟩ := (C.agrees n).execUnit h he hm
  obtain ⟨halike, henv, henv', hmachine⟩ := hresult.finish
  exact ⟨halike, henv, henv', w', hw, hmachine⟩

end Comparison

end Lox
