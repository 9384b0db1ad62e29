import Lox.Proofs.Context.Sessions
import Lox.Proofs.Numbering.Evaluation
import Lox.Proofs.Relocation

/-!
# Functions declared in another order

Two declarations of functions that follow each other bind two names in the same frame and
take two numbers. In the other order the same names are bound to functions that have each
other's number, which no run looks at. So whatever follows does the same, and by a sequence
of such exchanges the functions of a block may be declared in any order.

The numbers that are exchanged have to be new: on the machine before the declarations no
function may have one of them. This holds because a machine gives its numbers in order, and
is kept from unit to unit.
-/

namespace Lox

open Eval

/-! ## Machines that gave their numbers in order -/

namespace Machine.Numbered

variable {m : Machine}

theorem fresh (h : m.Numbered) : m.fresh.Numbered :=
  fun π hπ hfix => congrArg Machine.fresh (h π hπ hfix)

theorem interpretWith (h : m.Numbered) (budget : Nat) (program : List (Stmt Slot)) :
    (m.interpretWith budget program).2.Numbered := by
  rw [interpretWith_machine]
  exact h.fresh.execUnit budget program

theorem afterUnit (h : m.Numbered) (program : Option (List (Stmt Slot))) :
    (m.afterUnit program).Numbered := by
  cases program with
  | none => exact h
  | some program => exact h.interpretWith stepBudget program

theorem runAll (h : m.Numbered) (budget : Nat) (programs : List (List (Stmt Slot))) :
    (m.runAll budget programs).2.Numbered := by
  induction programs generalizing m with
  | nil => exact h
  | cons program rest ih => exact ih (h.interpretWith budget program)

end Machine.Numbered

theorem Bindings.mapValues_foldl_insert {f : Value → Value} (l : List (String × Value))
    (hl : ∀ x ∈ l, f x.2 = x.2) {b : Bindings Value} (hb : b.mapValues f = b) :
    (l.foldl (fun b (name, v) => b.insert name v) b).mapValues f =
      l.foldl (fun b (name, v) => b.insert name v) b := by
  induction l generalizing b with
  | nil => exact hb
  | cons x l ih =>
      obtain ⟨hx, hl⟩ := List.forall_mem_cons.mp hl
      refine ih hl ?_
      rw [← Bindings.insert_mapValues, hb, hx]

/-- Before anything has run there are native functions only. -/
theorem Machine.start_numbered (natives : NativeTable) (readings : Nat → Float) :
    (Machine.start natives readings).Numbered := by
  intro π _ _
  have hglobals : (Machine.globalFrame natives).bindings.mapValues (Value.renumber π) =
      (Machine.globalFrame natives).bindings := by
    refine Bindings.mapValues_foldl_insert natives.globals (fun x hx => ?_) rfl
    rcases List.mem_append.mp hx with hx | hx
    · obtain ⟨⟨⟨name, n⟩, i⟩, _, rfl⟩ := List.mem_map.mp hx
      rfl
    · rw [List.mem_singleton.mp hx]
      rfl
  have hframes : Frames.mapValues (Value.renumber π) #[Machine.globalFrame natives] =
      #[Machine.globalFrame natives] := by
    rw [Frames.mapValues, List.map_toArray, List.map_singleton, hglobals]
  show { Machine.start natives readings with
    frames := Frames.mapValues (Value.renumber π) #[Machine.globalFrame natives]
    objects := Array.map (Instance.renumber π) #[] } = Machine.start natives readings
  rw [hframes, List.map_toArray, List.map_nil]
  rfl

namespace Session

theorem run_numbered {s : Session} (h : s.machine.Numbered) (source : String)
    (name : Option String) (typed : Bool) : (s.run source name typed).2.machine.Numbered := by
  rw [run_session]
  exact h.afterUnit _

theorem performAll_numbered {s : Session} (h : s.machine.Numbered) (steps : List SessionStep) :
    (s.performAll steps).2.machine.Numbered := by
  rw [performAll_session]
  exact h.runAll stepBudget _

theorem start_numbered {settings : Settings} {files : Files} {base : AbsPath}
    {readings : Nat → Float} {log : List LogEntry} {s : Session}
    (h : start settings files base readings = (log, .ok s)) :
    s.machine.Numbered := by
  have hbare : (bare settings files base readings).machine.Numbered :=
    Machine.start_numbered _ readings
  obtain hs | hs := start_eq h
  · rw [hs]
    exact hbare
  · rw [hs]
    exact run_numbered hbare _ _ _

end Session

/-! ## Ends that are alike -/

/-- The units end alike and have printed the same. -/
def Result.Alike (r r' : Result Unit) : Prop :=
  r.finish.1.outcome.Alike r'.finish.1.outcome ∧ r.finish.2.output = r'.finish.2.output

namespace Result.Alike

theorem refl (r : Result Unit) : r.Alike r :=
  ⟨UnitEnd.outcome_alike _, rfl⟩

theorem trans {r r' r'' : Result Unit} (h : r.Alike r') (h' : r'.Alike r'') : r.Alike r'' :=
  ⟨h.1.trans h'.1, h.2.trans h'.2⟩

/-- Other numbers are not seen from outside. -/
theorem renumber (π : Nat → Nat) (r : Result Unit) : r.Alike (r.renumber π id) := by
  rcases r with ⟨_, m⟩ | ⟨_ | _ | _ | _, m⟩ <;> exact ⟨UnitEnd.outcome_alike _, rfl⟩

end Result.Alike

/-- Programs that differ in where their tokens stand do the same. -/
theorem execUnit_relocated (n : Nat) {m m' : Machine} {ss ss' : List (Stmt Slot)}
    (hm : (relocation #[]).MachineRel () m m') (henv : m.env = m'.env)
    (h : (relocation #[]).StmtsRel () ss ss') : (execUnit n ss m).Alike (execUnit n ss' m') := by
  obtain ⟨halike, _, _, _, _, hlast⟩ := Comparison.execUnit_finish n hm henv h
  exact ⟨halike, (hlast.output.trans Array.empty_append).symm⟩

/-- Frames that bind the same names to the same values, in whatever order. -/
theorem Relocation.machineRel_frames (m : Machine) {F F' : Frames Value} (hsize : F.size = F'.size)
    (hbindings : ∀ k n, F.binding? k n = F'.binding? k n) :
    (relocation #[]).MachineRel () { m with frames := F } { m with frames := F' } where
  frames := by
    refine ⟨hsize, fun k n => ?_⟩
    rw [hbindings]
    cases F'.binding? k n with
    | none => exact .none
    | some v => exact .some (valueRel_self v)
  objects := List.forall₂_same.mpr fun i _ => instanceRel_self i
  nextId := rfl
  output := Array.empty_append.symm
  vectorClass := classRel_self m.vectorClass
  devices := ⟨rfl, rfl, rfl⟩

theorem Relocation.stmtsRel_self (ss : List (Stmt Slot)) :
    (relocation #[]).StmtsRel () ss ss := by
  have hmap := @Relocation.stmtsRel_map #[] id (fun _ => ⟨rfl, rfl⟩) 0 ss
  rwa [Stmt.mapAll_id] at hmap

/-! ## Two declarations -/

/-- The machine after the declaration of a function. -/
def Machine.declare (m : Machine) (f : FunDecl Slot) : Machine :=
  { m with
    frames := m.frames.define m.env f.name.lexeme (.function m.nextId ⟨f, m.env, false⟩)
    nextId := m.nextId + 1 }

theorem exec_function (n : Nat) (f : FunDecl Slot) (m : Machine) :
    exec (n + 1) (.function f) m = .ok .normal (m.declare f) := by
  rw [exec]
  rfl

/-- In which order two names are bound does not matter. -/
theorem Frames.binding?_define_comm (F : Frames Value) (E : Env) {a b : String} (h : a ≠ b)
    (u v : Value) (k : FrameId) (n : String) :
    ((F.define E a u).define E b v).binding? k n =
      ((F.define E b v).define E a u).binding? k n := by
  cases E with
  | nil => rfl
  | cons id E =>
      simp only [define]
      by_cases hid : id < F.size
      · rw [binding?_bind _ (by rwa [size_bind]), binding?_bind _ hid,
          binding?_bind _ (by rwa [size_bind]), binding?_bind _ hid]
        by_cases hn : n = a
        · simp [hn, h]
        · simp [hn]
      · have hsize : F.size ≤ id := Nat.not_lt.mp hid
        rw [binding?_bind_of_size_le _ (by rwa [size_bind]), binding?_bind_of_size_le _ hsize,
          binding?_bind_of_size_le _ (by rwa [size_bind]), binding?_bind_of_size_le _ hsize]

/-- After two declarations the machine is, with the two numbers exchanged, what it is
after the same declarations in the other order. -/
theorem Machine.Numbered.declare_comm {m : Machine} (h : m.Numbered) {f g : FunDecl Slot}
    (hne : f.name.lexeme ≠ g.name.lexeme) :
    (relocation #[]).MachineRel ()
      (((m.declare f).declare g).renumber (Equiv.swap m.nextId (m.nextId + 1)))
      ((m.declare g).declare f) := by
  have hsame : m.renumber (Equiv.swap m.nextId (m.nextId + 1)) = m := by
    refine h _ (Equiv.injective _) fun i _ hi => ?_
    exact Equiv.swap_apply_of_ne_of_ne (Nat.ne_of_lt hi) (Nat.ne_of_lt (Nat.lt_succ_of_lt hi))
  have hframes : ((m.declare f).declare g).frames.mapValues
      (Value.renumber (Equiv.swap m.nextId (m.nextId + 1))) =
      (m.frames.define m.env f.name.lexeme (.function (m.nextId + 1) ⟨f, m.env, false⟩)).define
        m.env g.name.lexeme (.function m.nextId ⟨g, m.env, false⟩) := by
    rw [Machine.declare, Machine.declare, ← Frames.define_mapValues, ← Frames.define_mapValues]
    have hm := congrArg Machine.frames hsame
    simp only [Machine.renumber] at hm
    rw [hm]
    simp [Value.renumber]
  have hrenumbered : ((m.declare f).declare g).renumber (Equiv.swap m.nextId (m.nextId + 1)) =
      { (m.declare g).declare f with
        frames := (m.frames.define m.env f.name.lexeme
          (.function (m.nextId + 1) ⟨f, m.env, false⟩)).define m.env g.name.lexeme
            (.function m.nextId ⟨g, m.env, false⟩) } := by
    rw [Machine.renumber, hframes]
    have hobjects := congrArg Machine.objects hsame
    have hlast := congrArg Machine.lastValue hsame
    simp only [Machine.renumber] at hobjects hlast
    simp only [Machine.declare, hobjects, hlast]
  rw [hrenumbered]
  refine Relocation.machineRel_frames _ ?_ fun k n => ?_
  · simp [Machine.declare]
  · exact Frames.binding?_define_comm _ _ hne _ _ k n

theorem execUnit_declarations (n : Nat) (f g : FunDecl Slot) (rest : List (Stmt Slot))
    (m : Machine) :
    execUnit (n + 3) (.function f :: .function g :: rest) m =
      execUnit (n + 1) rest ((m.declare f).declare g) := by
  rw [execUnit, bind_apply, exec_function]
  show execUnit (n + 2) (.function g :: rest) (m.declare f) = _
  rw [execUnit, bind_apply, exec_function]

/-- What follows two declarations does the same if they are exchanged. -/
theorem execUnit_exchange {m : Machine} (h : m.Numbered) {f g : FunDecl Slot}
    (hne : f.name.lexeme ≠ g.name.lexeme) (n : Nat) (rest : List (Stmt Slot)) :
    (execUnit n (.function f :: .function g :: rest) m).Alike
      (execUnit n (.function g :: .function f :: rest) m) := by
  match n with
  | 0 => exact .refl _
  | 1 => exact ⟨.spent, rfl⟩
  | 2 => exact ⟨.spent, rfl⟩
  | n + 3 =>
      rw [execUnit_declarations, execUnit_declarations]
      have hfix : ∀ i, ((m.declare f).declare g).nextId ≤ i →
          Equiv.swap m.nextId (m.nextId + 1) i = i := by
        intro i hi
        replace hi : m.nextId + 2 ≤ i := hi
        exact Equiv.swap_apply_of_ne_of_ne (by omega) (by omega)
      have hrun := execUnit_renumber (Equiv.injective _) (n + 1) rest hfix
      refine (Result.Alike.renumber (Equiv.swap m.nextId (m.nextId + 1)) _).trans ?_
      rw [← hrun]
      exact execUnit_relocated _ (h.declare_comm hne) rfl (Relocation.stmtsRel_self rest)

/-! ## Blocks of declarations -/

/-- The functions of a block may be declared in any order. -/
theorem execUnit_perm {fs fs' : List (FunDecl Slot)} (hperm : fs.Perm fs')
    (hnames : (fs.map (·.name.lexeme)).Nodup) (before after : List (Stmt Slot)) (n : Nat)
    {m : Machine} (h : m.Numbered) :
    (execUnit n (before ++ (fs.map .function ++ after)) m).Alike
      (execUnit n (before ++ (fs'.map .function ++ after)) m) := by
  induction hperm generalizing before after with
  | nil => exact .refl _
  | cons f _ ih =>
      have hrest := ih (List.nodup_cons.mp hnames).2 (before ++ [.function f]) after
      simpa only [List.append_assoc, List.map_cons, List.cons_append, List.nil_append]
        using hrest
  | swap f g fs =>
      have hne : g.name.lexeme ≠ f.name.lexeme := by
        intro heq
        rw [List.map_cons, List.map_cons, heq] at hnames
        exact (List.nodup_cons.mp hnames).1 List.mem_cons_self
      have hbefore := h.execUnit n before
      rw [execUnit_append_eq n before, execUnit_append_eq n before, bind_apply]
      rw [bind_apply]
      cases hrun : execUnit n before m with
      | abort r m₁ => exact .refl _
      | ok _ m₁ =>
          rw [hrun] at hbefore
          exact execUnit_exchange hbefore hne _ _
  | trans hfirst _ ih ih' =>
      exact (ih hnames before after).trans
        (ih' ((hfirst.map _).nodup_iff.mp hnames) before after)

end Lox
