import Lox.Proofs.Context.Sessions
import Lox.Proofs.Dispatch.Runs
import Lox.Proofs.Vacancy.Evaluation

/-!
# The marker is never seen

Units are given to the interpreter one after the other, and those that are accepted run on
one machine. At every moment of these runs the marker of variables without a value is in
the frames and nowhere else. It marks exactly the variables that were declared without an
initializer and that nothing has given a value since, whether in the same unit or in a
later one, and whether a unit completed or was aborted in between. Reading one of them is
an error, and only reading one of them is that error.
-/

namespace Lox

open Eval

/-- The moments while programs are run one after the other. -/
def Machine.chronicle (budget : Nat) (m : Machine) : List (List (Stmt Slot)) → List Moment
  | [] => []
  | program :: rest =>
    Eval.chronicle budget (.unit program) m.fresh ++
      (m.interpretWith budget program).2.chronicle budget rest

/-- The step is aborted by the error with the code `E410`, at the token, and has changed
nothing. -/
def Result.LacksValue {α : Type} (r : Result α) (t : Token) (m : Machine) : Prop :=
  ∃ e : RuntimeError, e.fault.code = "E410" ∧ e.token = t ∧ r = .abort (.error e) m

/-- The text of each value that a print statement showed is one of a value that was given, and
so is that of the last value if the unit shows it. -/
structure Session.PrintsGiven (s : Session) (source : String) (name : Option String)
    (typed : Bool) : Prop where
  rejected : (s.reading source name typed).accepted? = none →
    (s.run source name typed).1.printed = []
  accepted : ∀ program, (s.reading source name typed).accepted? = some program →
    let moments := Eval.chronicle stepBudget (.unit program) s.machine.fresh
    let after := (s.run source name typed).2.machine
    (∃ shown, (s.run source name typed).1.printed = textsOf moments ++ shown ∧
      (shown = [] ∨ shown = [after.render after.lastValue])) ∧
    (∀ x ∈ moments, ∀ v m, x.shown? = some (v, m) → v.Given ∧ m.Conceals) ∧
    after.lastValue.Given ∧ after.Conceals

/-- The marker stays hidden while the programs are run from the machine. -/
structure KeepsMarkerHidden (budget : Nat) (m : Machine) (programs : List (List (Stmt Slot))) :
    Prop where
  /-- Every call of the evaluator has its moments: that in which it begins and, if it is not
  aborted, that in which it completes with what it gives. -/
  recorded : ∀ x, x ∈ m.chronicle budget programs ↔
    x.activity.task.isOpening = false ∧ x.Happens ∧ m.activities budget programs x.activity
  /-- At each moment the marker is at the variables that are vacant then, and neither
  anywhere else nor among the values of the moment. A class statement binds its name. -/
  moments : ∀ past x rest, m.chronicle budget programs = past ++ x :: rest →
    x.Proper (Vacant past)
  /-- Nothing evaluates to the marker, is called with it, or returns it. -/
  values : ∀ a, m.activities budget programs a →
    (∀ f vs, a.task = .call f vs → f.Given ∧ ∀ v ∈ vs, v.Given) ∧
      ∀ vs m', perform a.budget a.task a.machine = .ok vs m' → ∀ v ∈ vs, v.Given
  /-- Nor is it anywhere else at the end. -/
  finish : (m.runAll budget programs).2.Conceals ∧
    (m.runAll budget programs).2.marks = Vacant (m.chronicle budget programs)
  /-- A read is the error if and only if the variable is vacant. -/
  reads : ∀ past a rest, m.chronicle budget programs = past ++ .begins a :: rest →
    ∀ n node t slot, node = Expr.var ∨ node = Expr.thisRef →
      a.budget = n + 1 → a.task = .eval (node t slot) →
      ((eval (n + 1) (node t slot) a.machine).LacksValue t a.machine ↔
        ∃ k, a.machine.env.frame? slot = some k ∧ Vacant past k t.lexeme)
  /-- The same holds of the superclass that a class statement names. -/
  superclasses : ∀ past a rest, m.chronicle budget programs = past ++ .begins a :: rest →
    ∀ n name r methods, a.budget = n + 1 → a.task = .exec (.classDecl name (some r) methods) →
      ((exec (n + 1) (.classDecl name (some r) methods) a.machine).LacksValue r.name a.machine ↔
        ∃ k, a.machine.env.frame? r.slot = some k ∧ Vacant past k r.name.lexeme)
  /-- What a program prints are the texts of what its print statements show, one after the
  other, in moments that are proper. -/
  prints : ∀ past program rest, programs = past ++ program :: rest →
    let before := (m.runAll budget past).2
    (before.interpretWith budget program).2.output.toList =
      textsOf (Eval.chronicle budget (.unit program) before.fresh)
  /-- What a session prints and shows in its next unit. -/
  texts : ∀ s : Session, s.machine = (m.runAll budget programs).2 →
    ∀ source name typed, s.PrintsGiven source name typed

/-! ## Reads -/

section

variable {t : Token} {slot : Slot} {m : Machine}

/-- A reference finds what its frame binds the name to. -/
theorem Frames.seek_eq_ok {F : Frames Value} {E : Env} {name : String} {v : Value} :
    F.seek E name slot = .ok v ↔ ∃ k, E.frame? slot = some k ∧ F.binding? k name = some v := by
  cases slot with
  | none =>
      rw [seek, get?_globalEnv]
      cases hv : F.binding? 0 name <;> simp [Env.frame?, hv]
  | some d =>
      rw [seek, getAt, Env.frame?]
      cases hd : E[d]? with
      | none => simp [Except.mapError]
      | some k => cases hv : F.binding? k name <;> simp [Except.mapError, hv]

theorem code_eq_unassigned {f : RuntimeFault} : f.code = "E410" ↔ f = .unassignedVariable := by
  cases f <;> simp [RuntimeFault.code]

theorem abort_lacksValue {α : Type} {reason : Abort} {m' : Machine} :
    (Result.abort reason m' : Result α).LacksValue t m ↔
      reason = .error ⟨.unassignedVariable, t⟩ ∧ m' = m := by
  constructor
  · rintro ⟨⟨fault, token⟩, hcode, rfl, heq⟩
    cases heq
    obtain rfl := code_eq_unassigned.mp hcode
    exact ⟨rfl, rfl⟩
  · rintro ⟨rfl, rfl⟩
    exact ⟨_, rfl, rfl, rfl⟩

theorem not_lacksValue_ok {α : Type} {v : α} {m' : Machine} :
    ¬ (Result.ok v m').LacksValue t m := by
  rintro ⟨_, _, _, h⟩
  cases h

/-- The lookup of a variable fails so if and only if the variable is marked. -/
theorem lookUp_lacksValue :
    (lookUp t slot m).LacksValue t m ↔ ∃ k, m.env.frame? slot = some k ∧ m.marks k t.lexeme := by
  refine Iff.trans ?_ Frames.seek_eq_ok
  rw [Comparison.lookUp_eq]
  split
  · next hfound => exact iff_of_true (abort_lacksValue.mpr ⟨rfl, rfl⟩) hfound
  · next hne hfound =>
      refine iff_of_false not_lacksValue_ok fun h => ?_
      rw [hfound] at h
      cases h
      exact hne rfl
  · next hfound =>
      refine iff_of_false (fun h => ?_) fun h => ?_
      · cases (abort_lacksValue.mp h).1
      · rw [hfound] at h
        cases h
  · next hfound =>
      refine iff_of_false (fun h => ?_) fun h => ?_
      · cases (abort_lacksValue.mp h).1
      · rw [hfound] at h
        cases h

/-- A class statement reads its superclass first, and no other of its errors is that of a
vacant variable. -/
theorem classDecl_lacksValue {n : Nat} {name : Token} {r : Reference Slot}
    {methods : List (FunDecl Slot)} :
    (exec (n + 1) (.classDecl name (some r) methods) m).LacksValue r.name m ↔
      (lookUp r.name r.slot m).LacksValue r.name m := by
  have hmachine := superclassOf_machine (some r) m
  rw [exec, bind_apply]
  cases hparent : superclassOf (some r) m with
  | ok parent m₁ =>
      rw [hparent] at hmachine
      obtain rfl : m₁ = m := hmachine
      obtain ⟨_, _, _, _, _, _, hdeclare⟩ := declareClass_ok name methods hparent
      rw [hdeclare]
      refine iff_of_false not_lacksValue_ok fun h => ?_
      obtain ⟨_, _, _, hv⟩ := h
      rw [superclassOf, bind_apply, hv] at hparent
      cases hparent
  | abort reason m₁ =>
      have hdeclare : declareClass name (some r) methods m = .abort reason m₁ := by
        rw [declareClass, bind_apply, hparent]
      rw [hdeclare]
      refine abort_lacksValue.trans ?_
      rw [superclassOf, bind_apply] at hparent
      cases hv : lookUp r.name r.slot m with
      | abort reason' m₂ =>
          rw [hv] at hparent
          cases hparent
          exact abort_lacksValue.symm
      | ok v m₂ =>
          rw [hv] at hparent
          refine iff_of_false (fun h => ?_) not_lacksValue_ok
          rw [h.1] at hparent
          cases v <;> cases hparent

end

/-! ## Machines on which nothing has run -/

section

variable (natives : NativeTable) (readings : Nat → Float)

theorem start_given {k : FrameId} {name : String} {v : Value}
    (hv : (Machine.start natives readings).frames.binding? k name = some v) : v.Given := by
  cases k with
  | zero =>
      rcases List.mem_append.mp (Machine.mem_globals hv) with hmem | hmem
      · obtain ⟨_, _, heq⟩ := List.mem_map.mp hmem
        cases heq
        exact trivial
      · cases List.mem_singleton.mp hmem
        exact trivial
  | succ k => cases hv

theorem start_not_marked (k : FrameId) (name : String) :
    ¬ (Machine.start natives readings).marks k name :=
  fun h => start_given natives readings h

theorem start_conceals : (Machine.start natives readings).Conceals :=
  ⟨fun k name h => absurd h (start_not_marked natives readings k name),
    fun _ _ _ hv => .inr (start_given natives readings hv), (fun _ _ h => by cases h), trivial⟩

end

/-! ## Units one after the other -/

section

variable {programs : List (List (Stmt Slot))} {w : Ledger programs} {m : Machine}

theorem Ledger.Around.innermost {p : Place} {E : Env} (h : w.Around p E) (hw : w.Sound) :
    ∃ k E', E = k :: E' ∧ k < w.size := by
  cases h with
  | global => exact ⟨0, [], rfl, hw.positive⟩
  | frame hmade => exact ⟨_, _, rfl, (hw.bounds _ _ hmade).2⟩

theorem mem_machine_chronicle (budget : Nat) (rest : List (List (Stmt Slot))) (x : Moment) :
    x ∈ m.chronicle budget rest ↔
      x.activity.task.isOpening = false ∧ x.Happens ∧ m.activities budget rest x.activity := by
  induction rest generalizing m with
  | nil => exact iff_of_false List.not_mem_nil fun h => h.2.2
  | cons program rest ih =>
      rw [Machine.chronicle, List.mem_append, ih, records_chronicle budget rfl m.fresh x,
        ← and_or_left, ← and_or_left]
      exact Iff.rfl

variable (haccepted : ∀ program ∈ programs, Accepted program)
include haccepted

/-- What an accepted program declares is a name, in a frame of the machine. -/
theorem Activity.Sound.plain {a : Activity} (h : a.Sound w) : a.Plain := by
  intro s t hs hdeclared
  obtain ⟨w₀, _, hm, htask⟩ := h
  rw [hs] at htask
  obtain ⟨p, hoccurs, hp⟩ := htask
  obtain ⟨k, E, henv, hk⟩ := hp.innermost hm.ledger
  exact ⟨(hoccurs.surrounded haccepted).declared t hdeclared, k, E, henv, hm.size ▸ hk⟩

theorem interpretWith_conceals (budget : Nat) (hm : m.Sound w) (henv : m.env = globalEnv)
    (hconceals : m.Conceals) {program : List (Stmt Slot)} (hprogram : program ∈ programs) :
    (m.interpretWith budget program).2.Conceals ∧
      (m.interpretWith budget program).2.marks =
        marksAfter m.marks (Eval.chronicle budget (.unit program) m.fresh) ∧
      (m.interpretWith budget program).2.output.toList =
        textsOf (Eval.chronicle budget (.unit program) m.fresh) ∧
      ProperFrom m.marks (Eval.chronicle budget (.unit program) m.fresh) := by
  obtain ⟨w', _, _, _, hvisits⟩ := interpretWith_sound haccepted budget hm henv hprogram
  have hplain : ∀ a, .begins a ∈ Eval.chronicle budget (.unit program) m.fresh → a.Plain := by
    intro a ha
    exact (hvisits a ((records_chronicle budget rfl m.fresh _).mp ha).2.2).plain haccepted
  obtain ⟨hend, hmarks, houtput, _, hproper⟩ :=
    (concealing.holds budget).execUnit (w := ()) hconceals.fresh trivial hplain
  rw [Machine.interpretWith_machine]
  exact ⟨hend, hmarks, houtput, hproper⟩

/-- What holds after some programs holds before the next one. -/
theorem runAll_conceals (budget : Nat) (hm : m.Sound w) (henv : m.env = globalEnv)
    (hconceals : m.Conceals) {rest : List (List (Stmt Slot))}
    (hrest : ∀ program ∈ rest, program ∈ programs) :
    (∃ w' : Ledger programs, (m.runAll budget rest).2.Sound w') ∧
      (m.runAll budget rest).2.env = globalEnv ∧ (m.runAll budget rest).2.Conceals ∧
      (m.runAll budget rest).2.marks = marksAfter m.marks (m.chronicle budget rest) ∧
      ProperFrom m.marks (m.chronicle budget rest) := by
  induction rest generalizing w m with
  | nil => exact ⟨⟨w, hm⟩, henv, hconceals, rfl, trivial⟩
  | cons program rest ih =>
      have hprogram := hrest program List.mem_cons_self
      obtain ⟨w₁, _, hm₁, henv₁, _⟩ := interpretWith_sound haccepted budget hm henv hprogram
      obtain ⟨hconceals₁, hmarks₁, _, hproper₁⟩ :=
        interpretWith_conceals haccepted budget hm henv hconceals hprogram
      obtain ⟨hsound, henv₂, hconceals₂, hmarks₂, hproper₂⟩ :=
        ih hm₁ henv₁ hconceals₁ fun p hp => hrest p (List.mem_cons_of_mem program hp)
      rw [hmarks₁] at hmarks₂ hproper₂
      refine ⟨hsound, henv₂, hconceals₂, ?_, properFrom_append.mpr ⟨hproper₁, hproper₂⟩⟩
      rw [Machine.chronicle, marksAfter_append]
      exact hmarks₂

/-! ## Sessions -/

/-- What a unit of a session on such a machine prints. -/
theorem run_printsGiven {s : Session} (hm : s.machine.Sound w) (henv : s.machine.env = globalEnv)
    (hconceals : s.machine.Conceals) {source : String} {name : Option String} {typed : Bool}
    (hprogram : ∀ program, (s.reading source name typed).accepted? = some program →
      program ∈ programs) :
    s.PrintsGiven source name typed := by
  refine ⟨fun hnone => ?_, fun program hread => ?_⟩
  · rw [Session.run_report]
    exact (s.respond_of_not_accepted name typed stepBudget _ hnone).1
  · obtain ⟨_, hprinted, hmachine⟩ :=
      s.respond_of_accepted name typed stepBudget (sourceLines source) hread
    obtain ⟨hend, _, houtput, hproper⟩ := interpretWith_conceals haccepted stepBudget hm henv
      hconceals (hprogram program hread)
    rw [Session.run_report, Session.run_after, hprinted, hmachine, s.executed_machine]
    refine ⟨?_, fun x hx => ?_, hend.lastValue, hend⟩
    · rw [← houtput, Session.executed]
      generalize s.machine.interpretWith stepBudget program = finish
      obtain ⟨finish, m⟩ := finish
      cases finish with
      | completed => exact ⟨_, rfl, s.shownValue_cases typed program m⟩
      | _ => exact ⟨[], (List.append_nil _).symm, .inl rfl⟩
    · obtain ⟨past, rest, heq⟩ := List.append_of_mem hx
      rw [heq] at hproper
      exact hproper.at.shown

end

/-- If all moments are proper, no activity is given the marker and none gives it. -/
theorem given_of_proper {m : Machine} {budget : Nat} {programs : List (List (Stmt Slot))}
    (h : ∀ past x rest, m.chronicle budget programs = past ++ x :: rest →
      x.Proper (Vacant past)) {a : Activity} (ha : m.activities budget programs a) :
    (∀ f vs, a.task = .call f vs → f.Given ∧ ∀ v ∈ vs, v.Given) ∧
      ∀ vs m', perform a.budget a.task a.machine = .ok vs m' → ∀ v ∈ vs, v.Given := by
  have hvalues : ∀ x : Moment, x.activity.task.isOpening = false → x.Happens →
      x.activity = a → ∀ v ∈ x.values, v.Given := by
    rintro x hx happens rfl
    obtain ⟨past, rest, heq⟩ := List.append_of_mem
      ((mem_machine_chronicle budget programs x).mpr ⟨hx, happens, ha⟩)
    exact (h past x rest heq).values
  refine ⟨fun f vs htask => ?_, fun vs m' hperform => ?_⟩
  · have harguments := hvalues (.begins a) (by rw [Moment.activity, htask]; rfl) trivial rfl
    obtain ⟨_, _, _⟩ := a
    cases htask
    exact List.forall_mem_cons.mp harguments
  · cases htask : a.task with
    | opens o E =>
        rw [htask, perform] at hperform
        cases hperform
        exact fun v hv => absurd hv List.not_mem_nil
    | _ => exact hvalues (.completes a vs m') (by rw [Moment.activity, htask]; rfl) hperform rfl

/-- The unit that a session runs after accepted programs is one more that is accepted, if it
is run at all. -/
theorem next_printsGiven {natives : NativeTable} (hnatives : natives.HasNativeVectors)
    (readings : Nat → Float) (budget : Nat) {programs : List (List (Stmt Slot))}
    (haccepted : ∀ program ∈ programs, Accepted program) {s : Session}
    (hs : s.machine = ((Machine.start natives readings).runAll budget programs).2)
    (source : String) (name : Option String) (typed : Bool) :
    s.PrintsGiven source name typed := by
  let next := (UnitReading.ofSource s.importer s.settings.errorLimit name typed source).accepted?
  have hall : ∀ program ∈ programs ++ next.toList, Accepted program := by
    intro program hprogram
    rcases List.mem_append.mp hprogram with hprogram | hprogram
    · exact haccepted program hprogram
    · exact UnitReading.accepted?_accepted (Option.mem_toList.mp hprogram)
  obtain ⟨⟨w, hsound⟩, henv, hconceals, _⟩ := runAll_conceals hall budget
    (start_sound hnatives readings) rfl (start_conceals natives readings)
    fun p hp => List.mem_append_left next.toList hp
  rw [← hs] at hsound henv hconceals
  exact run_printsGiven hall hsound henv hconceals fun program hprogram =>
    List.mem_append_right _ (Option.mem_toList.mpr hprogram)

/-- Accepted programs on a new machine keep the marker hidden. -/
theorem start_keepsMarkerHidden {natives : NativeTable} (hnatives : natives.HasNativeVectors)
    (readings : Nat → Float) (budget : Nat) {programs : List (List (Stmt Slot))}
    (haccepted : ∀ program ∈ programs, Accepted program) :
    KeepsMarkerHidden budget (Machine.start natives readings) programs := by
  have hstart := start_conceals natives readings
  obtain ⟨_, _, hconceals, hmarks, hproper⟩ := runAll_conceals haccepted budget
    (start_sound hnatives readings) rfl hstart fun _ hp => hp
  have hvacant (past : List Moment) : marksAfter (Machine.start natives readings).marks past =
      Vacant past := marksAfter_eq_vacant (start_not_marked natives readings)
  have hmoments : ∀ past x rest, (Machine.start natives readings).chronicle budget programs =
      past ++ x :: rest → x.Proper (Vacant past) := by
    intro past x rest heq
    rw [heq] at hproper
    exact hvacant past ▸ hproper.at
  have hbegins : ∀ past a rest, (Machine.start natives readings).chronicle budget programs =
      past ++ .begins a :: rest → a.machine.marks = Vacant past :=
    fun past a rest heq => (hmoments past _ rest heq).marks
  refine ⟨mem_machine_chronicle budget programs, hmoments, ?_, ⟨hconceals, ?_⟩, ?_, ?_, ?_, ?_⟩
  · exact fun a ha => given_of_proper hmoments ha
  · rw [hmarks, hvacant]
  · intro past a rest heq n node t slot hnode _ _
    rw [← hbegins past a rest heq, ← lookUp_lacksValue]
    rcases hnode with rfl | rfl <;> rw [eval]
  · intro past a rest heq n name r methods _ _
    rw [← hbegins past a rest heq, ← lookUp_lacksValue]
    exact classDecl_lacksValue
  · rintro past program rest rfl
    obtain ⟨⟨_, hsound⟩, henv, hconceals, _⟩ := runAll_conceals haccepted budget
      (start_sound hnatives readings) rfl hstart fun p hp => List.mem_append_left _ hp
    exact (interpretWith_conceals haccepted budget hsound henv hconceals
      (List.mem_append_right past List.mem_cons_self)).2.2.1
  · exact fun s hs source name typed =>
      next_printsGiven hnatives readings budget haccepted hs source name typed

/-- Whatever units are given to the interpreter, one after the other, the marker of
variables without a value is never seen. -/
theorem units_keepMarkerHidden {natives : NativeTable} (hnatives : natives.HasNativeVectors)
    (readings : Nat → Float) (budget : Nat) (units : List SourceUnit) :
    KeepsMarkerHidden budget (Machine.start natives readings)
      (units.filterMap (·.reading.accepted?)) := by
  refine start_keepsMarkerHidden hnatives readings budget fun program hprogram => ?_
  obtain ⟨u, _, hu⟩ := List.mem_filterMap.mp hprogram
  exact UnitReading.accepted?_accepted hu

/-- The error of the program that a unit ended with. -/
def UnitEnd.fault? : UnitEnd → Option RuntimeFault
  | .error e => some e.fault
  | _ => none

/-- A function reads a variable before and after it is assigned in later units, and a class
takes the name of a variable without a value. One unit is rejected. -/
def vacantUnits : List SourceUnit :=
  [{ importer := ⟨⟨[], false⟩, {}⟩
     limit := .count 20
     source := "var x; var A; fun get() \x7b return x; \x7d" },
   { importer := ⟨⟨[], false⟩, {}⟩
     limit := .count 20
     source := "print get();" },
   { importer := ⟨⟨[], false⟩, {}⟩
     limit := .count 20
     source := "var x = ;" },
   { importer := ⟨⟨[], false⟩, {}⟩
     limit := .count 20
     source := "class A \x7b m() \x7b return [x]; \x7d \x7d x = get; print A().m();" }]

theorem units_keepMarkerHidden_redeclared :
    let programs := vacantUnits.filterMap (·.reading.accepted?)
    let run := (Machine.start NativeTable.standard fun _ => 0).runAll 100 programs
    run.1.map UnitEnd.fault? = [none, some .unassignedVariable, none] ∧
      run.2.output.toList = ["[<fn get>]"] ∧
      NativeTable.standard.HasNativeVectors ∧
      KeepsMarkerHidden 100 (Machine.start NativeTable.standard fun _ => 0) programs := by
  have hnatives : NativeTable.standard.HasNativeVectors := ⟨_, rfl⟩
  refine ⟨by decide +kernel, by decide +kernel, hnatives, ?_⟩
  exact units_keepMarkerHidden hnatives (fun _ => 0) 100 vacantUnits

end Lox
