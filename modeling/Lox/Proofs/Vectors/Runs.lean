import Lox.Proofs.Registrations
import Lox.Proofs.Vacancy.Runs
import Lox.Proofs.Vectors.Evaluation

/-!
# Vectors are lists

Programs run one after the other on a machine, and whatever they do, at every moment their vectors
are the lists that the moments before have made. A method that was taken from a vector appends to
that list, gives its length and gives its elements, at any later time. An index is good if it is a
number, an integer, and not too far from either end; with every other one the call fails and
nothing is changed.
-/

namespace Lox

open Eval

/-- The vectors after some moments, if there were none before. -/
def vectorsAfter (past : List Moment) : Lists :=
  listsAfter (fun _ => none) past

/-- The call of a method of a vector ends as the same is done with the list `l` of the vector. -/
structure ListCall (L : Lists) (ref : Nat) (l : List Value) (f : Native) (arguments : List Value)
    (m : Machine) (r : Result Value) : Prop where
  /-- One vector is extended by the value, and no other vector is changed. -/
  append : f.body = .append → ∀ v, arguments = [v] →
    r = .ok .nil (m.pushed ref v) ∧ (m.pushed ref v).lists = (VectorDeed.append ref v).apply L
  /-- As far as doubles count, the length is exact. -/
  length : f.body = .length → arguments = [] → ∃ x, r = .ok (.number x) m ∧
    x = l.length.toFloat ∧ (l.length ≤ 2 ^ 53 → IsInteger x l.length)
  elementAt : f.body = .elementAt → ∀ index, arguments = [index] → Elements l index m r

/-- Vectors are lists while the programs are run from the machine. -/
structure VectorsAreLists (budget : Nat) (m : Machine) (programs : List (List (Stmt Slot))) :
    Prop where
  /-- Every call of the evaluator has its moments: that in which it begins and, if it is not
  aborted, that in which it completes with what it gives. -/
  recorded : ∀ x, x ∈ m.chronicle budget programs ↔
    x.activity.task.isOpening = false ∧ x.Happens ∧ m.activities budget programs x.activity
  /-- At each moment the vectors are the lists that were made before. -/
  begins : ∀ past a rest, m.chronicle budget programs = past ++ .begins a :: rest →
    a.machine.lists = vectorsAfter past
  completes : ∀ past a vs m' rest,
    m.chronicle budget programs = past ++ .completes a vs m' :: rest →
      m'.lists = vectorsAfter (past ++ [.completes a vs m'])
  finish : (m.runAll budget programs).2.lists = vectorsAfter (m.chronicle budget programs)
  /-- A vector that is made is a new one. -/
  fresh : ∀ past x rest, m.chronicle budget programs = past ++ x :: rest →
    ∀ ref vs, x.deed? = some (.make ref vs) → vectorsAfter past ref = none
  /-- The call of the class of vectors makes one without elements. -/
  creations : ∀ past n c vs m' rest,
    m.chronicle budget programs = past ++ .begins ⟨n + 1, .call (.cls c) vs, m'⟩ :: rest →
      c.body.isVector = true → ∃ ref m'', call (n + 1) (.cls c) vs m' = .ok (.object ref) m'' ∧
        m''.lists = (VectorDeed.make ref []).apply (vectorsAfter past)
  /-- A literal makes one with the values of its expressions. -/
  literals : ∀ past n bracket es m' values m'' rest, m.chronicle budget programs =
      past ++ .completes ⟨n + 1, .eval (.vector bracket es), m'⟩ values m'' :: rest →
    ∃ ref vs m₁, evalAll n es m' = .ok vs m₁ ∧ values = [.object ref] ∧
      m''.lists = (VectorDeed.make ref vs).apply (vectorsAfter past)
  /-- A property of a vector that is not one of its fields is its method. -/
  methods : ∀ n e name m', m.activities budget programs ⟨n + 1, .eval (.get e name), m'⟩ →
    ∀ ref m₁ i l, eval n e m' = .ok (.object ref) m₁ → m₁.lists ref = some l →
      m₁.objects[ref]? = some i → i.fields.find? name.lexeme = none →
        ∀ f ∈ NativeTable.standardVectorMethods, f.name = name.lexeme →
          eval (n + 1) (.get e name) m' =
            .ok (.nativeMethod m₁.nextId f (.object ref)) { m₁ with nextId := m₁.nextId + 1 }
  /-- The method does with the vector what is done with the list, whenever it is called. -/
  calls : ∀ past n id f ref vs m' rest, m.chronicle budget programs =
      past ++ .begins ⟨n + 1, .call (.nativeMethod id f (.object ref)) vs, m'⟩ :: rest →
    ∀ l, vectorsAfter past ref = some l → ListCall (vectorsAfter past) ref l f vs m'
      (call (n + 1) (.nativeMethod id f (.object ref)) vs m')

/-! ## Calls of methods -/

section

variable {m : Machine} {ref : Nat} {l : List Value}

theorem call_listCall (h : m.lists ref = some l) (n id : Nat) (f : Native) (vs : List Value) :
    ListCall m.lists ref l f vs m (call (n + 1) (.nativeMethod id f (.object ref)) vs m) := by
  have hcall : call (n + 1) (.nativeMethod id f (.object ref)) vs m =
      runFunction f (.object ref :: vs) m := by
    rw [call]
    rfl
  rw [hcall]
  refine ⟨fun hf v hvs => ?_, fun hf hvs => ?_, fun hf index hvs => ?_⟩
  · rw [hvs, runFunction_append _ v hf]
    exact ⟨appendTo_eq h v, lists_pushed m ref v⟩
  · rw [hvs, runFunction_length _ hf]
    exact ⟨_, lengthOf_eq h, rfl, isInteger_toFloat⟩
  · rw [hvs, runFunction_elementAt _ index hf]
    exact elementAt_elements h index

/-- The call of a class of vectors without an initializer. -/
theorem call_vectorClass {c : Class} (hc : c.body.isVector = true)
    (hinit : c.findMethod? initializerName = none) (n : Nat) (vs : List Value) (m : Machine) :
    call (n + 1) (.cls c) vs m = .ok (.object m.objects.size)
      { m with objects := m.objects.push ⟨c, [], some #[]⟩ } := by
  rw [call, bind_apply, if_pos hc]
  simp only [allocate, hinit]
  rfl

theorem getProperty_method {V : Class} (hm : m.Genuine V) {i : Instance} {name : Token} {f : Native}
    (hl : m.lists ref = some l) (hi : m.objects[ref]? = some i)
    (hfield : i.fields.find? name.lexeme = none)
    (hf : V.findMethod? name.lexeme = some (.native f)) :
    getProperty (.object ref) name m =
      .ok (.nativeMethod m.nextId f (.object ref)) { m with nextId := m.nextId + 1 } := by
  have hvector : i.elements ≠ none := by
    intro hnone
    rw [Machine.lists, hi, Option.bind_some, hnone] at hl
    cases hl
  rw [Comparison.getProperty_object, hi]
  simp only [hfield, (hm.objects ref i hi).cls hvector, hf]
  rfl

end

/-! ## Programs one after the other -/

section

variable {V : Class} {m : Machine}

theorem interpretWith_replays (budget : Nat) (hm : m.Genuine V) (program : List (Stmt Slot)) :
    (m.interpretWith budget program).2.Genuine V ∧
      (m.interpretWith budget program).2.lists =
        listsAfter m.lists (Eval.chronicle budget (.unit program) m.fresh) ∧
      FaithfulFrom V m.lists (Eval.chronicle budget (.unit program) m.fresh) := by
  have hfresh : m.fresh.Genuine V := hm.congr rfl rfl rfl
  have hreplays : Replays V m.fresh.lists (Eval.chronicle budget (.unit program) m.fresh) anything
      (Eval.execUnit budget program m.fresh) :=
    ((replaying V).holds budget).execUnit (w := ()) hfresh trivial
  obtain ⟨hgenuine, hlists, _, hmoments⟩ := hreplays
  rw [Machine.interpretWith_machine]
  exact ⟨hgenuine, hlists, hmoments⟩

theorem runAll_replays (budget : Nat) (hm : m.Genuine V) (programs : List (List (Stmt Slot))) :
    (m.runAll budget programs).2.lists = listsAfter m.lists (m.chronicle budget programs) ∧
      FaithfulFrom V m.lists (m.chronicle budget programs) := by
  induction programs generalizing m with
  | nil => exact ⟨rfl, trivial⟩
  | cons program rest ih =>
      obtain ⟨hm₁, hlists₁, hmoments₁⟩ := interpretWith_replays budget hm program
      obtain ⟨hlists₂, hmoments₂⟩ := ih hm₁
      rw [hlists₁] at hlists₂ hmoments₂
      refine ⟨?_, faithfulFrom_append.mpr ⟨hmoments₁, hmoments₂⟩⟩
      rw [Machine.chronicle, listsAfter_append]
      exact hlists₂

theorem start_genuine (natives : NativeTable) (readings : Nat → Float) :
    (Machine.start natives readings).Genuine natives.vectorClass := by
  refine ⟨fun k name v hv => ?_, nofun, rfl⟩
  cases k with
  | zero =>
      rcases List.mem_append.mp (Machine.mem_globals hv) with hmem | hmem
      · obtain ⟨_, _, heq⟩ := List.mem_map.mp hmem
        cases heq
        exact trivial
      · cases List.mem_singleton.mp hmem
        exact fun _ => rfl
  | succ k => cases hv

end

/-- The standard methods of vectors are found in their class. -/
theorem findMethod?_vectorClass {f : Native} (hf : f ∈ NativeTable.standardVectorMethods) :
    NativeTable.standard.vectorClass.findMethod? f.name = some (.native f) := by
  simp only [NativeTable.standardVectorMethods, List.mem_cons, List.not_mem_nil, or_false] at hf
  rcases hf with rfl | rfl | rfl <;> rfl

/-- A literal that completes has made a vector of the values of its expressions. -/
theorem literal_makes {V : Class} {L : Lists} {n : Nat} {bracket : Token} {es : List (Expr Slot)}
    {values : List Value} {m m' : Machine}
    (h : (Moment.completes ⟨n + 1, .eval (.vector bracket es), m⟩ values m').Faithful V L)
    (happens : (Moment.completes ⟨n + 1, .eval (.vector bracket es), m⟩ values m').Happens) :
    ∃ ref vs m₁, evalAll n es m = .ok vs m₁ ∧ values = [.object ref] ∧
      m'.lists = (VectorDeed.make ref vs).apply L := by
  have hperform : (eval (n + 1) (.vector bracket es) m).map (fun v => [v]) = .ok values m' :=
    happens
  cases hes : evalAll n es m with
  | abort r m₁ =>
      rw [eval_vector_abort hes] at hperform
      cases hperform
  | ok vs m₁ =>
      rw [eval_vector_ok hes] at hperform
      cases hperform
      refine ⟨m₁.objects.size, vs, m₁, rfl, rfl, ?_⟩
      rw [h.completes _ _ _ rfl, Moment.lists, deed?_vector hes]
      rfl

theorem machine_vectorsAreLists (budget : Nat) {m : Machine}
    (hm : m.Genuine NativeTable.standard.vectorClass) (hnone : m.lists = fun _ => none)
    (programs : List (List (Stmt Slot))) : VectorsAreLists budget m programs := by
  obtain ⟨hfinish, hmoments⟩ := runAll_replays budget hm programs
  rw [hnone] at hfinish hmoments
  have hmoment : ∀ past x rest, m.chronicle budget programs = past ++ x :: rest →
      x.Faithful NativeTable.standard.vectorClass (vectorsAfter past) := by
    intro past x rest heq
    rw [heq] at hmoments
    exact hmoments.at
  have hmem : ∀ past x rest, m.chronicle budget programs = past ++ x :: rest →
      x ∈ m.chronicle budget programs := by
    intro past x rest heq
    rw [heq]
    exact List.mem_append_right _ List.mem_cons_self
  refine ⟨mem_machine_chronicle budget programs, ?begins, ?completes, hfinish, ?fresh, ?creations,
    ?literals, ?methods, ?calls⟩
  case begins => exact fun past a rest heq => (hmoment past _ rest heq).begins a rfl
  case completes =>
    intro past a vs m' rest heq
    rw [vectorsAfter, listsAfter_append]
    exact (hmoment past _ rest heq).completes a vs m' rfl
  case fresh => exact fun past x rest heq => (hmoment past x rest heq).fresh
  case creations =>
    intro past n c vs m' rest heq hvector
    have hmoment := hmoment past _ rest heq
    obtain rfl := hmoment.task _ rfl hvector
    refine ⟨_, _, call_vectorClass hvector rfl n vs m', ?_⟩
    rw [lists_push_some m' _ rfl, show m'.lists = vectorsAfter past from hmoment.begins _ rfl]
  case literals =>
    intro past n bracket es m' values m'' rest heq
    refine literal_makes (hmoment past _ rest heq) ?_
    exact ((mem_machine_chronicle budget programs _).mp (hmem past _ rest heq)).2.1
  case methods =>
    intro n e name m' ha ref m₁ i l he hl hi hfield f hf hname
    obtain ⟨past, rest, heq⟩ := List.append_of_mem
      ((mem_machine_chronicle budget programs (.begins ⟨n + 1, .eval (.get e name), m'⟩)).mpr
        ⟨rfl, trivial, ha⟩)
    have hm' : m'.Genuine NativeTable.standard.vectorClass := (hmoment past _ rest heq).genuine
    have hm₁ := (((replaying _).holds n).eval (w := ()) (e := e) hm' trivial).genuine
    rw [he] at hm₁
    rw [eval, bind_apply, he]
    exact getProperty_method hm₁ hl hi hfield (hname ▸ findMethod?_vectorClass hf)
  case calls =>
    intro past n id f ref vs m' rest heq l hl
    have hlists : m'.lists = vectorsAfter past := (hmoment past _ rest heq).begins _ rfl
    rw [← hlists] at hl ⊢
    exact call_listCall hl n id f vs

/-- Whatever is registered beside the standard natives and whatever programs are run, vectors are
lists. -/
theorem programs_vectorsAreLists (added : List Registration) (readings : Nat → Float) (budget : Nat)
    (programs : List (List (Stmt Slot))) :
    VectorsAreLists budget (Machine.start (NativeTable.standard.addAll added) readings)
      programs := by
  refine machine_vectorsAreLists budget ?_ rfl programs
  rw [← NativeTable.vectorClass_addAll NativeTable.standard added]
  exact start_genuine (NativeTable.standard.addAll added) readings

/-- A vector is an element of another one, which a method that was taken from it appends to in a
later unit. The last index is too far from the end. -/
def vectorUnits : List SourceUnit :=
  [{ importer := ⟨⟨[], false⟩, {}⟩
     limit := .count 20
     source := "var v = [1, true]; var w = vec(); var push = v.append; w.append(v);" },
   { importer := ⟨⟨[], false⟩, {}⟩
     limit := .count 20
     source := "push(w.length()); print v; print w.at(-1).at(2); print v.at(-4);" }]

example :
    let run := (Machine.start NativeTable.standard fun _ => 0).runAll 100
      (vectorUnits.filterMap (·.reading.accepted?))
    run.2.output.toList = ["[1, true, 1]", "1"] ∧
      run.1.map UnitEnd.fault? = [none, some (.nativeFailure
        "Negative index -4 is out of bounds for vector of length 3.")] := by
  decide +kernel

end Lox
