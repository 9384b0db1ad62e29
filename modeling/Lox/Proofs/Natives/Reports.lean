import Lox.Proofs.Histories
import Lox.Proofs.Natives.Evaluation

/-!
# How calls of native functions end

In a history of a session with the standard natives, a call of a native function gives
a value or reports an error at its closing parenthesis, with one exception. A class of
the program can inherit from the class of vectors, and its instances have the methods of
vectors but no elements. A method that needs the elements of such an instance breaks
down, and what it breaks down with is not caught at the call or anywhere else.

Nothing else escapes from a session: a search by distance never fails, what `super`
finds is always a class, and no failure of a native function comes out of the call that
it happens in.
-/

namespace Lox

open Eval

/-- Is the value a native function, or a native method that was taken from something? -/
def Value.isNative : Value → Bool
  | .native _ _ => true
  | .nativeMethod _ _ _ => true
  | _ => false

/-- How the call of a native function ends, where `m` is the machine it is called on. -/
inductive NativeCallEnd (callee : Value) (paren : Token) (m : Machine) : Result Value → Prop
  | value {v : Value} {m' : Machine} : NativeCallEnd callee paren m (.ok v m')
  | error {fault : RuntimeFault} {m' : Machine} :
      NativeCallEnd callee paren m (.abort (.error ⟨fault, paren⟩) m')
  /-- A method of vectors was called on an instance of another class. -/
  | notVector {id ref : Nat} {f : Native} {i : Instance} :
      callee = .nativeMethod id f (.object ref) → m.objects[ref]? = some i →
      i.elements = none → i.cls.body.isVector = false →
      NativeCallEnd callee paren m (.abort (.fault .notVector) m)

/-- Failures of native functions are reported in a history of the session. -/
structure Session.ReportsFailures (s : Session) (steps : List SessionStep) : Prop where
  /-- A call of a native function gives a value or an error at its parenthesis, unless
  it is that of a method of vectors on something else. -/
  calls : ∀ a, s.machine.activities stepBudget (s.programs steps) a →
    ∀ n callee paren arguments, a.budget = n + 1 → a.task = .eval (.call callee paren arguments) →
      ∀ f vs m₁ m₂, eval n callee a.machine = .ok f m₁ → evalAll n arguments m₁ = .ok vs m₂ →
        f.isNative = true →
        NativeCallEnd f paren m₂ (eval (n + 1) (.call callee paren arguments) a.machine)
  /-- Nothing escapes but that a unit could not be read, that the budget is spent, or that
  a method of vectors was called on something else. -/
  escapes : ∀ answer ∈ (s.performAll steps).1, ∀ e, answer.escape? = some e →
    (∃ halt, e = .halt halt) ∨ e = .spent ∨ e = .fault .notVector

/-! ## Machines with the standard natives -/

theorem vectorClass_regular : NativeTable.standard.vectorClass.Regular := by
  intro name method h
  have hmethods : NativeTable.standard.vectorClass.body.methods =
      NativeTable.standardVectorMethods.map fun n => (n.name, .native n) := rfl
  have hmem := Bindings.mem_of_find? (b := NativeTable.standard.vectorClass.body.methods) h
  rw [hmethods] at hmem
  obtain ⟨n, hn, heq⟩ := List.mem_map.mp hmem
  cases heq
  exact .native hn

theorem globals_boundTo : ∀ x ∈ NativeTable.standard.globals, x.2.BoundTo 0 x.1 := by
  intro x hx
  rcases List.mem_append.mp hx with hx | hx
  · obtain ⟨⟨⟨name, n⟩, i⟩, hentry, rfl⟩ := List.mem_map.mp hx
    obtain ⟨f, hf, heq⟩ :=
      List.mem_map.mp (List.mem_of_getElem? (List.mem_zipIdx_iff_getElem?.mp hentry))
    have hnames : ∀ f ∈ NativeTable.standardFunctions,
        f.name ≠ superName ∧ f.name ≠ thisName := by decide
    cases heq
    exact ⟨.native hf, fun h => absurd h (hnames _ hf).1, fun h => absurd h (hnames _ hf).2⟩
  · rw [List.mem_singleton.mp hx]
    exact ⟨.cls vectorClass_regular, fun h => absurd h (by decide), fun h => absurd h (by decide)⟩

theorem start_regular (readings : Nat → Float) :
    (Machine.start NativeTable.standard readings).Regular where
  frames id name v h := by
    cases id with
    | zero => exact globals_boundTo _ (Machine.mem_globals h)
    | succ id => cases h
  objects ref i h := by cases h
  vectorClass := vectorClass_regular

/-! ## Units one after the other -/

theorem Machine.Regular.fresh {m : Machine} (h : m.Regular) : m.fresh.Regular :=
  ⟨h.frames, h.objects, h.vectorClass⟩

/-- A unit leaves a regular machine, and only searches for variables and methods of
vectors on something else come out of it as faults. -/
theorem interpretWith_regular {m : Machine} (budget : Nat) (hm : m.Regular)
    {program : List (Stmt Slot)} (hprogram : Stmt.WellFormedAll program) :
    (m.interpretWith budget program).2.Regular ∧
      (∀ f, (m.interpretWith budget program).1 = .fault f → f.IsMiss ∨ f = .notVector) ∧
      ∀ a, visits budget (.unit program) m.fresh a → a.Regular := by
  obtain ⟨_, hregular, hends, hvisits⟩ := (keeping.holds budget).execUnit ⟨hm.fresh, rfl⟩ hprogram
  rw [Machine.interpretWith]
  generalize execUnit budget program m.fresh = r at hregular hends
  rcases r with ⟨_, _⟩ | ⟨_ | _ | f | _, _⟩
  · exact ⟨hregular, fun _ h => UnitEnd.noConfusion h, hvisits⟩
  · exact ⟨hregular, fun _ h => UnitEnd.noConfusion h, hvisits⟩
  · exact hends.elim
  · refine ⟨hregular, fun f' h => ?_, hvisits⟩
    cases h
    exact hends
  · exact ⟨hregular, fun _ h => UnitEnd.noConfusion h, hvisits⟩

theorem runAll_regular (budget : Nat) {m : Machine} (hm : m.Regular)
    {programs : List (List (Stmt Slot))}
    (hprograms : ∀ program ∈ programs, Stmt.WellFormedAll program) :
    (∀ finish ∈ (m.runAll budget programs).1, ∀ f, finish = .fault f →
        f.IsMiss ∨ f = .notVector) ∧
      ∀ a, m.activities budget programs a → a.Regular := by
  induction programs generalizing m with
  | nil => exact ⟨fun _ h => absurd h List.not_mem_nil, fun _ h => h.elim⟩
  | cons program rest ih =>
      obtain ⟨hm₁, hend, hvisits⟩ :=
        interpretWith_regular budget hm (hprograms program List.mem_cons_self)
      obtain ⟨hends, hrest⟩ := ih hm₁ fun p hp => hprograms p (List.mem_cons_of_mem program hp)
      refine ⟨fun finish hfinish => ?_, fun a ha => ?_⟩
      · rcases List.mem_cons.mp hfinish with rfl | hfinish
        · exact hend
        · exact hends finish hfinish
      · rcases ha with ha | ha
        · exact hvisits a ha
        · exact hrest a ha

/-! ## Calls -/

/-- A call of a native function on a regular machine, after its callee and its arguments. -/
theorem nativeCall_ends {m : Machine} {n : Nat} {f : Value} {vs : List Value} {paren : Token}
    (hm : m.Regular) (hf : f.Regular m.objects.size) (hvs : ∀ v ∈ vs, v.Regular m.objects.size)
    (hnative : f.isNative = true) :
    NativeCallEnd f paren m
      ((checkCall f vs.length paren >>= fun _ => reporting paren (call (n + 1) f vs)) m) := by
  by_cases harity : f.arity? = some vs.length
  · rw [bind_apply, Comparison.checkCall_ok harity]
    cases hf with
    | native hf =>
        simp only [Value.arity?, Option.some.injEq] at harity
        obtain ⟨v, _, _, hx⟩ := runFunction_standard (m := m) hf harity.symm
        simp only [reporting, call, hx]
        exact .value
    | @nativeMethod id ref g hg href =>
        simp only [Value.arity?, Option.some.injEq] at harity
        have hi := Array.getElem?_eq_getElem href
        have hend := runMethod_standard hg hm hi hvs harity.symm
        simp only [reporting, call]
        generalize runMethod g (.object ref) vs m = r at hend
        cases hend with
        | value _ _ _ => exact .value
        | failure => exact .error
        | notVector he => exact .notVector rfl hi he ((hm.objects ref _ hi).vector he)
    | _ => cases hnative
  · rw [bind_apply, checkCall]
    cases hf with
    | native _ =>
        simp only [Value.arity?, Option.some.injEq] at harity ⊢
        rw [if_neg (Ne.symm harity)]
        exact .error
    | nativeMethod _ _ =>
        simp only [Value.arity?, Option.some.injEq] at harity ⊢
        rw [if_neg (Ne.symm harity)]
        exact .error
    | _ => cases hnative

theorem Activity.Regular.nativeCall {a : Activity} (ha : a.Regular) {n : Nat}
    {callee : Expr Slot} {paren : Token} {arguments : List (Expr Slot)}
    (htask : a.task = .eval (.call callee paren arguments)) {f : Value} {vs : List Value}
    {m₁ m₂ : Machine} (hf : eval n callee a.machine = .ok f m₁)
    (hvs : evalAll n arguments m₁ = .ok vs m₂) (hnative : f.isNative = true) :
    NativeCallEnd f paren m₂ (eval (n + 1) (.call callee paren arguments) a.machine) := by
  obtain ⟨⟨hcallee, harguments⟩, hm⟩ := ha _ htask
  cases n with
  | zero => cases hf
  | succ n =>
      obtain ⟨_, hm₁, hf₁, _⟩ := (keeping.holds (n + 1)).eval ⟨hm, rfl⟩ hcallee
      rw [hf] at hm₁ hf₁
      replace hm₁ : m₁.Regular := hm₁
      obtain ⟨hle, hm₂, hvs₂, _⟩ := (keeping.holds (n + 1)).evalAll ⟨hm₁, rfl⟩ harguments
      rw [hvs] at hle hm₂ hvs₂
      rw [eval, bind_apply, hf]
      simp only []
      rw [bind_apply, hvs]
      exact nativeCall_ends hm₂ (hf₁.mono hle) hvs₂ hnative

/-- Failures of native functions are reported in every history that starts on a session
with the standard natives, but for methods of vectors that a class of the program has
inherited. -/
theorem Session.reportsFailures (settings : Settings) (files : Files) (base : AbsPath)
    (readings : Nat → Float) (steps : List SessionStep) :
    (bare settings files base readings).ReportsFailures steps := by
  have haccepted := (bare settings files base readings).programs_accepted steps
  obtain ⟨hends, hvisits⟩ := runAll_regular stepBudget (start_regular readings)
    fun program hprogram => (haccepted program hprogram).wellFormed
  have hvectors : NativeTable.standard.HasNativeVectors := ⟨_, rfl⟩
  obtain ⟨_, hfollowed⟩ := start_followed haccepted hvectors readings stepBudget
  refine ⟨?_, ?_⟩
  · intro a ha n callee paren arguments _ htask f vs m₁ m₂ hf hvs hnative
    exact (hvisits a ha).nativeCall htask hf hvs hnative
  · intro answer hanswer e he
    rcases performAll_escape _ hanswer he with hhalt | ⟨finish, hfinish, he⟩
    · exact .inl hhalt
    · cases finish with
      | completed => cases he
      | error e => cases he
      | spent =>
          cases he
          exact .inr (.inl rfl)
      | fault f =>
          cases he
          have hmiss := hfollowed.ends _ hfinish f rfl
          obtain rfl := (hends _ hfinish f rfl).resolve_left hmiss
          exact .inr (.inr rfl)

/-- A class of the program that inherits a method which breaks down. -/
example : ((Session.bare {} {} ⟨[], false⟩ (fun _ => 0)).run
    "class V < vec \x7b\x7d V().append(nil);").1.outcome matches .escaped (.fault .notVector) := by
  decide +kernel

end Lox
