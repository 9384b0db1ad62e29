import Lox.Proofs.Vacancy.Steps

/-!
# Declarations and assignments

The activities that write variables of the program. A declaration without an initializer
marks its variable, and every other declaration and every assignment removes the mark,
in the environment in which the activity began, since an initializer restores it. A class
statement marks its name only for the time in which the frame of its superclass is made.
Nothing can fail there, so if it is aborted it has not marked the name yet.
-/

namespace Lox

open Eval

/-! ## The variables that are written -/

/-- A declaration fills its variable, unless it lacks an initializer. -/
theorem fills_declaration {s : Stmt Slot} {t : Token} (hdeclared : s.declared? = some t)
    (hs : s ≠ .varDecl t none) {E : Env} {k : FrameId} {n : String} :
    Task.Fills (.exec s) E k n ↔ E.head? = some k ∧ n = t.lexeme := by
  cases s with
  | varDecl name initializer =>
      cases hdeclared
      cases initializer with
      | none => exact absurd rfl hs
      | some value => exact Iff.rfl
  | function f =>
      cases hdeclared
      exact Iff.rfl
  | classDecl name superclass methods =>
      cases hdeclared
      exact Iff.rfl
  | _ => cases hdeclared

theorem not_vacates {s : Stmt Slot} {t : Token} (hdeclared : s.declared? = some t)
    (hs : s ≠ .varDecl t none) {E : Env} {k : FrameId} {n : String} :
    ¬ Task.Vacates (.exec s) E k n := by
  cases s with
  | varDecl name initializer =>
      cases hdeclared
      cases initializer with
      | none => exact absurd rfl hs
      | some value => exact id
  | _ => exact id

/-- The frame that an assignment changes is that of its variable. -/
theorem Frames.frame?_of_target {F : Frames Value} {E : Env} {name : String} {slot : Slot}
    {id : FrameId} (h : F.target E name slot = .ok id) : E.frame? slot = some id := by
  cases slot with
  | some d =>
      rw [target] at h
      rw [Env.frame?]
      cases hd : E[d]? with
      | some k =>
          rw [hd] at h
          cases h
          rfl
      | none =>
          rw [hd] at h
          cases h
  | none =>
      rw [target, owner?_globalEnv] at h
      by_cases hbound : (F.binding? 0 name).isSome
      · rw [if_pos hbound] at h
        cases h
        rfl
      · rw [if_neg hbound] at h
        cases h

theorem Frames.define_eq_bind {E E' : Env} {k : FrameId} (h : E = k :: E') (F : Frames Value)
    (name : String) (v : Value) : F.define E name v = F.bind k name v := by
  rw [h]
  rfl

/-! ## Their moments -/

section

variable {α β : Type} {n : Nat} {m : Machine} {l : List Moment}

/-- An activity that is aborted by what is inside of it. -/
theorem Concealed.closes_of_abort {a : Activity} {P : β → Prop} {Q : α → Prop}
    {g : α → List Value} {y : Eval β} {r : Abort} {m' : Machine}
    (h : Concealed l P y a.machine) (hy : y a.machine = .abort r m') :
    Closes a l g Q (.abort r m') := by
  obtain ⟨hconceals, hmarks, houtput, _, hproper⟩ := h
  rw [hy] at hconceals hmarks houtput
  refine ⟨hproper, (fun _ _ hu => by cases hu), fun r' m'' hr => ?_⟩
  cases hr
  exact ⟨hconceals, hmarks, houtput⟩

/-- The moment in which a variable gets a value that is not the value of a class
statement. -/
theorem proper_of_fills {a : Activity} {values : List Value} {m' : Machine} {P : Marks}
    (hm' : m'.Conceals) (hmarks : ∀ k n, m'.marks k n ↔ P k n ∧ ¬ a.Fills k n)
    (hvacates : ∀ k n, ¬ a.Vacates k n) (hvalues : ∀ v ∈ values, v.Given)
    (hprint : ∀ e, a.task ≠ .exec (.print e))
    (hclass : ∀ name superclass methods,
      a.task = .exec (.classDecl name superclass methods) → ∃ k c,
        a.machine.env.head? = some k ∧ m'.frames.binding? k name.lexeme = some (.cls c) ∧
          c.MadeBy name methods a.machine) :
    (Moment.completes a values m').Proper P := by
  refine ⟨hm', funext fun k => funext fun n => propext ?_, hvalues, ?_, ?_⟩
  · exact (hmarks k n).trans (or_iff_right (hvacates k n)).symm
  · rw [Moment.shown?_completes hprint]
    nofun
  · rintro b us m'' name superclass methods heq htask
    cases heq
    exact hclass name superclass methods htask

theorem closes_assign {name : Token} {slot : Slot} {value : Expr Slot}
    (h : Concealed l Value.Given (eval n value) m) :
    Closes ⟨n + 1, .eval (.assign name slot value), m⟩ l (fun v => [v]) Value.Given
      (eval (n + 1) (.assign name slot value) m) := by
  have henv := ((restoresAll n).eval value m).env
  rw [eval, bind_apply]
  cases hv : eval n value m with
  | abort r m₁ => exact h.closes_of_abort hv
  | ok v m₁ =>
      obtain ⟨hconceals, hmarks, houtput, hvalue, hproper⟩ := h
      have hgiven := hvalue v m₁ hv
      rw [hv] at hconceals hmarks houtput henv
      dsimp only [Result.machine] at hconceals hmarks houtput henv ⊢
      rw [bind_apply, Comparison.assign_eq]
      cases ht : m₁.frames.target m₁.env name.lexeme slot with
      | ok j =>
          have hframe := Frames.frame?_of_target ht
          rw [henv] at hframe
          refine ⟨hproper, fun u m' hu => ?_, fun _ _ h => by cases h⟩
          cases hu
          refine ⟨hgiven, proper_of_fills (hconceals.bind j name.lexeme hgiven)
            (fun k x => ?_) (fun _ _ => id) (fun u hu => ?_) (fun _ h => by cases h)
            (fun _ _ _ h => by cases h), ?_⟩
          · rw [← hmarks]
            refine (Frames.marks_bind hgiven.ne_unassigned).trans (and_congr_right fun _ => ?_)
            show ¬ (k = j ∧ x = name.lexeme) ↔ ¬ (m.env.frame? slot = some k ∧ x = name.lexeme)
            rw [hframe, Option.some.injEq, eq_comm (a := k)]
          · rw [List.mem_singleton.mp hu]
            exact hgiven
          · rw [textsOf_completes fun _ h => by cases h]
            exact houtput
      | error missing =>
          refine ⟨hproper, fun u m' hu => ?_, fun r m' hr => ?_⟩
          · cases missing <;> cases hu
          · cases missing <;>
            · cases hr
              exact ⟨hconceals, hmarks, houtput⟩

theorem closes_vacates {name : Token} (hm : m.Conceals)
    (hplain : Activity.Plain ⟨n + 1, .exec (.varDecl name none), m⟩) :
    Closes ⟨n + 1, .exec (.varDecl name none), m⟩ [] Completion.values Completion.Given
      (exec (n + 1) (.varDecl name none) m) := by
  obtain ⟨hname, k, E, henv, hk⟩ := hplain _ name rfl rfl
  have hdefine := Frames.define_eq_bind henv m.frames name.lexeme .unassigned
  dsimp only at hdefine
  refine ⟨trivial, fun u m' hu => ?_, fun r m' hr => ?_⟩
  · rw [exec] at hu
    cases hu
    refine ⟨Completion.given_normal, ⟨?_, funext fun j => funext fun x => propext ?_,
      (fun _ h => absurd h List.not_mem_nil), (fun _ _ h => by cases h),
      fun _ _ _ _ _ _ heq htask => ?_⟩,
      (List.append_nil _).symm⟩
    · show Machine.Conceals { m with frames := m.frames.define m.env name.lexeme .unassigned }
      rw [hdefine]
      exact hm.vacate hk hname.ne_this hname.ne_super
    · show (m.frames.define m.env name.lexeme .unassigned).marks j x ↔
        (m.env.head? = some j ∧ x = name.lexeme) ∨ m.marks j x ∧ ¬ False
      rw [hdefine, Frames.marks_bind_unassigned hk, and_iff_left not_false,
        show m.env = k :: E from henv, List.head?_cons, Option.some.injEq, eq_comm (a := j)]
      exact Iff.rfl
    · cases heq
      cases htask
  · rw [exec] at hr
    cases hr

/-- A declaration that binds its name to a value, in the environment in which it began. -/
theorem proper_of_declares (m₁ : Machine) {s : Stmt Slot} {t : Token} {P : Marks} {v : Value}
    (hdeclared : s.declared? = some t) (hs : s ≠ .varDecl t none) (hm₁ : m₁.Conceals)
    (hmarks : ∀ k x, ¬ (m.env.head? = some k ∧ x = t.lexeme) → (m₁.marks k x ↔ P k x))
    (hv : v.Given)
    (hclass : ∀ name superclass methods, s = .classDecl name superclass methods → ∃ k c,
      m.env.head? = some k ∧
        (m₁.frames.define m.env t.lexeme v).binding? k name.lexeme = some (.cls c) ∧
          c.MadeBy name methods m) :
    (Moment.completes ⟨n, .exec s, m⟩ [] { m₁ with
      frames := m₁.frames.define m.env t.lexeme v }).Proper P := by
  refine proper_of_fills (hm₁.define m.env t.lexeme hv) (fun k x => ?_) ?_ nofun ?_ ?_
  · show (m₁.frames.define m.env t.lexeme v).marks k x ↔ P k x ∧ ¬ Task.Fills _ m.env k x
    rw [Frames.marks_define hv.ne_unassigned, fills_declaration hdeclared hs]
    exact and_congr_left (hmarks k x)
  · exact fun k x => not_vacates hdeclared hs
  · rintro e heq
    cases heq
    cases hdeclared
  · intro name superclass methods htask
    cases htask
    exact hclass name superclass methods rfl

theorem closes_varDecl {name : Token} {value : Expr Slot}
    (h : Concealed l Value.Given (eval n value) m) :
    Closes ⟨n + 1, .exec (.varDecl name (some value)), m⟩ l Completion.values Completion.Given
      (exec (n + 1) (.varDecl name (some value)) m) := by
  have henv := ((restoresAll n).eval value m).env
  have hexec : exec (n + 1) (.varDecl name (some value)) m =
      (eval n value >>= fun v => define name.lexeme v >>= fun _ => pure .normal) m := by
    rw [exec]
  rw [hexec, bind_apply]
  cases hv : eval n value m with
  | abort r m₁ => exact h.closes_of_abort hv
  | ok v m₁ =>
      obtain ⟨hconceals, hmarks, houtput, hvalue, hproper⟩ := h
      have hgiven := hvalue v m₁ hv
      rw [hv] at hconceals hmarks houtput henv
      dsimp only [Result.machine] at hconceals hmarks houtput henv
      refine ⟨hproper, fun u m' hu => ?_, fun _ _ h => by cases h⟩
      cases hu
      refine ⟨Completion.given_normal, ?_, ?_⟩
      rotate_left
      · rw [textsOf_completes fun _ h => by cases h]
        exact houtput
      have hproper' := proper_of_declares m₁ (n := n + 1) (m := m)
        (s := .varDecl name (some value)) (P := marksAfter m.marks l) rfl (fun h => by cases h)
        hconceals (fun k x _ => by rw [hmarks]) hgiven fun _ _ _ h => by cases h
      rw [← henv] at hproper'
      exact hproper'

theorem closes_function {f : FunDecl Slot} (hm : m.Conceals) :
    Closes ⟨n + 1, .exec (.function f), m⟩ [] Completion.values Completion.Given
      (exec (n + 1) (.function f) m) := by
  refine ⟨trivial, fun u m' hu => ?_, fun r m' hr => ?_⟩
  · rw [exec] at hu
    cases hu
    refine ⟨Completion.given_normal, ?_, (List.append_nil _).symm⟩
    exact proper_of_declares { m with nextId := m.nextId + 1 } rfl (fun h => by cases h)
      ⟨hm.reserved, hm.bindings, hm.objects, hm.lastValue⟩ (fun _ _ _ => Iff.rfl)
      trivial fun _ _ _ h => by cases h
  · rw [exec] at hr
    cases hr

/-- A print statement shows the value of its expression when it completes. -/
theorem closes_print {e : Expr Slot} (h : Concealed l Value.Given (eval n e) m) :
    Closes ⟨n + 1, .exec (.print e), m⟩ l Completion.values Completion.Given
      (exec (n + 1) (.print e) m) := by
  rw [exec, bind_apply]
  cases hv : eval n e m with
  | abort r m₁ => exact h.closes_of_abort hv
  | ok v m₁ =>
      obtain ⟨hconceals, hmarks, houtput, hvalue, hproper⟩ := h
      rw [hv] at hconceals hmarks houtput
      dsimp only [Result.machine] at hconceals hmarks houtput ⊢
      have hprint : (textOf v >>= fun text => print text >>= fun _ => pure Completion.normal) m₁ =
          .ok .normal { m₁ with output := m₁.output.push (m₁.render v) } := by
        rw [bind_apply, textOf_eq]
        rfl
      rw [hprint]
      refine ⟨hproper, fun u m' hu => ?_, fun _ _ h => by cases h⟩
      cases hu
      have hshown (m' : Machine) : (Moment.completes ⟨n + 1, .exec (.print e), m⟩ [] m').shown? =
          some (v, m₁) := by
        rw [Moment.shown?, hv]
      have htext (m' : Machine) : textsOf [.completes ⟨n + 1, .exec (.print e), m⟩ [] m'] =
          [m₁.render v] := by
        rw [textsOf, List.filterMap_cons_some (by rw [Moment.text?, hshown]; rfl)]
        rfl
      refine ⟨Completion.given_normal, ⟨?_, ?_, (fun _ h => absurd h List.not_mem_nil),
        fun u m' hu => ?_, fun _ _ _ _ _ _ heq htask => ?_⟩, ?_⟩
      · exact ⟨hconceals.reserved, hconceals.bindings, hconceals.objects, hconceals.lastValue⟩
      · exact hmarks.trans (Moment.leaves_completes rfl ..).symm
      · cases (hshown _).symm.trans hu
        exact ⟨hvalue v m₁ hv, hconceals⟩
      · cases heq
        cases htask
      · show (m₁.output.push (m₁.render v)).toList = _
        rw [Array.toList_push, houtput, List.append_assoc, textsOf_append]
        exact congrArg (fun texts => m.output.toList ++ (textsOf l ++ texts)) (htext _).symm

end

/-! ## Class statements -/

section

variable {n : Nat} {m : Machine} {l : List Moment}

theorem superclassOf_machine (superclass : Option (Reference Slot)) (m : Machine) :
    (superclassOf superclass m).machine = m := by
  cases superclass with
  | none => rfl
  | some r =>
      have hlookUp := Comparison.lookUp_machine r.name r.slot m
      rw [superclassOf, bind_apply]
      cases hv : lookUp r.name r.slot m with
      | abort reason m₁ =>
          rw [hv] at hlookUp
          exact hlookUp
      | ok v m₁ =>
          rw [hv] at hlookUp
          cases v <;> exact hlookUp

/-- The frame of a superclass is a new one. -/
theorem methodEnv_ok (parent : Option Class) (m : Machine) :
    ∃ E F, methodEnv parent m = .ok E { m with frames := F } ∧ m.frames.size ≤ F.size := by
  cases parent with
  | none => exact ⟨m.env, m.frames, rfl, Nat.le_refl _⟩
  | some c =>
      refine ⟨_, _, rfl, ?_⟩
      show m.frames.size ≤ ((m.frames.enter superName m.env).2.define _ _ _).size
      rw [Frames.size_define, Frames.size_enter]
      omega

/-- Once its superclass is found, a class statement makes its class and binds its name. -/
theorem declareClass_ok (name : Token) {superclass : Option (Reference Slot)}
    (methods : List (FunDecl Slot)) {parent : Option Class}
    (hparent : superclassOf superclass m = .ok parent m) :
    ∃ E F c, methodEnv parent { m with
        frames := m.frames.define m.env name.lexeme .unassigned } =
          .ok E { m with frames := F } ∧ m.frames.size ≤ F.size ∧ c.MadeBy name methods m ∧
      declareClass name superclass methods m = .ok () { m with
        frames := F.define m.env name.lexeme (.cls c), nextId := m.nextId + 1 } := by
  obtain ⟨E, F, henv, hsize⟩ := methodEnv_ok parent { m with
    frames := m.frames.define m.env name.lexeme .unassigned }
  rw [Frames.size_define] at hsize
  refine ⟨E, F, ?c, henv, hsize, ?made, ?declared⟩
  case declared =>
    rw [declareClass, bind_apply, hparent]
    show (methodEnv parent >>= _) { m with
      frames := m.frames.define m.env name.lexeme .unassigned } = _
    rw [bind_apply, henv]
    rfl
  case made => cases parent <;> exact ⟨rfl, rfl, E, rfl⟩

theorem closes_classDecl {name : Token} {superclass : Option (Reference Slot)}
    {methods : List (FunDecl Slot)} (hm : m.Conceals) (hproper : ProperFrom m.marks l)
    (hmarks : marksAfter m.marks l = m.marks) (htexts : textsOf l = [])
    (hplain : Activity.Plain ⟨n + 1, .exec (.classDecl name superclass methods), m⟩) :
    Closes ⟨n + 1, .exec (.classDecl name superclass methods), m⟩ l Completion.values
      Completion.Given (exec (n + 1) (.classDecl name superclass methods) m) := by
  obtain ⟨hname, k, E, henv, hk⟩ := hplain _ name rfl rfl
  have hmachine := superclassOf_machine superclass m
  rw [exec, bind_apply]
  cases hparent : superclassOf superclass m with
  | abort r m₁ =>
      -- nothing has happened yet
      rw [hparent] at hmachine
      obtain rfl : m₁ = m := hmachine
      have hdeclare : declareClass name superclass methods m₁ = .abort r m₁ := by
        rw [declareClass, bind_apply, hparent]
      rw [hdeclare]
      refine ⟨hproper, (fun _ _ h => by cases h), fun r' m' hr => ?_⟩
      cases hr
      refine ⟨hm, hmarks.symm, ?_⟩
      rw [htexts]
      exact (List.append_nil _).symm
  | ok parent m₁ =>
      rw [hparent] at hmachine
      obtain rfl : m₁ = m := hmachine
      obtain ⟨E', F, c, hmethods, hsize, hmade, hdeclare⟩ :=
        declareClass_ok name methods hparent
      -- the marker stands for the class while the frame of the superclass is made
      have hvacated : Machine.Conceals { m₁ with
          frames := m₁.frames.define m₁.env name.lexeme .unassigned } := by
        rw [Frames.define_eq_bind henv]
        exact hm.vacate hk hname.ne_this hname.ne_super
      have hquiet := quiet_methodEnv hvacated parent
      have hconceals := hquiet.conceals
      have hmarks₁ := hquiet.marks
      rw [hmethods] at hconceals hmarks₁
      rw [hdeclare]
      refine ⟨hproper, fun u m' hu => ?_, fun _ _ h => by cases h⟩
      cases hu
      refine ⟨Completion.given_normal, ?_, ?_⟩
      rotate_left
      · rw [textsOf_completes fun _ h => by cases h]
        rw [htexts]
        exact (List.append_nil _).symm
      refine proper_of_declares { m₁ with frames := F, nextId := m₁.nextId + 1 } rfl
        (fun h => by cases h)
        ⟨hconceals.reserved, hconceals.bindings, hconceals.objects, hconceals.lastValue⟩
        (fun j x hne => ?_) trivial fun name' superclass' methods' heq => ?_
      · rw [hmarks]
        show F.marks j x ↔ m₁.frames.marks j x
        rw [show F.marks = (m₁.frames.define m₁.env name.lexeme .unassigned).marks from hmarks₁,
          Frames.define_eq_bind henv, Frames.marks_bind_unassigned hk]
        refine or_iff_right fun heq => hne ?_
        rw [show m₁.env = k :: E from henv, heq.1, heq.2]
        exact ⟨rfl, rfl⟩
      · cases heq
        refine ⟨k, c, ?_, ?_, hmade⟩
        · rw [show m₁.env = k :: E from henv]
          rfl
        · rw [Frames.define_eq_bind henv]
          exact (Frames.binding?_bind F (Nat.lt_of_lt_of_le hk hsize) ..).trans
            (if_pos ⟨rfl, rfl⟩)

end

end Lox
