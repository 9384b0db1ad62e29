import Lox.Proofs.Context.Rendering
import Lox.Proofs.Preservation.Evaluation

/-!
# The evaluator restores its surroundings

A step may change the current environment on its way: a block and the body of a function
run in a frame of their own, and initializers and methods do so in the middle of an
expression. When the step is over the environment is the one it began with, for a value
as for every way of being aborted, because `within` is the only operation that changes
it and puts it back on both ways out. The same is true of the vectors that are being
written, which only the writing of a value changes, and of what was printed before.
-/

namespace Lox

open Eval

/-- The machine `m'` has the surroundings of `m`: it is in the same environment and in the
middle of the same vectors, and has printed all that `m` has. -/
structure Machine.Resumes (m m' : Machine) : Prop where
  env : m'.env = m.env
  writing : m'.writing = m.writing
  output : m.output.toList <+: m'.output.toList

/-- A step that leaves the surroundings as they were, however it ends. -/
def Eval.Restores {α : Type} (x : Eval α) : Prop :=
  ∀ m : Machine, m.Resumes (x m).machine

theorem Machine.Resumes.refl (m : Machine) : m.Resumes m :=
  ⟨rfl, rfl, List.prefix_rfl⟩

theorem Machine.Resumes.trans {m₁ m₂ m₃ : Machine} (h : m₁.Resumes m₂) (h' : m₂.Resumes m₃) :
    m₁.Resumes m₃ :=
  ⟨h'.env.trans h.env, h'.writing.trans h.writing, h.output.trans h'.output⟩

/-- A change of anything but the surroundings. -/
theorem Machine.Resumes.of_eq {m m' : Machine} (henv : m'.env = m.env)
    (hwriting : m'.writing = m.writing) (houtput : m'.output = m.output) : m.Resumes m' :=
  ⟨henv, hwriting, houtput ▸ List.prefix_rfl⟩

namespace Eval

section

variable {α β : Type} {x : Eval α}

/-! ## Composition -/

theorem restores_pure (a : α) : (pure a : Eval α).Restores :=
  fun m => .refl m

theorem restores_abort (r : Abort) : (abort r : Eval α).Restores :=
  fun m => .refl m

theorem Restores.bind {y : Eval β} {f : β → Eval α} (h : y.Restores) (hf : ∀ b, (f b).Restores) :
    (y >>= f).Restores := by
  intro m
  have hy := h m
  rw [bind_apply]
  cases hr : y m with
  | ok b m₁ =>
      rw [hr] at hy
      exact hy.trans (hf b m₁)
  | abort r m₁ =>
      rw [hr] at hy
      exact hy

/-- In another environment, whatever the step does to it. -/
theorem restores_within {E : Env} (h : x.Restores) : (within E x).Restores := by
  intro m
  obtain ⟨_, hwriting, houtput⟩ := h { m with env := E }
  rw [within_machine]
  exact ⟨rfl, hwriting, houtput⟩

theorem Restores.reporting {t : Token} (h : x.Restores) : (reporting t x).Restores := by
  intro m
  rw [reporting_machine]
  exact h m

/-- A step that leaves the machine as it is. -/
theorem restores_of_machine (h : ∀ m, (x m).machine = m) : x.Restores := by
  intro m
  rw [h m]
  exact Machine.Resumes.refl m

end

/-! ## Operations -/

theorem restores_environment : environment.Restores :=
  fun m => .refl m

theorem restores_setLastValue (v : Value) : (setLastValue v).Restores :=
  fun _ => .of_eq rfl rfl rfl

theorem restores_freshId : freshId.Restores :=
  fun _ => .of_eq rfl rfl rfl

theorem restores_define (name : String) (v : Value) : (define name v).Restores :=
  fun _ => .of_eq rfl rfl rfl

theorem restores_enter (label : String) (E : Env) : (enter label E).Restores :=
  fun _ => .of_eq rfl rfl rfl

theorem restores_bindAll (E : Env) (l : List (String × Value)) : (bindAll E l).Restores := by
  intro m
  rw [Comparison.bindAll_eq]
  exact .of_eq rfl rfl rfl

theorem restores_allocate (c : Class) (elements : Option (Array Value)) :
    (allocate c elements).Restores :=
  fun _ => .of_eq rfl rfl rfl

theorem restores_modify (ref : Nat) (f : Instance → Instance) : (modify ref f).Restores :=
  fun _ => .of_eq rfl rfl rfl

theorem restores_instance? (v : Value) : (instance? v).Restores := by
  refine restores_of_machine fun m => ?_
  cases v <;> rfl

theorem restores_getAt (E : Env) (d : Nat) (name : String) : (getAt E d name).Restores := by
  refine restores_of_machine fun m => ?_
  simp only [getAt]
  split <;> rfl

theorem restores_lookUp (name : Token) (slot : Slot) : (lookUp name slot).Restores :=
  restores_of_machine (Comparison.lookUp_machine name slot)

theorem restores_assign (name : Token) (slot : Slot) (v : Value) :
    (assign name slot v).Restores := by
  intro m
  rw [Comparison.assign_eq]
  cases m.frames.target m.env name.lexeme slot with
  | ok id => exact .of_eq rfl rfl rfl
  | error missing => cases missing <;> exact .refl m

/-- Writing a value takes off all marks that it made. -/
theorem restores_textOf (v : Value) : (textOf v).Restores := by
  intro m
  rw [textOf_eq]
  exact .refl m

theorem restores_print (text : String) : (print text).Restores :=
  fun m => ⟨rfl, rfl, by
    show m.output.toList <+: (m.output.push text).toList
    rw [Array.toList_push]
    exact List.prefix_append _ _⟩

theorem restores_unaryOp (operator : Token) (v : Value) : (unaryOp operator v).Restores := by
  unfold unaryOp
  split
  · exact restores_pure _
  · exact restores_abort _
  · exact restores_pure _

theorem restores_binaryOp (operator : Token) (a b : Value) :
    (binaryOp operator a b).Restores := by
  unfold binaryOp
  split
  · exact restores_pure _
  · exact restores_pure _
  · exact restores_pure _
  · exact restores_pure _
  · exact restores_abort _
  · exact restores_abort _

theorem restores_bindMethod (method : Method) (receiver : Value) :
    (bindMethod method receiver).Restores := by
  cases method with
  | closure c =>
      refine (restores_enter _ _).bind fun E => (restores_bindAll E _).bind fun _ => ?_
      exact restores_freshId.bind fun id => restores_pure _
  | native f => exact restores_freshId.bind fun id => restores_pure _

theorem restores_getProperty (v : Value) (name : Token) : (getProperty v name).Restores := by
  refine (restores_instance? v).bind fun found => ?_
  split
  · exact restores_abort _
  · split
    · exact restores_pure _
    · split
      · exact restores_bindMethod _ _
      · exact restores_abort _

theorem restores_fieldOwner (v : Value) (name : Token) : (fieldOwner v name).Restores := by
  unfold fieldOwner
  split
  · exact restores_pure _
  · exact restores_abort _

theorem restores_superMethod (method : Token) (slot : Slot) :
    (superMethod method slot).Restores := by
  cases slot with
  | none => exact restores_abort _
  | some d =>
      refine restores_environment.bind fun E => (restores_getAt _ _ _).bind fun parent => ?_
      refine (restores_getAt _ _ _).bind fun receiver => ?_
      split
      · split
        · exact restores_bindMethod _ _
        · exact restores_abort _
      · exact restores_abort _

theorem restores_superclassOf (superclass : Option (Reference Slot)) :
    (superclassOf superclass).Restores := by
  cases superclass with
  | none => exact restores_pure _
  | some r =>
      refine (restores_lookUp _ _).bind fun v => ?_
      split
      · exact restores_pure _
      · exact restores_abort _

theorem restores_methodEnv (superclass : Option Class) : (methodEnv superclass).Restores := by
  refine restores_environment.bind fun E => ?_
  cases superclass with
  | none => exact restores_pure _
  | some c =>
      exact (restores_enter _ _).bind fun E => (restores_bindAll _ _).bind fun _ => restores_pure _

theorem restores_declareClass (name : Token) (superclass : Option (Reference Slot))
    (methods : List (FunDecl Slot)) : (declareClass name superclass methods).Restores := by
  refine (restores_superclassOf _).bind fun parent => (restores_define _ _).bind fun _ => ?_
  refine (restores_methodEnv _).bind fun E => restores_freshId.bind fun id => ?_
  exact restores_define _ _

theorem restores_checkCall (callee : Value) (count : Nat) (paren : Token) :
    (checkCall callee count paren).Restores := by
  unfold checkCall
  split
  · exact restores_abort _
  · split
    · exact restores_pure _
    · exact restores_abort _

theorem restores_callEnv (c : Closure) (arguments : List Value) : (callEnv c arguments).Restores :=
  (restores_enter _ _).bind fun _ => (restores_bindAll _ _).bind fun _ => restores_pure _

theorem restores_callValue (c : Closure) (completion : Completion) :
    (callValue c completion).Restores := by
  unfold callValue
  split
  · exact restores_getAt _ _ _
  · exact restores_pure _

/-! ## Native functions -/

theorem restores_vectorAt (v : Value) : (vectorAt v).Restores := by
  refine (restores_instance? v).bind fun found => ?_
  split
  · exact restores_pure _
  · exact restores_abort _

theorem restores_element (elements : Array Value) (index : Int) :
    (element elements index).Restores := by
  simp only [element]
  generalize (if index < 0 then index + ↑elements.size else index) = position
  split
  · exact restores_abort _
  · split
    · exact restores_pure _
    · exact restores_abort _

theorem restores_elementAt (v index : Value) : (elementAt v index).Restores := by
  unfold elementAt
  split
  · exact (restores_vectorAt v).bind fun _ => restores_element _ _
  · exact fun m => .refl m

theorem restores_runBody (f : Native) (arguments : List Value) :
    (runBody f arguments).Restores := by
  unfold runBody
  cases f.body with
  | clock => exact fun _ => .of_eq rfl rfl rfl
  | typeOf =>
      cases arguments with
      | nil => exact restores_pure _
      | cons v vs => exact fun m => .refl m
  | append =>
      rcases arguments with _ | ⟨receiver, _ | ⟨v, vs⟩⟩
      · exact restores_pure _
      · exact restores_pure _
      · have href : (vectorRef receiver).Restores :=
          (restores_vectorAt receiver).bind fun _ => restores_pure _
        exact href.bind fun ref => (restores_modify ref _).bind fun _ => restores_pure _
  | length =>
      cases arguments with
      | nil => exact restores_pure _
      | cons receiver vs => exact (restores_vectorAt receiver).bind fun _ => restores_pure _
  | elementAt =>
      rcases arguments with _ | ⟨receiver, _ | ⟨index, vs⟩⟩
      · exact restores_pure _
      · exact restores_pure _
      · exact restores_elementAt receiver index
  | argument index =>
      cases index with
      | none => exact restores_pure _
      | some i =>
          dsimp only
          cases arguments[i]? with
          | none => exact restores_abort _
          | some v => exact restores_pure v
  | refuse message => exact restores_abort _
  | fail message => exact restores_abort _
  | breakDown => exact restores_abort _

theorem restores_runFunction (f : Native) (arguments : List Value) :
    (runFunction f arguments).Restores := by
  unfold runFunction
  split
  · exact restores_abort _
  · exact restores_runBody _ _

theorem restores_runMethod (f : Native) (receiver : Value) (arguments : List Value) :
    (runMethod f receiver arguments).Restores := by
  unfold runMethod
  split
  · exact restores_abort _
  · exact restores_runFunction _ _

/-! ## Evaluation -/

/-- That a step restores its surroundings, for which nothing has to be known. -/
def surroundings : Judgement where
  World := Unit
  Later _ _ := True
  Machine _ _ := True
  Value _ _ := True
  Begins _ _ _ := True
  Plain _ := True
  Step _ _ _ _ Q x m := m.Resumes (x m).machine ∧ ∀ v m', x m = .ok v m' → Q () v
  value_later _ _ := trivial
  constant _ _ := trivial
  part _ _ := trivial
  callable _ _ _ _ := trivial
  at_env _ _ := trivial
  congr h hx _ _ := by
    rw [hx]
    exact h
  imp _ _ hQ h := ⟨h.1, fun v m' hx => hQ () v trivial (h.2 v m' hx)⟩
  stays _ hx hmeets := by
    refine ⟨hx.symm ▸ .refl _, fun v m' hv => ?_⟩
    rw [hv] at hmeets
    exact hmeets
  sequence _ h hf := by
    obtain ⟨hy, hvalue⟩ := h
    rw [bind_apply]
    split
    · next b m₁ hb =>
        obtain ⟨hnext, hQ⟩ := hf b m₁ () trivial trivial (fun _ _ => trivial) (hvalue b m₁ hb)
        rw [hb] at hy
        exact ⟨hy.trans hnext, hQ⟩
    · next r m₁ hr =>
        rw [hr] at hy
        exact ⟨hy, fun _ _ h => by cases h⟩
  within _ h := by
    obtain ⟨⟨_, hwriting, houtput⟩, hvalue⟩ := h
    refine ⟨?_, fun v m' hv => ?_⟩
    · rw [within_machine]
      exact ⟨rfl, hwriting, houtput⟩
    · obtain ⟨m₁, hx⟩ := ok_of_within hv
      exact hvalue v m₁ hx
  reporting h := by
    refine ⟨?_, fun v m' hv => h.2 v m' (ok_of_reporting hv)⟩
    rw [reporting_machine]
    exact h.1
  self _ _ _ _ _ h := h
  spent _ _ _ _ := ⟨.refl _, fun _ _ h => by cases h⟩
  lookUp name slot _ := ⟨restores_lookUp name slot _, fun _ _ _ => trivial⟩
  getProperty _ _ name _ _ := ⟨restores_getProperty _ name _, fun _ _ _ => trivial⟩
  setField ref _ _ _ _ := ⟨restores_modify ref _ _, fun _ _ _ => trivial⟩
  superMethod _ _ _ _ _ _ := ⟨restores_superMethod _ _ _, fun _ _ _ => trivial⟩
  callEnv _ _ _ _ _ _ := ⟨restores_callEnv _ _ _, fun _ _ _ => trivial⟩
  receiver E _ := ⟨restores_getAt E 0 thisName _, fun _ _ _ => trivial⟩
  setLastValue _ _ := ⟨restores_setLastValue _ _, fun _ _ _ => trivial⟩
  block _ _ _ _ := ⟨restores_enter _ _ _, fun _ _ _ => trivial⟩

theorem Restores.step {α : Type} {x : Eval α} (h : x.Restores) {vis : Visits} {chr : Chronicle}
    {R : Abort → Prop} {Q : Unit → α → Prop} (hQ : ∀ v, Q () v) (m : Machine) :
    surroundings.Step () vis chr R Q x m :=
  ⟨h m, fun v _ _ => hQ v⟩

/-- The evaluator restores its surroundings. -/
def restoring : Preservation where
  toJudgement := surroundings
  routine _ := trivial
  assign := Judgement.assigns trivial fun _ _ _ => (restores_assign _ _ _).step (fun _ => trivial) _
  vector := Judgement.makesVector trivial fun _ _ =>
    (restores_allocate _ _).step (fun _ => trivial) _
  native hm h := Judgement.runsNative trivial
    ((restores_runFunction _ _).step (fun _ => trivial) _) hm h
  nativeMethod hm h := Judgement.runsNativeMethod trivial
    ((restores_runMethod _ _ _).step (fun _ => trivial) _) hm h
  construct := Judgement.constructs (fun _ _ => True) trivial
    ((restores_allocate _ _).step (fun _ => trivial) _) (fun _ => trivial)
    fun _ _ _ => (restores_bindMethod _ _).step (fun _ _ _ => trivial) _
  print := Judgement.prints trivial fun text _ => (restores_print text).step (fun _ => trivial) _
  varDecl := Judgement.declares trivial trivial fun _ _ _ =>
    (restores_define _ _).step (fun _ => trivial) _
  function hm h := Judgement.declaresFunction trivial hm h
    ((restores_freshId.bind fun _ => restores_define _ _).step (fun _ => trivial) _)
  classDecl hm h _ := Judgement.declaresClass trivial hm h
    ((restores_declareClass _ _ _).step (fun _ => trivial) _)

/-- Everything the evaluator does with a budget of `n` restores its surroundings. -/
structure RestoresAll (n : Nat) : Prop where
  eval : ∀ e, (eval n e).Restores
  evalAll : ∀ es, (evalAll n es).Restores
  call : ∀ callee arguments, (call n callee arguments).Restores
  exec : ∀ s, (exec n s).Restores
  execAll : ∀ body, (execAll n body).Restores
  /-- The statements of a block or a function, which run in a frame of their own. -/
  block : ∀ E body, (within E (Eval.execAll n body)).Restores
  loop : ∀ condition body, (loop n condition body).Restores
  execUnit : ∀ program, (execUnit n program).Restores

theorem restoresAll (n : Nat) : RestoresAll n := by
  have h := restoring.holds n
  have hexecAll (body : List (Stmt Slot)) : (execAll n body).Restores :=
    fun m => (h.execAll (w := ()) (m := m) trivial trivial).1
  exact
    { eval := fun _ _ => (h.eval (w := ()) trivial trivial).1
      evalAll := fun _ _ => (h.evalAll (w := ()) trivial trivial).1
      call := fun _ _ _ => (h.call (w := ()) trivial trivial).1
      exec := fun _ _ => (h.exec (w := ()) trivial trivial).1
      execAll := hexecAll
      block := fun E body => restores_within (hexecAll body)
      loop := fun _ _ _ => (h.loop (w := ()) trivial trivial).1
      execUnit := fun _ _ => (h.execUnit (w := ()) trivial trivial).1 }

end Eval

end Lox
