import Lox.Proofs.Simulation.Operations

/-!
# Where steps report errors

An operation that can go wrong has one token that it reports its errors at; most have none
and need none. The failure of a native function is no error of the program before it comes
to the call.
-/

namespace Lox
namespace Eval

variable {α β : Type} {x : Eval α} {P : Token → Prop} {t : Token}

/-- An error of the program that ends the step is reported at one of the tokens. -/
def ReportsIn (P : Token → Prop) (x : Eval α) : Prop :=
  ∀ m e m', x m = .abort (.error e) m' → P e.token

/-! ## Composition -/

theorem reportsIn_pure (a : α) : (pure a : Eval α).ReportsIn P :=
  fun _ _ _ h => nomatch h

theorem reportsIn_of_ok (h : ∀ m, ∃ a m', x m = .ok a m') : x.ReportsIn P := by
  intro m e m' heq
  obtain ⟨a, m₁, hok⟩ := h m
  rw [hok] at heq
  cases heq

theorem reportsIn_error (fault : RuntimeFault) (h : P t) :
    (error fault t : Eval α).ReportsIn P := by
  intro m e m' heq
  cases heq
  exact h

theorem reportsIn_fault (f : Fault) : (fault f : Eval α).ReportsIn P :=
  fun _ _ _ h => nomatch h

theorem reportsIn_refuse (message : String) : (refuse message : Eval α).ReportsIn P :=
  fun _ _ _ h => nomatch h

theorem ReportsIn.bind {u : Eval β} {f : β → Eval α} (h : u.ReportsIn P)
    (hf : ∀ b, (f b).ReportsIn P) : (u >>= f).ReportsIn P := by
  intro m e m' heq
  rw [bind_apply] at heq
  cases hu : u m with
  | ok b m₁ =>
      rw [hu] at heq
      exact hf b m₁ e m' heq
  | abort r m₁ =>
      rw [hu] at heq
      cases heq
      exact h m e m' hu

/-! ## Operations without errors -/

theorem reportsIn_environment : environment.ReportsIn P :=
  reportsIn_of_ok fun _ => ⟨_, _, rfl⟩

theorem reportsIn_freshId : freshId.ReportsIn P :=
  reportsIn_of_ok fun _ => ⟨_, _, rfl⟩

theorem reportsIn_setLastValue (v : Value) : (setLastValue v).ReportsIn P :=
  reportsIn_of_ok fun _ => ⟨_, _, rfl⟩

theorem reportsIn_define (name : String) (v : Value) : (define name v).ReportsIn P :=
  reportsIn_of_ok fun _ => ⟨_, _, rfl⟩

theorem reportsIn_enter (label : String) (E : Env) : (enter label E).ReportsIn P :=
  reportsIn_of_ok fun _ => ⟨_, _, rfl⟩

theorem reportsIn_modify (ref : Nat) (f : Instance → Instance) : (modify ref f).ReportsIn P :=
  reportsIn_of_ok fun _ => ⟨_, _, rfl⟩

theorem reportsIn_allocate (c : Class) (elements : Option (Array Value)) :
    (allocate c elements).ReportsIn P :=
  reportsIn_of_ok fun _ => ⟨_, _, rfl⟩

theorem reportsIn_bindAll (E : Env) (l : List (String × Value)) : (bindAll E l).ReportsIn P :=
  reportsIn_of_ok fun m => ⟨_, _, Comparison.bindAll_eq E l m⟩

theorem reportsIn_instance? (v : Value) : (instance? v).ReportsIn P :=
  reportsIn_of_ok fun m => by cases v <;> exact ⟨_, _, rfl⟩

theorem reportsIn_getAt (E : Env) (d : Nat) (name : String) : (getAt E d name).ReportsIn P := by
  intro m e m' heq
  rw [getAt] at heq
  split at heq <;> cases heq

theorem reportsIn_bindMethod (method : Method) (receiver : Value) :
    (bindMethod method receiver).ReportsIn P := by
  cases method with
  | closure c =>
      refine (reportsIn_enter _ _).bind fun E => (reportsIn_bindAll E _).bind fun _ => ?_
      exact reportsIn_freshId.bind fun _ => reportsIn_pure _
  | native f => exact reportsIn_freshId.bind fun _ => reportsIn_pure _

theorem reportsIn_methodEnv (superclass : Option Class) : (methodEnv superclass).ReportsIn P := by
  refine reportsIn_environment.bind fun E => ?_
  cases superclass with
  | none => exact reportsIn_pure _
  | some c =>
      exact (reportsIn_enter _ _).bind fun inner =>
        (reportsIn_bindAll inner _).bind fun _ => reportsIn_pure _

theorem reportsIn_callEnv (c : Closure) (arguments : List Value) :
    (callEnv c arguments).ReportsIn P :=
  (reportsIn_enter _ _).bind fun _ => (reportsIn_bindAll _ _).bind fun _ => reportsIn_pure _

theorem reportsIn_callValue (c : Closure) (completion : Completion) :
    (callValue c completion).ReportsIn P := by
  unfold callValue
  split
  · exact reportsIn_getAt _ _ _
  · exact reportsIn_pure _

/-! ## Native functions -/

theorem reportsIn_vectorAt (v : Value) : (vectorAt v).ReportsIn P := by
  refine (reportsIn_instance? v).bind fun found => ?_
  split
  · exact reportsIn_pure _
  · exact reportsIn_fault _

theorem reportsIn_element (elements : Array Value) (index : Int) :
    (element elements index).ReportsIn P := by
  simp only [element]
  generalize (if index < 0 then index + ↑elements.size else index) = position
  split
  · exact reportsIn_refuse _
  · split
    · exact reportsIn_pure _
    · exact reportsIn_refuse _

theorem reportsIn_elementAt (v index : Value) : (elementAt v index).ReportsIn P := by
  unfold elementAt
  split
  · exact (reportsIn_vectorAt v).bind fun _ => reportsIn_element _ _
  · exact fun _ _ _ h => nomatch h

theorem reportsIn_appendTo (receiver v : Value) : (appendTo receiver v).ReportsIn P := by
  have href : (vectorRef receiver).ReportsIn P :=
    (reportsIn_vectorAt receiver).bind fun _ => reportsIn_pure _
  exact href.bind fun ref => (reportsIn_modify ref _).bind fun _ => reportsIn_pure _

theorem reportsIn_runBody (f : Native) (arguments : List Value) :
    (runBody f arguments).ReportsIn P := by
  unfold runBody
  cases f.body with
  | clock => exact reportsIn_of_ok fun _ => ⟨_, _, rfl⟩
  | typeOf =>
      cases arguments with
      | nil => exact reportsIn_pure _
      | cons v vs => exact reportsIn_of_ok fun _ => ⟨_, _, rfl⟩
  | append =>
      rcases arguments with _ | ⟨receiver, _ | ⟨v, vs⟩⟩
      · exact reportsIn_pure _
      · exact reportsIn_pure _
      · exact reportsIn_appendTo receiver v
  | length =>
      cases arguments with
      | nil => exact reportsIn_pure _
      | cons receiver vs => exact (reportsIn_vectorAt receiver).bind fun _ => reportsIn_pure _
  | elementAt =>
      rcases arguments with _ | ⟨receiver, _ | ⟨index, vs⟩⟩
      · exact reportsIn_pure _
      · exact reportsIn_pure _
      · exact reportsIn_elementAt receiver index
  | argument index =>
      cases index with
      | none => exact reportsIn_pure _
      | some i =>
          dsimp only
          cases arguments[i]? with
          | none => exact reportsIn_refuse _
          | some v => exact reportsIn_pure v
  | refuse message => exact reportsIn_refuse _
  | fail message => exact reportsIn_refuse _
  | breakDown => exact reportsIn_fault _

theorem reportsIn_runFunction (f : Native) (arguments : List Value) :
    (runFunction f arguments).ReportsIn P := by
  unfold runFunction
  split
  · exact reportsIn_refuse _
  · exact reportsIn_runBody _ _

theorem reportsIn_runMethod (f : Native) (receiver : Value) (arguments : List Value) :
    (runMethod f receiver arguments).ReportsIn P := by
  unfold runMethod
  split
  · exact reportsIn_refuse _
  · exact reportsIn_runFunction _ _

/-! ## Operations with errors at a token -/

theorem reportsIn_lookUp (slot : Slot) (h : P t) : (lookUp t slot).ReportsIn P := by
  intro m e m' heq
  rw [Comparison.lookUp_eq] at heq
  split at heq <;> cases heq <;> exact h

theorem reportsIn_assign (slot : Slot) (v : Value) (h : P t) : (assign t slot v).ReportsIn P := by
  intro m e m' heq
  rw [Comparison.assign_eq] at heq
  split at heq <;> cases heq
  exact h

theorem reportsIn_unaryOp (v : Value) (h : P t) : (unaryOp t v).ReportsIn P := by
  unfold unaryOp
  split
  · exact reportsIn_pure _
  · exact reportsIn_error _ h
  · exact reportsIn_pure _

theorem reportsIn_binaryOp (a b : Value) (h : P t) : (binaryOp t a b).ReportsIn P := by
  unfold binaryOp
  split
  · exact reportsIn_pure _
  · exact reportsIn_pure _
  · exact reportsIn_pure _
  · exact reportsIn_pure _
  · exact reportsIn_error _ h
  · exact reportsIn_error _ h

theorem reportsIn_getProperty (v : Value) (h : P t) : (getProperty v t).ReportsIn P := by
  refine (reportsIn_instance? v).bind fun found => ?_
  split
  · exact reportsIn_error _ h
  · split
    · exact reportsIn_pure _
    · split
      · exact reportsIn_bindMethod _ _
      · exact reportsIn_error _ h

theorem reportsIn_fieldOwner (v : Value) (h : P t) : (fieldOwner v t).ReportsIn P := by
  unfold fieldOwner
  split
  · exact reportsIn_pure _
  · exact reportsIn_error _ h

theorem reportsIn_superMethod (slot : Slot) (h : P t) : (superMethod t slot).ReportsIn P := by
  cases slot with
  | none => exact reportsIn_fault _
  | some d =>
      refine reportsIn_environment.bind fun E => (reportsIn_getAt _ _ _).bind fun parent => ?_
      refine (reportsIn_getAt _ _ _).bind fun receiver => ?_
      split
      · split
        · exact reportsIn_bindMethod _ _
        · exact reportsIn_error _ h
      · exact reportsIn_fault _

theorem reportsIn_checkCall (callee : Value) (count : Nat) (h : P t) :
    (checkCall callee count t).ReportsIn P := by
  unfold checkCall
  split
  · exact reportsIn_error _ h
  · split
    · exact reportsIn_pure _
    · exact reportsIn_error _ h

theorem reportsIn_superclassOf {superclass : Option (Reference Slot)}
    (h : ∀ r ∈ superclass, P r.name) : (superclassOf superclass).ReportsIn P := by
  cases superclass with
  | none => exact reportsIn_pure _
  | some r =>
      refine (reportsIn_lookUp r.slot (h r rfl)).bind fun v => ?_
      split
      · exact reportsIn_pure _
      · exact reportsIn_error _ (h r rfl)

/-- Once the superclass is known, nothing can go wrong with a class. -/
theorem reportsIn_declareClass (name : Token) {superclass : Option (Reference Slot)}
    (methods : List (FunDecl Slot)) (h : ∀ r ∈ superclass, P r.name) :
    (declareClass name superclass methods).ReportsIn P := by
  refine (reportsIn_superclassOf h).bind fun parent => (reportsIn_define _ _).bind fun _ => ?_
  refine (reportsIn_methodEnv parent).bind fun E => reportsIn_freshId.bind fun id => ?_
  exact reportsIn_define _ _

end Eval
end Lox
