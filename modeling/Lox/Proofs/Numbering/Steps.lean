import Lox.Proofs.Numbering.Machines
import Lox.Proofs.Simulation.Operations

/-!
# Steps that do not look at numbers

A step on a machine with other numbers does what it does on the machine itself, with
other numbers, provided that the functions it makes keep the numbers they get. Numbers
are given in order, so which these are can be read off the counter before and after the
step. Nothing is asked of the machine: no operation looks at a number, except to compare
two functions, and different functions have different numbers before and after.
-/

namespace Lox

open Eval

/-- The numbers from `first` up to `last`, which is not among them, stay as they are. -/
def Fixes (π : Nat → Nat) (first last : Nat) : Prop :=
  ∀ i, first ≤ i → i < last → π i = i

theorem Fixes.mono {π : Nat → Nat} {first last first' last' : Nat} (h : Fixes π first last)
    (hfirst : first ≤ first') (hlast : last' ≤ last) : Fixes π first' last' :=
  fun i hi hi' => h i (Nat.le_trans hfirst hi) (Nat.lt_of_lt_of_le hi' hlast)

/-- The step `y` does on a machine with other numbers what `x` does on the machine; `act`
renumbers its value. -/
def Eval.Mirrors {α : Type} (π : Nat → Nat) (act : α → α) (x y : Eval α) : Prop :=
  ∀ m : Machine, m.nextId ≤ (x m).machine.nextId ∧
    (Fixes π m.nextId (x m).machine.nextId → y (m.renumber π) = (x m).renumber π act)

namespace Eval

variable {α β : Type} {π : Nat → Nat} {act : α → α} {x y : Eval α}

/-! ## Composition -/

/-- A step that makes no functions. -/
theorem mirrors_of_eq (hnext : ∀ m, (x m).machine.nextId = m.nextId)
    (h : ∀ m : Machine, y (m.renumber π) = (x m).renumber π act) : Mirrors π act x y :=
  fun m => ⟨Nat.le_of_eq (hnext m).symm, fun _ => h m⟩

theorem mirrors_pure (a : α) : Mirrors π act (pure a) (pure (act a)) :=
  mirrors_of_eq (fun _ => rfl) fun _ => rfl

theorem mirrors_abort (r : Abort) : Mirrors π act (abort r) (abort r) :=
  mirrors_of_eq (fun _ => rfl) fun _ => rfl

theorem Mirrors.bind {act' : β → β} {u v : Eval β} {f g : β → Eval α} (h : Mirrors π act' u v)
    (hf : ∀ b, Mirrors π act (f b) (g (act' b))) : Mirrors π act (u >>= f) (v >>= g) := by
  intro m
  obtain ⟨hgrows, heq⟩ := h m
  rw [bind_apply, bind_apply]
  cases hu : u m with
  | abort r m₁ =>
      rw [hu] at hgrows heq
      refine ⟨hgrows, fun hfix => ?_⟩
      rw [heq hfix]
      rfl
  | ok b m₁ =>
      rw [hu] at hgrows heq
      obtain ⟨hgrows', heq'⟩ := hf b m₁
      refine ⟨Nat.le_trans hgrows hgrows', fun hfix => ?_⟩
      rw [heq (hfix.mono (Nat.le_refl _) hgrows')]
      exact heq' (hfix.mono hgrows (Nat.le_refl _))

theorem Mirrors.within (h : Mirrors π act x y) (E : Env) :
    Mirrors π act (within E x) (within E y) := by
  intro m
  obtain ⟨hgrows, heq⟩ := h { m with env := E }
  replace heq : Fixes π m.nextId (x { m with env := E }).machine.nextId →
    y { m.renumber π with env := E } = (x { m with env := E }).renumber π act := heq
  rw [Eval.within, Eval.within]
  cases hx : x { m with env := E } with
  | ok a m₁ =>
      rw [hx] at hgrows heq
      exact ⟨hgrows, fun hfix => by rw [heq hfix]; rfl⟩
  | abort r m₁ =>
      rw [hx] at hgrows heq
      exact ⟨hgrows, fun hfix => by rw [heq hfix]; rfl⟩

theorem Mirrors.reporting (h : Mirrors π act x y) (t : Token) :
    Mirrors π act (reporting t x) (reporting t y) := by
  intro m
  obtain ⟨hgrows, heq⟩ := h m
  rw [Eval.reporting, Eval.reporting]
  rcases hx : x m with ⟨a, m₁⟩ | ⟨_ | _ | _ | _, m₁⟩
  all_goals
    rw [hx] at hgrows heq
    exact ⟨hgrows, fun hfix => by rw [heq hfix]; rfl⟩

/-! ## Operations -/

theorem mirrors_environment : Mirrors π id environment environment :=
  mirrors_of_eq (fun _ => rfl) fun _ => rfl

theorem mirrors_textOf (v : Value) : Mirrors π id (textOf v) (textOf (v.renumber π)) :=
  mirrors_of_eq (fun _ => by rw [textOf_eq]; rfl) fun m => by
    rw [textOf_eq, textOf_eq, m.render_renumber]
    rfl

theorem mirrors_print (text : String) : Mirrors π id (print text) (print text) :=
  mirrors_of_eq (fun _ => rfl) fun _ => rfl

theorem mirrors_setLastValue (v : Value) :
    Mirrors π id (setLastValue v) (setLastValue (v.renumber π)) :=
  mirrors_of_eq (fun _ => rfl) fun _ => rfl

/-- The number of a class. -/
theorem mirrors_freshId : Mirrors π id freshId freshId :=
  fun m => ⟨Nat.le_succ m.nextId, fun _ => rfl⟩

/-- The number of a function, which it keeps. -/
theorem mirrors_freshId_kept : Mirrors π π freshId freshId := by
  refine fun m => ⟨Nat.le_succ m.nextId, fun hfix => ?_⟩
  have hkept : π m.nextId = m.nextId := hfix m.nextId (Nat.le_refl _) (Nat.lt_succ_self _)
  show Result.ok m.nextId _ = Result.ok (π m.nextId) _
  rw [hkept]
  rfl

theorem mirrors_define (name : String) (v : Value) :
    Mirrors π id (define name v) (define name (v.renumber π)) := by
  refine mirrors_of_eq (fun _ => rfl) fun m => ?_
  simp only [define, Machine.renumber, Result.renumber, Frames.define_mapValues, id]

theorem mirrors_enter (label : String) (E : Env) :
    Mirrors π id (enter label E) (enter label E) := by
  refine mirrors_of_eq (fun _ => rfl) fun m => ?_
  simp only [enter, Machine.renumber, Result.renumber, Frames.enter_mapValues, id]

theorem mirrors_bindAll (E : Env) (l : List (String × Value)) :
    Mirrors π id (bindAll E l) (bindAll E (l.map fun x => (x.1, x.2.renumber π))) := by
  refine mirrors_of_eq (fun m => ?_) fun m => ?_
  · rw [Comparison.bindAll_eq]
    rfl
  · rw [Comparison.bindAll_eq, Comparison.bindAll_eq]
    simp only [Machine.renumber, Result.renumber, Frames.defineAll_mapValues, id]

theorem mirrors_getAt (E : Env) (d : Nat) (name : String) :
    Mirrors π (Value.renumber π) (getAt E d name) (getAt E d name) := by
  refine mirrors_of_eq (fun m => ?_) fun m => ?_
  · simp only [getAt]
    split <;> rfl
  · simp only [getAt, Machine.renumber, Frames.getAt_mapValues]
    cases m.frames.getAt E d name <;> rfl

theorem mirrors_lookUp (name : Token) (slot : Slot) :
    Mirrors π (Value.renumber π) (lookUp name slot) (lookUp name slot) := by
  refine mirrors_of_eq (fun m => congrArg Machine.nextId (Comparison.lookUp_machine name slot m))
    fun m => ?_
  rw [Comparison.lookUp_eq, Comparison.lookUp_eq]
  simp only [Machine.renumber, Frames.seek_mapValues]
  cases m.frames.seek m.env name.lexeme slot with
  | ok v => cases v <;> rfl
  | error missing => cases missing <;> rfl

theorem mirrors_assign (name : Token) (slot : Slot) (v : Value) :
    Mirrors π id (assign name slot v) (assign name slot (v.renumber π)) := by
  refine mirrors_of_eq (fun m => ?_) fun m => ?_
  · rw [Comparison.assign_eq]
    cases m.frames.target m.env name.lexeme slot with
    | ok id => rfl
    | error missing => cases missing <;> rfl
  · rw [Comparison.assign_eq, Comparison.assign_eq]
    simp only [Machine.renumber, Frames.target_mapValues]
    cases m.frames.target m.env name.lexeme slot with
    | ok k => simp only [Result.renumber, Machine.renumber, Frames.bind_mapValues, id]
    | error missing => cases missing <;> rfl

theorem mirrors_allocate (c : Class) (elements : Option (Array Value)) :
    Mirrors π (Value.renumber π) (allocate c elements)
      (allocate c (elements.map fun vs => vs.map (Value.renumber π))) := by
  refine mirrors_of_eq (fun _ => rfl) fun m => ?_
  simp only [allocate, Machine.renumber, Result.renumber, Array.size_map, Array.map_push]
  rfl

theorem mirrors_instance? (v : Value) :
    Mirrors π (Option.map fun i => (i.1, i.2.renumber π)) (instance? v)
      (instance? (v.renumber π)) := by
  refine mirrors_of_eq (fun m => by cases v <;> rfl) fun m => ?_
  cases v with
  | object ref =>
      simp only [Value.renumber, instance?, Machine.renumber, Array.getElem?_map]
      cases m.objects[ref]? <;> rfl
  | _ => rfl

/-- Changes of an instance that do the same to a renumbered one. -/
theorem mirrors_modify (ref : Nat) {f g : Instance → Instance}
    (h : ∀ i : Instance, g (i.renumber π) = (f i).renumber π) :
    Mirrors π id (modify ref f) (modify ref g) := by
  refine mirrors_of_eq (fun _ => rfl) fun m => ?_
  have hobjects : (m.objects.map (Instance.renumber π)).modify ref g =
      (m.objects.modify ref f).map (Instance.renumber π) := by
    refine Array.ext_getElem? fun i => ?_
    simp only [Array.getElem?_modify, Array.getElem?_map]
    split
    · cases m.objects[i]? with
      | none => rfl
      | some i => exact congrArg some (h i)
    · rfl
  simp only [modify, Machine.renumber, Result.renumber, hobjects, id]

/-! ## Operators -/

theorem mirrors_unaryOp (operator : Token) (v : Value) :
    Mirrors π (Value.renumber π) (unaryOp operator v) (unaryOp operator (v.renumber π)) := by
  by_cases hminus : operator.kind = .minus
  · cases v with
    | number x =>
        simp only [unaryOp, hminus, Value.renumber]
        exact mirrors_pure (Value.number (-x))
    | _ =>
        simp only [unaryOp, hminus, Value.renumber]
        exact mirrors_abort _
  · have hbool : ∀ v, unaryOp operator v = pure (.bool (!v.truthy)) := by
      intro v
      unfold unaryOp
      split <;> simp_all
    rw [hbool, hbool, Value.truthy_renumber]
    exact mirrors_pure (Value.bool _)

theorem arithmetic_renumber (kind : TokenKind) (a b : Float) :
    (arithmetic kind a b).renumber π = arithmetic kind a b := by
  cases kind <;> rfl

theorem mirrors_binaryOp (hπ : Function.Injective π) (operator : Token) (u v : Value) :
    Mirrors π (Value.renumber π) (binaryOp operator u v)
      (binaryOp operator (u.renumber π) (v.renumber π)) := by
  by_cases heq : operator.kind = .equalEqual
  · simp only [binaryOp, heq, Value.same_renumber hπ]
    exact mirrors_pure (Value.bool _)
  by_cases hne : operator.kind = .bangEqual
  · simp only [binaryOp, hne, Value.same_renumber hπ]
    exact mirrors_pure (Value.bool _)
  rw [Comparison.binaryOp_eq _ _ heq hne, Comparison.binaryOp_eq _ _ heq hne]
  cases u <;> cases v
  case text.text s t =>
    simp only [Value.renumber]
    split
    · exact mirrors_pure (Value.text (s ++ t))
    · exact mirrors_abort _
  case number.number a b =>
    simp only [Value.renumber]
    have hpure := @mirrors_pure _ π (Value.renumber π) (arithmetic operator.kind a b)
    rwa [arithmetic_renumber] at hpure
  all_goals
    simp only [Value.renumber]
    split <;> exact mirrors_abort _

/-! ## Methods and instances -/

theorem mirrors_bindMethod (method : Method) (receiver : Value) :
    Mirrors π (Value.renumber π) (bindMethod method receiver)
      (bindMethod method (receiver.renumber π)) := by
  cases method with
  | closure c =>
      refine (mirrors_enter _ _).bind fun E => (mirrors_bindAll E [(thisName, receiver)]).bind
        fun _ => ?_
      exact mirrors_freshId_kept.bind fun k => mirrors_pure (Value.function k { c with env := E })
  | native f => exact mirrors_freshId.bind fun k => mirrors_pure (Value.nativeMethod k f receiver)

theorem mirrors_getProperty (v : Value) (name : Token) :
    Mirrors π (Value.renumber π) (getProperty v name) (getProperty (v.renumber π) name) := by
  refine (mirrors_instance? v).bind fun found => ?_
  cases found with
  | none => exact mirrors_abort _
  | some i =>
      simp only [Option.map_some, Instance.renumber, Bindings.find?_mapValues]
      cases i.2.fields.find? name.lexeme with
      | some field => exact mirrors_pure field
      | none =>
          simp only [Option.map_none]
          cases i.2.cls.findMethod? name.lexeme with
          | some method => exact mirrors_bindMethod method v
          | none => exact mirrors_abort _

theorem mirrors_fieldOwner (v : Value) (name : Token) :
    Mirrors π id (fieldOwner v name) (fieldOwner (v.renumber π) name) := by
  cases v with
  | object ref => exact mirrors_pure ref
  | _ => exact mirrors_abort _

theorem mirrors_setField (ref : Nat) (name : String) (v : Value) :
    Mirrors π id (setField ref name v) (setField ref name (v.renumber π)) := by
  refine mirrors_modify ref fun i => ?_
  simp only [Instance.renumber, Bindings.insert_mapValues]

theorem mirrors_superMethod (method : Token) (slot : Slot) :
    Mirrors π (Value.renumber π) (superMethod method slot) (superMethod method slot) := by
  cases slot with
  | none => exact mirrors_abort _
  | some d =>
      refine mirrors_environment.bind fun E => (mirrors_getAt E d superName).bind fun parent => ?_
      refine (mirrors_getAt E (d - 1) thisName).bind fun receiver => ?_
      cases parent with
      | cls c =>
          simp only [Value.renumber]
          cases c.findMethod? method.lexeme with
          | some found => exact mirrors_bindMethod found receiver
          | none => exact mirrors_abort _
      | _ => exact mirrors_abort _

/-! ## Declarations -/

theorem mirrors_superclassOf (superclass : Option (Reference Slot)) :
    Mirrors π id (superclassOf superclass) (superclassOf superclass) := by
  cases superclass with
  | none => exact mirrors_pure none
  | some r =>
      refine (mirrors_lookUp r.name r.slot).bind fun v => ?_
      cases v with
      | cls c => exact mirrors_pure (some c)
      | _ => exact mirrors_abort _

theorem mirrors_methodEnv (superclass : Option Class) :
    Mirrors π id (methodEnv superclass) (methodEnv superclass) := by
  refine mirrors_environment.bind fun E => ?_
  cases superclass with
  | none => exact mirrors_pure E
  | some c =>
      refine (mirrors_enter superName E).bind fun inner => ?_
      exact (mirrors_bindAll inner [(superName, .cls c)]).bind fun _ => mirrors_pure inner

theorem mirrors_declareClass (name : Token) (superclass : Option (Reference Slot))
    (methods : List (FunDecl Slot)) :
    Mirrors π id (declareClass name superclass methods)
      (declareClass name superclass methods) := by
  refine (mirrors_superclassOf superclass).bind fun parent => ?_
  refine (mirrors_define name.lexeme .unassigned).bind fun _ => ?_
  refine (mirrors_methodEnv parent).bind fun E => mirrors_freshId.bind fun k => ?_
  exact mirrors_define name.lexeme (.cls _)

/-! ## Calls -/

theorem mirrors_checkCall (callee : Value) (count : Nat) (paren : Token) :
    Mirrors π id (checkCall callee count paren) (checkCall (callee.renumber π) count paren) := by
  unfold checkCall
  simp only [Value.arity?_renumber]
  split
  · exact mirrors_abort _
  · split
    · exact mirrors_pure ()
    · exact mirrors_abort _

theorem mirrors_callEnv (c : Closure) (vs : List Value) :
    Mirrors π id (callEnv c vs) (callEnv c (vs.map (Value.renumber π))) := by
  refine (mirrors_enter _ _).bind fun E => ?_
  have hzip : (c.declaration.params.map (·.lexeme)).zip (vs.map (Value.renumber π)) =
      ((c.declaration.params.map (·.lexeme)).zip vs).map fun x => (x.1, x.2.renumber π) := by
    rw [List.zip_map_right]
    rfl
  rw [hzip]
  exact (mirrors_bindAll E _).bind fun _ => mirrors_pure E

theorem mirrors_callValue (c : Closure) (completion : Completion) :
    Mirrors π (Value.renumber π) (callValue c completion)
      (callValue c (completion.renumber π)) := by
  unfold callValue
  split
  · exact mirrors_getAt _ _ _
  · cases completion with
    | normal => exact mirrors_pure Value.nil
    | returned v => exact mirrors_pure v

/-! ## Native functions -/

theorem mirrors_vectorAt (v : Value) :
    Mirrors π (fun x => (x.1, x.2.map (Value.renumber π))) (vectorAt v)
      (vectorAt (v.renumber π)) := by
  refine (mirrors_instance? v).bind fun found => ?_
  rcases found with _ | ⟨ref, cls, fields, _ | elements⟩
  · exact mirrors_abort _
  · exact mirrors_abort _
  · exact mirrors_pure (ref, elements)

theorem mirrors_element (elements : Array Value) (index : Int) :
    Mirrors π (Value.renumber π) (element elements index)
      (element (elements.map (Value.renumber π)) index) := by
  simp only [element, Array.size_map, Array.getElem?_map]
  generalize (if index < 0 then index + ↑elements.size else index) = position
  split
  · exact mirrors_abort _
  · cases elements[position.toNat]? with
    | some v => exact mirrors_pure v
    | none => exact mirrors_abort _

theorem mirrors_elementAt (v index : Value) :
    Mirrors π (Value.renumber π) (elementAt v index)
      (elementAt (v.renumber π) (index.renumber π)) := by
  have hindex : index? (index.renumber π) = index? index := by cases index <;> rfl
  simp only [elementAt, hindex]
  cases index? index with
  | some i => exact (mirrors_vectorAt v).bind fun x => mirrors_element x.2 i
  | none =>
      refine mirrors_of_eq (fun _ => rfl) fun m => ?_
      have hname := congrArg
        (fun s => "Vectors can only be indexed with integers, index is: " ++ s ++ ".")
        (index.typeName_renumber (π := π) m.objects)
      cases index with
      | number x => rfl
      | _ => exact congrArg (fun s => Result.abort (.failure s) (m.renumber π)) hname

theorem mirrors_appendTo (u v : Value) :
    Mirrors π (Value.renumber π) (appendTo u v) (appendTo (u.renumber π) (v.renumber π)) := by
  have href : Mirrors π id (vectorRef u) (vectorRef (u.renumber π)) :=
    (mirrors_vectorAt u).bind fun x => mirrors_pure x.1
  refine href.bind fun ref => Mirrors.bind (mirrors_modify ref fun i => ?_)
    fun _ => mirrors_pure Value.nil
  obtain ⟨cls, fields, _ | elements⟩ := i
  · rfl
  · simp [Instance.renumber]

theorem mirrors_runBody (f : Native) (vs : List Value) :
    Mirrors π (Value.renumber π) (runBody f vs) (runBody f (vs.map (Value.renumber π))) := by
  unfold runBody
  cases f.body with
  | clock => exact mirrors_of_eq (fun _ => rfl) fun _ => rfl
  | typeOf =>
      cases vs with
      | nil => exact mirrors_pure Value.nil
      | cons v vs =>
          refine mirrors_of_eq (fun _ => rfl) fun m => ?_
          exact congrArg (fun s => Result.ok (Value.text s) (m.renumber π))
            (v.typeName_renumber m.objects)
  | append =>
      rcases vs with _ | ⟨u, _ | ⟨v, vs⟩⟩
      · exact mirrors_pure Value.nil
      · exact mirrors_pure Value.nil
      · exact mirrors_appendTo u v
  | length =>
      cases vs with
      | nil => exact mirrors_pure Value.nil
      | cons v vs =>
          refine (mirrors_vectorAt v).bind fun x => ?_
          simp only [Array.size_map]
          exact mirrors_pure (Value.number _)
  | elementAt =>
      rcases vs with _ | ⟨u, _ | ⟨v, vs⟩⟩
      · exact mirrors_pure Value.nil
      · exact mirrors_pure Value.nil
      · exact mirrors_elementAt u v
  | argument index =>
      cases index with
      | none => exact mirrors_pure Value.nil
      | some i =>
          simp only [List.getElem?_map]
          cases vs[i]? with
          | none => exact mirrors_abort _
          | some v => exact mirrors_pure v
  | refuse message => exact mirrors_abort _
  | fail message => exact mirrors_abort _
  | breakDown => exact mirrors_abort _

theorem mirrors_runFunction (f : Native) (vs : List Value) :
    Mirrors π (Value.renumber π) (runFunction f vs)
      (runFunction f (vs.map (Value.renumber π))) := by
  simp only [runFunction, List.length_map]
  split
  · exact mirrors_abort _
  · exact mirrors_runBody f vs

theorem mirrors_runMethod (f : Native) (receiver : Value) (vs : List Value) :
    Mirrors π (Value.renumber π) (runMethod f receiver vs)
      (runMethod f (receiver.renumber π) (vs.map (Value.renumber π))) := by
  have hrun := mirrors_runFunction (π := π) f (receiver :: vs)
  cases receiver with
  | nil => exact mirrors_abort _
  | _ => exact hrun

end Eval
end Lox
