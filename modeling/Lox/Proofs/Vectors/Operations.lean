import Lox.Proofs.Vacancy.Declarations
import Lox.Proofs.Vectors.Lists

/-!
# Operations that leave vectors alone

The operations of the evaluator that are not part of its recursion neither make a vector nor
change one, except the making of instances and the calls of native functions. Of the native
functions only `append` changes a vector, and that is the vector it is called on.
-/

namespace Lox

open Eval

variable {V : Class}

/-! ## Machines -/

/-- An instance that was just made has no fields. -/
theorem genuine_new {c : Class} {elements : Option (Array Value)} (hc : elements ≠ none → c = V)
    (hvs : ∀ vs, elements = some vs → ∀ v ∈ vs, v.Genuine V) :
    Instance.Genuine V ⟨c, [], elements⟩ :=
  ⟨hc, (fun _ _ h => by cases h), hvs⟩

theorem Instance.Genuine.insert {i : Instance} (h : i.Genuine V) (name : String) {v : Value}
    (hv : v.Genuine V) : { i with fields := i.fields.insert name v }.Genuine V := by
  refine ⟨h.cls, fun n u hu => ?_, h.elements⟩
  rw [Bindings.find?_insert] at hu
  split at hu
  · cases hu
    exact hv
  · exact h.fields n u hu

theorem Instance.Genuine.push {i : Instance} (h : i.Genuine V) {v : Value} (hv : v.Genuine V) :
    { i with elements := i.elements.map (Array.push · v) }.Genuine V := by
  refine ⟨fun hne => h.cls fun hnone => hne ?_, h.fields, fun us hus u hu => ?_⟩
  · rw [hnone]
    rfl
  · obtain ⟨vs, hvs, rfl⟩ := Option.map_eq_some_iff.mp hus
    rcases Array.mem_push.mp hu with hu | rfl
    · exact h.elements vs hvs u hu
    · exact hv

namespace Machine.Genuine

variable {m m' : Machine} (h : m.Genuine V)

include h

theorem congr (hframes : m'.frames = m.frames) (hobjects : m'.objects = m.objects)
    (hclass : m'.vectorClass = m.vectorClass) : m'.Genuine V :=
  ⟨hframes ▸ h.bindings, hobjects ▸ h.objects, hclass ▸ h.vectorClass⟩

theorem bind (id : FrameId) (name : String) {v : Value} (hv : v.Genuine V) :
    { m with frames := m.frames.bind id name v }.Genuine V := by
  refine ⟨fun k n u hu => ?_, h.objects, h.vectorClass⟩
  rcases Frames.binding?_bind_cases hu with hu | ⟨_, rfl⟩
  · exact h.bindings k n u hu
  · exact hv

theorem define (E : Env) (name : String) {v : Value} (hv : v.Genuine V) :
    { m with frames := m.frames.define E name v }.Genuine V := by
  cases E with
  | nil => exact h
  | cons id E => exact h.bind id name hv

theorem opened {E : Env} {l : List (String × Value)} (hl : ∀ x ∈ l, x.2.Genuine V)
    (label : String) :
    { m with
      frames := (m.frames.enter label E).2.defineAll (m.frames.size :: E) l }.Genuine V := by
  refine ⟨fun k n u hu => ?_, h.objects, h.vectorClass⟩
  rcases Frames.binding?_defineAll_cases hu with hu | hu
  · rw [Frames.binding?_enter] at hu
    exact h.bindings k n u hu
  · exact hl _ hu

theorem push {i : Instance} (hi : i.Genuine V) :
    { m with objects := m.objects.push i }.Genuine V := by
  refine ⟨h.bindings, fun ref j hj => ?_, h.vectorClass⟩
  rw [Array.getElem?_push] at hj
  split at hj
  · cases hj
    exact hi
  · exact h.objects ref j hj

theorem modify (ref : Nat) {f : Instance → Instance}
    (hf : ∀ i : Instance, i.Genuine V → (f i).Genuine V) :
    { m with objects := m.objects.modify ref f }.Genuine V := by
  refine ⟨h.bindings, fun r j hj => ?_, h.vectorClass⟩
  rw [Array.getElem?_modify] at hj
  split at hj
  · obtain ⟨i, hi, rfl⟩ := Option.map_eq_some_iff.mp hj
    exact hf i (h.objects r i hi)
  · exact h.objects r j hj

theorem getAt {E : Env} {d : Nat} {name : String} {v : Value}
    (hv : m.frames.getAt E d name = .ok v) : v.Genuine V := by
  obtain ⟨k, hk⟩ := Frames.exists_binding?_of_getAt hv
  exact h.bindings k name v hk

end Machine.Genuine

/-! ## Steps without moments -/

section

variable {α : Type} {Q : α → Prop} {x : Eval α} {m : Machine}

theorem steady_of_ok {v : α} {m' : Machine} (hx : x m = .ok v m') (hm' : m'.Genuine V)
    (hlists : m'.lists = m.lists) (hv : Q v) : Steady V Q x m := by
  rw [Steady, hx]
  exact ⟨hm', hlists, fun u m'' hu => by cases hu; exact hv, trivial⟩

/-- A step that leaves the machine as it is. -/
theorem steady_of_machine (hx : (x m).machine = m) (hm : m.Genuine V)
    (hv : ∀ v m', x m = .ok v m' → Q v) : Steady V Q x m :=
  ⟨hx.symm ▸ hm, congrArg Machine.lists hx, hv, trivial⟩

theorem steady_of_abort {r : Abort} (hx : x m = .abort r m) (hm : m.Genuine V) :
    Steady V Q x m :=
  steady_of_machine (by rw [hx]; rfl) hm fun v m' hv => by rw [hx] at hv; cases hv

theorem steady_pure {v : α} (hm : m.Genuine V) (hv : Q v) : Steady V Q (pure v) m :=
  steady_of_ok rfl hm rfl hv

theorem steady_abort {r : Abort} (hm : m.Genuine V) : Steady V Q (Eval.abort r) m :=
  steady_of_abort rfl hm

end

/-! ## Operations -/

section

variable {m : Machine} (hm : m.Genuine V)

include hm

theorem steady_environment : Steady V anything environment m :=
  steady_of_ok rfl hm rfl trivial

theorem steady_freshId : Steady V anything freshId m :=
  steady_of_ok rfl (hm.congr rfl rfl rfl) rfl trivial

theorem steady_setLastValue (v : Value) : Steady V anything (setLastValue v) m :=
  steady_of_ok rfl (hm.congr rfl rfl rfl) rfl trivial

theorem steady_print (text : String) : Steady V anything (print text) m :=
  steady_of_ok rfl (hm.congr rfl rfl rfl) rfl trivial

theorem steady_define (name : String) {v : Value} (hv : v.Genuine V) :
    Steady V anything (define name v) m :=
  steady_of_ok rfl (hm.define m.env name hv) rfl trivial

theorem steady_assign (name : Token) (slot : Slot) {v : Value} (hv : v.Genuine V) :
    Steady V anything (assign name slot v) m := by
  have hassign := Comparison.assign_eq name slot v m
  split at hassign
  · exact steady_of_ok hassign (hm.bind _ name.lexeme hv) rfl trivial
  · exact steady_of_abort hassign hm
  · exact steady_of_abort hassign hm

/-- A frame is made for a scope, with what is bound at its opening. -/
theorem steady_opening {x : Eval Env} {E : Env} {l : List (String × Value)} (label : String)
    (hx : x m = .ok (m.frames.size :: E) { m with
      frames := (m.frames.enter label E).2.defineAll (m.frames.size :: E) l })
    (hl : ∀ y ∈ l, y.2.Genuine V) : Steady V anything x m :=
  steady_of_ok hx (hm.opened hl label) rfl trivial

theorem steady_block (E : Env) : Steady V anything (enter "block" E) m :=
  steady_opening hm (l := []) "block" rfl fun _ hy => absurd hy List.not_mem_nil

theorem steady_callEnv (c : Closure) {vs : List Value} (hvs : ∀ v ∈ vs, v.Genuine V) :
    Steady V anything (callEnv c vs) m :=
  steady_opening hm _ (Comparison.callEnv_eq c vs m) fun _ hy => hvs _ (List.of_mem_zip hy).2

theorem steady_lookUp (name : Token) (slot : Slot) :
    Steady V (Value.Genuine V) (lookUp name slot) m := by
  refine steady_of_machine (Comparison.lookUp_machine name slot m) hm fun v m' hv => ?_
  rw [Comparison.lookUp_eq] at hv
  split at hv
  · cases hv
  · next hfound =>
      cases hv
      obtain ⟨k, hk⟩ := Frames.exists_binding?_of_seek hfound
      exact hm.bindings k _ v hk
  · cases hv
  · cases hv

theorem steady_getAt (E : Env) (d : Nat) (name : String) :
    Steady V (Value.Genuine V) (getAt E d name) m := by
  cases hx : m.frames.getAt E d name with
  | ok v => exact steady_of_ok (by rw [getAt, hx]) hm rfl (hm.getAt hx)
  | error f =>
      have hget : getAt E d name m = .abort (.fault (.distance f)) m := by rw [getAt, hx]
      exact steady_of_abort hget hm

theorem steady_bindMethod (method : Method) {v : Value} (hv : v.Genuine V) :
    Steady V (Value.Genuine V) (bindMethod method v) m := by
  cases method with
  | closure c =>
      have hopen : Steady V anything (receiverEnv c v) m := by
        refine steady_opening hm (l := [(thisName, v)]) _ rfl fun y hy => ?_
        rw [List.mem_singleton.mp hy]
        exact hv
      rw [Comparison.bindMethod_closure]
      exact hopen.map fun E m₁ hm₁ _ => (steady_freshId hm₁).map fun id m₂ hm₂ _ =>
        steady_pure hm₂ trivial
  | native f => exact (steady_freshId hm).map fun id m₁ hm₁ _ => steady_pure hm₁ hv

theorem steady_instance? (v : Value) :
    Steady V (fun found : Option (Nat × Instance) => ∀ x, found = some x → x.2.Genuine V)
      (instance? v) m := by
  cases v with
  | object ref =>
      refine steady_of_ok rfl hm rfl fun x hx => ?_
      obtain ⟨i, hi, rfl⟩ := Option.map_eq_some_iff.mp hx
      exact hm.objects ref i hi
  | _ => exact steady_of_ok rfl hm rfl nofun

theorem steady_getProperty {v : Value} (name : Token) (hv : v.Genuine V) :
    Steady V (Value.Genuine V) (getProperty v name) m := by
  refine (steady_instance? hm v).map fun found m₁ hm₁ hfound => ?_
  cases found with
  | none => exact steady_abort hm₁
  | some x =>
      have hi := hfound x rfl
      dsimp only
      cases hfield : x.2.fields.find? name.lexeme with
      | some field => exact steady_pure hm₁ (hi.fields _ _ hfield)
      | none =>
          dsimp only
          cases x.2.cls.findMethod? name.lexeme with
          | some method => exact steady_bindMethod hm₁ method hv
          | none => exact steady_abort hm₁

theorem steady_superMethod (method : Token) (slot : Slot) :
    Steady V (Value.Genuine V) (superMethod method slot) m := by
  cases slot with
  | none => exact steady_abort hm
  | some d =>
      refine (steady_environment hm).map fun E m₁ hm₁ _ => ?_
      refine (steady_getAt hm₁ E d superName).map fun parent m₂ hm₂ _ => ?_
      refine (steady_getAt hm₂ E (d - 1) thisName).map fun receiver m₃ hm₃ hreceiver => ?_
      cases parent with
      | cls c =>
          dsimp only
          cases c.findMethod? method.lexeme with
          | some found => exact steady_bindMethod hm₃ found hreceiver
          | none => exact steady_abort hm₃
      | _ => exact steady_abort hm₃

theorem steady_setField (ref : Nat) (name : String) {v : Value} (hv : v.Genuine V) :
    Steady V anything (setField ref name v) m :=
  steady_of_ok rfl (hm.modify ref fun _ hi => hi.insert name hv)
    (lists_modify m ref fun _ => rfl) trivial

/-! ## Classes -/

theorem steady_methodEnv {parent : Option Class} (hparent : ∀ c, parent = some c →
    (Value.cls c).Genuine V) : Steady V anything (methodEnv parent) m := by
  cases parent with
  | none => exact steady_environment hm
  | some c =>
      refine steady_opening hm (l := [(superName, .cls c)]) superName rfl fun y hy => ?_
      rw [List.mem_singleton.mp hy]
      exact hparent c rfl

theorem steady_superclassOf (superclass : Option (Reference Slot)) :
    Steady V (fun parent => ∀ c, parent = some c → (Value.cls c).Genuine V)
      (superclassOf superclass) m := by
  cases superclass with
  | none => exact steady_pure hm nofun
  | some r =>
      refine (steady_lookUp hm r.name r.slot).map fun v m₁ hm₁ hv => ?_
      cases v with
      | cls c => exact steady_pure hm₁ fun _ hc => Option.some.inj hc ▸ hv
      | _ => exact steady_abort hm₁

/-- A class of the program makes no vectors, whatever it inherits from. -/
theorem steady_declareClass (name : Token) (superclass : Option (Reference Slot))
    (methods : List (FunDecl Slot)) :
    Steady V anything (declareClass name superclass methods) m := by
  refine (steady_superclassOf hm superclass).map fun parent m₁ hm₁ hparent => ?_
  refine (steady_define hm₁ name.lexeme (v := .unassigned) trivial).map fun _ m₂ hm₂ _ => ?_
  refine (steady_methodEnv hm₂ hparent).map fun E m₃ hm₃ _ => ?_
  refine (steady_freshId hm₃).map fun id m₄ hm₄ _ => ?_
  refine steady_define hm₄ name.lexeme fun hvector => ?_
  cases parent <;> cases hvector

end

/-! ## Native functions -/

/-- A body that has parameters is given as many arguments, or it refuses. -/
theorem countFault?_eq_none {body : NativeBody} {name : String} {parameters : List String}
    (h : parameters? body = some (name, parameters)) {given : Nat} :
    countFault? body given = none ↔ given = parameters.length := by
  simp only [countFault?, h, Bool.not_eq_true', List.isEmpty_eq_false_iff, ne_eq,
    List.drop_eq_nil_iff]
  split
  · next hmissing => exact iff_of_false nofun fun heq => hmissing (by omega)
  · split
    · exact iff_of_false nofun fun heq => by omega
    · exact iff_of_true rfl (by omega)

section

variable {f : Native} (receiver v : Value)

theorem runFunction_eq_runBody {vs : List Value} (h : countFault? f.body vs.length = none) :
    runFunction f vs = runBody f vs := by
  unfold runFunction
  rw [h]

theorem runFunction_append (hf : f.body = .append) :
    runFunction f [receiver, v] = appendTo receiver v := by
  rw [runFunction_eq_runBody (hf ▸ (countFault?_eq_none rfl).mpr rfl)]
  unfold runBody
  rw [hf]

theorem runFunction_length (hf : f.body = .length) :
    runFunction f [receiver] = lengthOf receiver := by
  rw [runFunction_eq_runBody (hf ▸ (countFault?_eq_none rfl).mpr rfl)]
  unfold runBody
  rw [hf]

theorem runFunction_elementAt (hf : f.body = .elementAt) :
    runFunction f [receiver, v] = elementAt receiver v := by
  rw [runFunction_eq_runBody (hf ▸ (countFault?_eq_none rfl).mpr rfl)]
  unfold runBody
  rw [hf]

end

/-- The deed, if there is one, is done if the step gives a value, and otherwise nothing is. -/
structure Performs (V : Class) (d : Option VectorDeed) (m : Machine) (r : Result Value) : Prop where
  genuine : r.machine.Genuine V
  value : ∀ v m', r = .ok v m' → v.Genuine V ∧ m'.lists = d.elim m.lists (VectorDeed.apply m.lists)
  aborts : ∀ reason m', r = .abort reason m' → m'.lists = m.lists

section

variable {m : Machine}

theorem Replays.performs {x : Eval Value} (h : Steady V (Value.Genuine V) x m) :
    Performs V none m (x m) := by
  obtain ⟨hgenuine, hlists, hvalue, -⟩ := h
  refine ⟨hgenuine, fun v m' hv => ⟨hvalue v m' hv, ?_⟩, fun r m' hr => ?_⟩
  · rw [hv] at hlists
    exact hlists
  · rw [hr] at hlists
    exact hlists

theorem performs_abort (hm : m.Genuine V) (d : Option VectorDeed) (reason : Abort) :
    Performs V d m (.abort reason m) :=
  ⟨hm, nofun, fun _ _ hr => by cases hr; rfl⟩

theorem Machine.Genuine.pushed (hm : m.Genuine V) (ref : Nat) {v : Value} (hv : v.Genuine V) :
    (m.pushed ref v).Genuine V :=
  hm.modify ref fun _ hi => hi.push hv

/-- What is no vector is refused. -/
theorem vectorAt_refuses {receiver : Value}
    (h : ∀ ref, receiver = .object ref → m.lists ref = none) :
    vectorAt receiver m = .abort (.fault .notVector) m := by
  cases receiver with
  | object ref =>
      have hnone := h ref rfl
      cases hi : m.objects[ref]? with
      | none =>
          simp only [vectorAt, instance?, bind_apply, hi]
          rfl
      | some i =>
          rw [Machine.lists, hi, Option.bind_some, Option.map_eq_none_iff] at hnone
          rw [vectorAt_object hi, hnone]
  | _ => rfl

theorem performs_appendTo (hm : m.Genuine V) (receiver : Value) {v : Value} (hv : v.Genuine V)
    {f : Native} (hf : f.body = .append) :
    Performs V (f.append? [receiver, v]) m (appendTo receiver v m) := by
  by_cases h : ∃ ref l, receiver = .object ref ∧ m.lists ref = some l
  · obtain ⟨ref, l, rfl, hl⟩ := h
    rw [appendTo_eq hl, Native.append?, if_pos hf]
    refine ⟨hm.pushed ref hv, fun u m' hu => ?_, fun _ _ hr => by cases hr⟩
    cases hu
    exact ⟨trivial, lists_pushed m ref v⟩
  · have hrefuse : appendTo receiver v m = .abort (.fault .notVector) m := by
      rw [appendTo, bind_apply, vectorRef, bind_apply, vectorAt_refuses fun ref href => ?_]
      exact Option.eq_none_iff_forall_ne_some.mpr fun l hl => h ⟨ref, l, href, hl⟩
    rw [hrefuse]
    exact performs_abort hm _ _

theorem steady_vectorAt (hm : m.Genuine V) (receiver : Value) :
    Steady V (fun x : Nat × Array Value => ∀ v ∈ x.2, v.Genuine V) (vectorAt receiver) m := by
  refine (steady_instance? hm receiver).map fun found m₁ hm₁ hfound => ?_
  rcases found with _ | ⟨ref, cls, fields, elements⟩
  · exact steady_abort hm₁
  · have hi := hfound _ rfl
    cases elements with
    | none => exact steady_abort hm₁
    | some elements => exact steady_pure hm₁ (hi.elements elements rfl)

theorem steady_element (hm : m.Genuine V) {elements : Array Value}
    (hvs : ∀ v ∈ elements, v.Genuine V) (index : Int) :
    Steady V (Value.Genuine V) (element elements index) m := by
  simp only [element]
  generalize (if index < 0 then index + ↑elements.size else index) = position
  split
  · exact steady_abort hm
  · cases hv : elements[position.toNat]? with
    | some v => exact steady_pure hm (hvs v (Array.mem_of_getElem? hv))
    | none => exact steady_abort hm

theorem steady_elementAt (hm : m.Genuine V) (receiver index : Value) :
    Steady V (Value.Genuine V) (elementAt receiver index) m := by
  unfold elementAt
  split
  · exact (steady_vectorAt hm receiver).map fun x m₁ hm₁ hx => steady_element hm₁ hx _
  · exact steady_of_machine rfl hm nofun

/-- All bodies but that of `append` leave vectors alone. -/
theorem steady_runBody (hm : m.Genuine V) {f : Native} (hf : f.body ≠ .append) {vs : List Value}
    (hvs : ∀ v ∈ vs, v.Genuine V) : Steady V (Value.Genuine V) (runBody f vs) m := by
  unfold runBody
  cases hbody : f.body with
  | append => exact absurd hbody hf
  | clock => exact steady_of_ok rfl (hm.congr rfl rfl rfl) rfl trivial
  | typeOf =>
      cases vs with
      | nil => exact steady_pure hm trivial
      | cons v vs => exact steady_of_ok rfl hm rfl trivial
  | length =>
      cases vs with
      | nil => exact steady_pure hm trivial
      | cons receiver vs =>
          exact (steady_vectorAt hm receiver).map fun _ m₁ hm₁ _ => steady_pure hm₁ trivial
  | elementAt =>
      rcases vs with _ | ⟨receiver, _ | ⟨index, vs⟩⟩
      · exact steady_pure hm trivial
      · exact steady_pure hm trivial
      · exact steady_elementAt hm receiver index
  | argument index =>
      cases index with
      | none => exact steady_pure hm trivial
      | some i =>
          dsimp only
          cases hv : vs[i]? with
          | none => exact steady_abort hm
          | some v => exact steady_pure hm (hvs v (List.mem_of_getElem? hv))
  | refuse message => exact steady_abort hm
  | fail message => exact steady_abort hm
  | breakDown => exact steady_abort hm

theorem performs_runFunction (hm : m.Genuine V) (f : Native) {vs : List Value}
    (hvs : ∀ v ∈ vs, v.Genuine V) : Performs V (f.append? vs) m (runFunction f vs m) := by
  cases hcount : countFault? f.body vs.length with
  | some message =>
      have hrefuse : runFunction f vs m = .abort (.failure (f.name ++ ": " ++ message)) m := by
        unfold runFunction
        rw [hcount]
        rfl
      rw [hrefuse]
      exact performs_abort hm _ _
  | none =>
      by_cases hf : f.body = .append
      · rw [hf, countFault?_eq_none rfl] at hcount
        obtain ⟨receiver, v, rfl⟩ := List.length_eq_two.mp hcount
        rw [runFunction_append receiver v hf]
        exact performs_appendTo hm receiver (hvs v (.tail _ (.head _))) hf
      · have hnone : f.append? vs = none := by
          unfold Native.append?
          split
          · exact if_neg hf
          · rfl
        rw [hnone, runFunction_eq_runBody hcount]
        exact (steady_runBody hm hf hvs).performs

/-- A native method is called on the receiver that it was taken from. -/
theorem performs_runMethod (hm : m.Genuine V) (f : Native) {receiver : Value}
    (hreceiver : receiver.Genuine V) {vs : List Value} (hvs : ∀ v ∈ vs, v.Genuine V) :
    Performs V (f.append? (receiver :: vs)) m (runMethod f receiver vs m) := by
  unfold runMethod
  split
  · exact performs_abort hm _ _
  · exact performs_runFunction hm f (List.forall_mem_cons.mpr ⟨hreceiver, hvs⟩)

end

end Lox
