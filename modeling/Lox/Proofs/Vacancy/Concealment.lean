import Lox.Proofs.Vacancy.Marks

/-!
# Machines that conceal the marker

A machine conceals the marker of variables without a value if it is nowhere but in the
frames: in no field, in no vector, and in no method that was taken from a receiver. The
names of the language are never marked, because they are read without a look at the marker.

The operations of the evaluator that are not part of its recursion are quiet. They mark
no variable and give none a value, they print nothing, and what they give is not the
marker. Only the declarations, the assignments and the print statement are left out here.
-/

namespace Lox

open Eval

/-- The value is not the marker, and neither is the receiver in it. -/
def Value.Given : Value → Prop
  | .unassigned => False
  | .nativeMethod _ _ receiver => receiver.Given
  | _ => True

theorem Value.Given.ne_unassigned {v : Value} (h : v.Given) : v ≠ .unassigned := by
  rintro rfl
  exact h

/-- The value of a statement that returns one is given. -/
def Completion.Given (k : Completion) : Prop :=
  ∀ v ∈ k.values, v.Given

theorem Completion.given_normal : Completion.normal.Given :=
  fun _ h => absurd h List.not_mem_nil

structure Instance.Given (i : Instance) : Prop where
  fields : ∀ name v, i.fields.find? name = some v → v.Given
  elements : ∀ vs, i.elements = some vs → ∀ v ∈ vs, v.Given

def Objects.Given (objects : Objects) : Prop :=
  ∀ (ref : Nat) (i : Instance), objects[ref]? = some i → i.Given

/-- Nothing but the variables of a frame can hold the marker. -/
structure Machine.Conceals (m : Machine) : Prop where
  /-- `this` and `super` always have values. -/
  reserved : ∀ k name, m.marks k name → name ≠ thisName ∧ name ≠ superName
  bindings : ∀ k name v, m.frames.binding? k name = some v → v = .unassigned ∨ v.Given
  objects : m.objects.Given
  lastValue : m.lastValue.Given

/-! ## Machines -/

theorem Objects.Given.push {objects : Objects} {i : Instance} (h : objects.Given)
    (hi : i.Given) : Objects.Given (objects.push i) := by
  intro ref j hj
  rw [Array.getElem?_push] at hj
  split at hj
  · cases hj
    exact hi
  · exact h ref j hj

theorem Objects.Given.modify {objects : Objects} {f : Instance → Instance} (h : objects.Given)
    (hf : ∀ i : Instance, i.Given → (f i).Given) (ref : Nat) :
    Objects.Given (objects.modify ref f) := by
  intro r j hj
  rw [Array.getElem?_modify] at hj
  split at hj
  · obtain ⟨i, hi, rfl⟩ := Option.map_eq_some_iff.mp hj
    exact hf i (h r i hi)
  · exact h r j hj

namespace Machine.Conceals

variable {m : Machine} (h : m.Conceals)

include h

/-- Which environment is current does not matter. -/
theorem at_env (E : Env) : { m with env := E }.Conceals :=
  ⟨h.reserved, h.bindings, h.objects, h.lastValue⟩

theorem fresh : m.fresh.Conceals :=
  ⟨h.reserved, h.bindings, h.objects, trivial⟩

theorem with_objects {objects : Objects} (ho : objects.Given) :
    { m with objects := objects }.Conceals :=
  ⟨h.reserved, h.bindings, ho, h.lastValue⟩

theorem bind (id : FrameId) (name : String) {v : Value} (hv : v.Given) :
    { m with frames := m.frames.bind id name v }.Conceals := by
  refine ⟨fun k n hk => ?_, fun k n u hu => ?_, h.objects, h.lastValue⟩
  · exact h.reserved k n ((Frames.marks_bind hv.ne_unassigned).mp hk).1
  · rcases Frames.binding?_bind_cases hu with hu | ⟨_, rfl⟩
    · exact h.bindings k n u hu
    · exact .inr hv

theorem define (E : Env) (name : String) {v : Value} (hv : v.Given) :
    { m with frames := m.frames.define E name v }.Conceals := by
  cases E with
  | nil => exact h
  | cons id E => exact h.bind id name hv

/-- A name of the program is marked. -/
theorem vacate {id : FrameId} (hid : id < m.frames.size) {name : String}
    (hthis : name ≠ thisName) (hsuper : name ≠ superName) :
    { m with frames := m.frames.bind id name .unassigned }.Conceals := by
  refine ⟨fun k n hk => ?_, fun k n u hu => ?_, h.objects, h.lastValue⟩
  · rcases (Frames.marks_bind_unassigned hid).mp hk with ⟨_, rfl⟩ | hk
    · exact ⟨hthis, hsuper⟩
    · exact h.reserved k n hk
  · rcases Frames.binding?_bind_cases hu with hu | ⟨_, rfl⟩
    · exact h.bindings k n u hu
    · exact .inl rfl

theorem opened {E : Env} {l : List (String × Value)} (hl : ∀ x ∈ l, x.2.Given)
    (label : String) :
    { m with
      frames := (m.frames.enter label E).2.defineAll (m.frames.size :: E) l }.Conceals := by
  have hmarks := Frames.marks_opened (F := m.frames) (E := E)
    (fun x hx => (hl x hx).ne_unassigned) label
  refine ⟨fun k n hk => ?_, fun k n u hu => ?_, h.objects, h.lastValue⟩
  · rw [Machine.marks, hmarks] at hk
    exact h.reserved k n hk
  · rcases Frames.binding?_defineAll_cases hu with hu | hu
    · rw [Frames.binding?_enter] at hu
      exact h.bindings k n u hu
    · exact .inr (hl _ hu)

theorem given_of_not_marked {k : FrameId} {name : String} {v : Value}
    (hv : m.frames.binding? k name = some v) (hne : v ≠ .unassigned) : v.Given :=
  (h.bindings k name v hv).resolve_left hne

/-- What the names of the language are bound to. -/
theorem given_of_getAt {E : Env} {d : Nat} {name : String} {v : Value}
    (hname : name = thisName ∨ name = superName) (hv : m.frames.getAt E d name = .ok v) :
    v.Given := by
  obtain ⟨k, hk⟩ := Frames.exists_binding?_of_getAt hv
  refine h.given_of_not_marked hk fun hmarker => ?_
  rw [hmarker] at hk
  obtain ⟨hthis, hsuper⟩ := h.reserved k name hk
  exact hname.elim hthis hsuper

end Machine.Conceals

/-! ## Quiet steps -/

/-- From the machine the step leaves the same variables marked and no other place, it
prints nothing, and its value is a `Q`. -/
structure Quiet {α : Type} (Q : α → Prop) (x : Eval α) (m : Machine) : Prop where
  conceals : (x m).machine.Conceals
  marks : (x m).machine.marks = m.marks
  output : (x m).machine.output = m.output
  value : ∀ v m', x m = .ok v m' → Q v

/-- Nothing is asked of a value. -/
abbrev anything {α : Type} (_ : α) : Prop := True

section

variable {α β : Type} {Q : α → Prop} {x : Eval α} {m : Machine}

theorem quiet_of_ok {v : α} {m' : Machine} (hx : x m = .ok v m') (hm' : m'.Conceals)
    (hmarks : m'.marks = m.marks) (houtput : m'.output = m.output) (hv : Q v) : Quiet Q x m := by
  refine ⟨?_, ?_, ?_, fun u m'' hu => ?_⟩
  · rw [hx]
    exact hm'
  · rw [hx]
    exact hmarks
  · rw [hx]
    exact houtput
  · rw [hx] at hu
    cases hu
    exact hv

/-- A step that leaves the machine as it is. -/
theorem quiet_of_machine (hx : (x m).machine = m) (hm : m.Conceals)
    (hv : ∀ v m', x m = .ok v m' → Q v) : Quiet Q x m :=
  ⟨hx.symm ▸ hm, congrArg Machine.marks hx, congrArg Machine.output hx, hv⟩

theorem quiet_pure {v : α} (hm : m.Conceals) (hv : Q v) : Quiet Q (pure v) m :=
  quiet_of_ok rfl hm rfl rfl hv

theorem quiet_abort {r : Abort} (hm : m.Conceals) : Quiet Q (Eval.abort r) m :=
  quiet_of_machine rfl hm nofun

theorem Quiet.bind {P : β → Prop} {y : Eval β} {f : β → Eval α} (h : Quiet P y m)
    (hf : ∀ b m₁, m₁.Conceals → P b → Quiet Q (f b) m₁) : Quiet Q (y >>= f) m := by
  obtain ⟨hconceals, hmarks, houtput, hvalue⟩ := h
  cases hy : y m with
  | ok b m₁ =>
      have hbind : (y >>= f) m = f b m₁ := by rw [bind_apply, hy]
      rw [hy] at hconceals hmarks houtput
      obtain ⟨hconceals₁, hmarks₁, houtput₁, hvalue₁⟩ := hf b m₁ hconceals (hvalue b m₁ hy)
      exact ⟨hbind ▸ hconceals₁, hbind ▸ hmarks₁.trans hmarks, hbind ▸ houtput₁.trans houtput,
        fun v m' hv => hvalue₁ v m' (hbind ▸ hv)⟩
  | abort r m₁ =>
      have hbind : (y >>= f) m = .abort r m₁ := by rw [bind_apply, hy]
      rw [hy] at hconceals hmarks houtput
      exact ⟨hbind ▸ hconceals, hbind ▸ hmarks, hbind ▸ houtput,
        fun v m' hv => by rw [hbind] at hv; cases hv⟩

end

/-! ## Operations -/

section

variable {m : Machine} (hm : m.Conceals)

include hm

theorem quiet_environment : Quiet anything environment m :=
  quiet_of_ok rfl hm rfl rfl trivial

theorem quiet_freshId : Quiet anything freshId m :=
  quiet_of_ok rfl ⟨hm.reserved, hm.bindings, hm.objects, hm.lastValue⟩ rfl rfl trivial

theorem quiet_setLastValue {v : Value} (hv : v.Given) : Quiet anything (setLastValue v) m :=
  quiet_of_ok rfl ⟨hm.reserved, hm.bindings, hm.objects, hv⟩ rfl rfl trivial

/-- A frame is made for a scope, with what is bound at its opening. -/
theorem quiet_opening {x : Eval Env} {E : Env} {l : List (String × Value)} (label : String)
    (hx : x m = .ok (m.frames.size :: E) { m with
      frames := (m.frames.enter label E).2.defineAll (m.frames.size :: E) l })
    (hl : ∀ y ∈ l, y.2.Given) : Quiet anything x m :=
  quiet_of_ok hx (hm.opened hl label)
    (Frames.marks_opened (fun y hy => (hl y hy).ne_unassigned) label) rfl trivial

theorem quiet_block (E : Env) : Quiet anything (enter "block" E) m :=
  quiet_opening hm (l := []) "block" rfl fun _ hy => absurd hy List.not_mem_nil

theorem quiet_callEnv (c : Closure) {vs : List Value} (hvs : ∀ v ∈ vs, v.Given) :
    Quiet anything (callEnv c vs) m :=
  quiet_opening hm _ (Comparison.callEnv_eq c vs m) fun _ hy => hvs _ (List.of_mem_zip hy).2

theorem quiet_lookUp (name : Token) (slot : Slot) : Quiet Value.Given (lookUp name slot) m := by
  refine quiet_of_machine (Comparison.lookUp_machine name slot m) hm fun v m' hv => ?_
  rw [Comparison.lookUp_eq] at hv
  split at hv
  · cases hv
  · next hne hfound =>
      cases hv
      obtain ⟨k, hk⟩ := Frames.exists_binding?_of_seek hfound
      exact hm.given_of_not_marked hk hne
  · cases hv
  · cases hv

theorem quiet_getAt (E : Env) (d : Nat) {name : String}
    (hname : name = thisName ∨ name = superName) : Quiet Value.Given (getAt E d name) m := by
  cases hx : m.frames.getAt E d name with
  | ok v =>
      have hget : getAt E d name m = .ok v m := by rw [getAt, hx]
      exact quiet_of_ok hget hm rfl rfl (hm.given_of_getAt hname hx)
  | error f =>
      have hget : getAt E d name m = .abort (.fault (.distance f)) m := by rw [getAt, hx]
      refine quiet_of_machine (by rw [hget]; rfl) hm fun v m' hv => ?_
      rw [hget] at hv
      cases hv

theorem quiet_bindMethod (method : Method) {v : Value} (hv : v.Given) :
    Quiet Value.Given (bindMethod method v) m := by
  cases method with
  | closure c =>
      have hopen : Quiet anything (receiverEnv c v) m := by
        refine quiet_opening hm (l := [(thisName, v)]) _ rfl fun y hy => ?_
        rw [List.mem_singleton.mp hy]
        exact hv
      rw [Comparison.bindMethod_closure]
      exact hopen.bind fun E m₁ hm₁ _ => (quiet_freshId hm₁).bind fun id m₂ hm₂ _ =>
        quiet_pure hm₂ trivial
  | native f => exact (quiet_freshId hm).bind fun id m₁ hm₁ _ => quiet_pure hm₁ hv

theorem quiet_instance? (v : Value) :
    Quiet (fun found : Option (Nat × Instance) => ∀ x, found = some x → x.2.Given)
      (instance? v) m := by
  cases v with
  | object ref =>
      refine quiet_of_ok rfl hm rfl rfl fun x hx => ?_
      obtain ⟨i, hi, rfl⟩ := Option.map_eq_some_iff.mp hx
      exact hm.objects ref i hi
  | _ => exact quiet_of_ok rfl hm rfl rfl nofun

theorem quiet_getProperty {v : Value} (name : Token) (hv : v.Given) :
    Quiet Value.Given (getProperty v name) m := by
  refine (quiet_instance? hm v).bind fun found m₁ hm₁ hfound => ?_
  cases found with
  | none => exact quiet_abort hm₁
  | some x =>
      have hi := hfound x rfl
      dsimp only
      cases hfield : x.2.fields.find? name.lexeme with
      | some field => exact quiet_pure hm₁ (hi.fields _ _ hfield)
      | none =>
          dsimp only
          cases x.2.cls.findMethod? name.lexeme with
          | some method => exact quiet_bindMethod hm₁ method hv
          | none => exact quiet_abort hm₁

theorem quiet_superMethod (method : Token) (slot : Slot) :
    Quiet Value.Given (superMethod method slot) m := by
  cases slot with
  | none => exact quiet_abort hm
  | some d =>
      refine (quiet_environment hm).bind fun E m₁ hm₁ _ => ?_
      refine (quiet_getAt hm₁ E d (.inr rfl)).bind fun parent m₂ hm₂ _ => ?_
      refine (quiet_getAt hm₂ E (d - 1) (.inl rfl)).bind fun receiver m₃ hm₃ hreceiver => ?_
      cases parent with
      | cls c =>
          dsimp only
          cases c.findMethod? method.lexeme with
          | some found => exact quiet_bindMethod hm₃ found hreceiver
          | none => exact quiet_abort hm₃
      | _ => exact quiet_abort hm₃

theorem quiet_modify (ref : Nat) {f : Instance → Instance}
    (hf : ∀ i : Instance, i.Given → (f i).Given) : Quiet anything (modify ref f) m :=
  quiet_of_ok rfl (hm.with_objects (hm.objects.modify hf ref)) rfl rfl trivial

theorem quiet_setField (ref : Nat) (name : String) {v : Value} (hv : v.Given) :
    Quiet anything (setField ref name v) m := by
  refine quiet_modify hm ref fun i hi => ⟨fun n u hu => ?_, hi.elements⟩
  rw [Bindings.find?_insert] at hu
  split at hu
  · cases hu
    exact hv
  · exact hi.fields n u hu

theorem quiet_allocate (c : Class) {vs : Option (Array Value)}
    (hvs : ∀ us, vs = some us → ∀ v ∈ us, v.Given) : Quiet Value.Given (allocate c vs) m :=
  quiet_of_ok rfl (hm.with_objects (hm.objects.push ⟨nofun, hvs⟩)) rfl rfl trivial

theorem quiet_methodEnv (parent : Option Class) : Quiet anything (methodEnv parent) m := by
  cases parent with
  | none => exact quiet_environment hm
  | some c =>
      refine quiet_opening hm (l := [(superName, .cls c)]) superName rfl fun y hy => ?_
      rw [List.mem_singleton.mp hy]
      exact trivial

/-- A call that is not refused has as many arguments as the callee takes. -/
theorem quiet_vectorAt (receiver : Value) :
    Quiet (fun x : Nat × Array Value => ∀ v ∈ x.2, v.Given) (vectorAt receiver) m := by
  refine (quiet_instance? hm receiver).bind fun found m₁ hm₁ hfound => ?_
  rcases found with _ | ⟨ref, cls, fields, elements⟩
  · exact quiet_abort hm₁
  · have hi := hfound _ rfl
    cases elements with
    | none => exact quiet_abort hm₁
    | some elements => exact quiet_pure hm₁ (hi.elements elements rfl)

theorem quiet_element {elements : Array Value} (hvs : ∀ v ∈ elements, v.Given) (index : Int) :
    Quiet Value.Given (element elements index) m := by
  simp only [element]
  generalize (if index < 0 then index + ↑elements.size else index) = position
  split
  · exact quiet_abort hm
  · cases hv : elements[position.toNat]? with
    | some v => exact quiet_pure hm (hvs v (Array.mem_of_getElem? hv))
    | none => exact quiet_abort hm

theorem quiet_elementAt (receiver index : Value) :
    Quiet Value.Given (elementAt receiver index) m := by
  unfold elementAt
  split
  · exact (quiet_vectorAt hm receiver).bind fun x m₁ hm₁ hx => quiet_element hm₁ hx _
  · exact quiet_of_machine rfl hm nofun

theorem quiet_appendTo (receiver : Value) {v : Value} (hv : v.Given) :
    Quiet Value.Given (appendTo receiver v) m := by
  have href : Quiet anything (vectorRef receiver) m :=
    (quiet_vectorAt hm receiver).bind fun x m₁ hm₁ _ => quiet_pure hm₁ trivial
  refine href.bind fun ref m₁ hm₁ _ => ?_
  refine Quiet.bind (quiet_modify hm₁ ref fun i hi => ⟨hi.fields, fun us hus u hu => ?_⟩)
    fun _ m₂ hm₂ _ => quiet_pure hm₂ (v := Value.nil) trivial
  obtain ⟨es, hes, rfl⟩ := Option.map_eq_some_iff.mp hus
  rcases Array.mem_push.mp hu with hu | rfl
  · exact hi.elements es hes u hu
  · exact hv

theorem quiet_runBody (f : Native) {vs : List Value} (hvs : ∀ v ∈ vs, v.Given) :
    Quiet Value.Given (runBody f vs) m := by
  unfold runBody
  cases f.body with
  | clock =>
      exact quiet_of_ok rfl ⟨hm.reserved, hm.bindings, hm.objects, hm.lastValue⟩ rfl rfl trivial
  | typeOf =>
      cases vs with
      | nil => exact quiet_pure hm trivial
      | cons v vs => exact quiet_of_ok rfl hm rfl rfl trivial
  | append =>
      rcases vs with _ | ⟨receiver, _ | ⟨v, vs⟩⟩
      · exact quiet_pure hm trivial
      · exact quiet_pure hm trivial
      · exact quiet_appendTo hm receiver (hvs v (.tail _ (.head _)))
  | length =>
      cases vs with
      | nil => exact quiet_pure hm trivial
      | cons receiver vs =>
          exact (quiet_vectorAt hm receiver).bind fun _ m₁ hm₁ _ => quiet_pure hm₁ trivial
  | elementAt =>
      rcases vs with _ | ⟨receiver, _ | ⟨index, vs⟩⟩
      · exact quiet_pure hm trivial
      · exact quiet_pure hm trivial
      · exact quiet_elementAt hm receiver index
  | argument index =>
      cases index with
      | none => exact quiet_pure hm trivial
      | some i =>
          dsimp only
          cases hv : vs[i]? with
          | none => exact quiet_abort hm
          | some v => exact quiet_pure hm (hvs v (List.mem_of_getElem? hv))
  | refuse message => exact quiet_abort hm
  | fail message => exact quiet_abort hm
  | breakDown => exact quiet_abort hm

theorem quiet_runFunction (f : Native) {vs : List Value} (hvs : ∀ v ∈ vs, v.Given) :
    Quiet Value.Given (runFunction f vs) m := by
  unfold runFunction
  split
  · exact quiet_abort hm
  · exact quiet_runBody hm f hvs

theorem quiet_runMethod (f : Native) {receiver : Value} (hreceiver : receiver.Given)
    {vs : List Value} (hvs : ∀ v ∈ vs, v.Given) :
    Quiet Value.Given (runMethod f receiver vs) m := by
  unfold runMethod
  split
  · exact quiet_abort hm
  · refine quiet_runFunction hm f fun v hv => ?_
    rcases List.mem_cons.mp hv with rfl | hv
    · exact hreceiver
    · exact hvs v hv

end

end Lox
