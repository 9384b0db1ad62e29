import Lox.Proofs.Natives.Regular
import Lox.Proofs.Scoping.Resolved

/-!
# Operations on regular machines

The operations of the evaluator that are not part of its recursion keep a regular
machine regular. None of them fails as native functions do; only the standard natives
themselves, at the end, do.
-/

namespace Lox

open Eval
open NativeTable (standardFunctions standardVectorMethods)

variable {R : Abort → Prop} {m : Machine} {n : Nat}

/-! ## Operations -/

theorem keeps_environment (hm : m.Regular) : Keeps R .none anyValue environment m :=
  keeps_of_ok rfl hm (Nat.le_refl _) trivial

theorem keeps_print (s : String) (hm : m.Regular) : Keeps R .none anyValue (print s) m :=
  keeps_of_ok rfl ⟨hm.frames, hm.objects, hm.vectorClass⟩ (Nat.le_refl _) trivial

theorem keeps_setLastValue (v : Value) (hm : m.Regular) :
    Keeps R .none anyValue (setLastValue v) m :=
  keeps_of_ok rfl ⟨hm.frames, hm.objects, hm.vectorClass⟩ (Nat.le_refl _) trivial

theorem keeps_freshId (hm : m.Regular) : Keeps R .none anyValue freshId m :=
  keeps_of_ok rfl ⟨hm.frames, hm.objects, hm.vectorClass⟩ (Nat.le_refl _) trivial

theorem keeps_define {name : String} {v : Value} (hm : m.Regular)
    (hv : v.BoundTo m.objects.size name) : Keeps R .none anyValue (define name v) m :=
  keeps_of_ok rfl (hm.define m.env hv) (Nat.le_refl _) trivial

theorem keeps_enter (label : String) (E : Env) (hm : m.Regular) :
    Keeps R .none anyValue (enter label E) m :=
  keeps_of_ok rfl (hm.enter label E) (Nat.le_refl _) trivial

theorem keeps_bindAll (E : Env) {l : List (String × Value)} (hm : m.Regular)
    (hl : ∀ x ∈ l, x.2.BoundTo m.objects.size x.1) : Keeps R .none anyValue (bindAll E l) m :=
  keeps_of_ok (Comparison.bindAll_eq E l m) (hm.defineAll E l hl) (Nat.le_refl _) trivial

/-- The variable at a distance, which is a value that its name may be bound to. -/
theorem getAt_boundTo (hm : m.Regular) {E : Env} {d : Nat} {name : String} {v : Value}
    (h : m.frames.getAt E d name = .ok v) : v.BoundTo m.objects.size name := by
  obtain ⟨k, hk⟩ := Frames.exists_binding?_of_getAt h
  exact hm.frames k name v hk

/-- A step that leaves the machine as it is. -/
theorem keeps_of_machine {α : Type} {Q : Nat → α → Prop} {x : Eval α} (hx : (x m).machine = m)
    (hm : m.Regular) (hends : (x m).Ends R Q) : Keeps R .none Q x m :=
  ⟨Nat.le_of_eq (by rw [hx]), by rw [hx]; exact hm, hends, fun _ h => h.elim⟩

theorem keeps_getAt (E : Env) (d : Nat) (name : String) (hm : m.Regular) :
    Keeps Abort.LeavesCall .none (fun k v => v.BoundTo k name) (getAt E d name) m := by
  cases hx : m.frames.getAt E d name with
  | ok v =>
      refine keeps_of_machine ?_ hm ?_ <;> simp only [getAt, hx]
      · rfl
      · exact getAt_boundTo hm hx
  | error f =>
      refine keeps_of_machine ?_ hm ?_ <;> simp only [getAt, hx]
      · rfl
      · exact .inl trivial

theorem seek_regular (hm : m.Regular) {name : String} {slot : Slot} {v : Value}
    (h : m.frames.seek m.env name slot = .ok v) : v.Regular m.objects.size := by
  obtain ⟨k, hk⟩ := Frames.exists_binding?_of_seek h
  exact (hm.frames k name v hk).regular

theorem keeps_lookUp (name : Token) (slot : Slot) (hm : m.Regular) :
    Keeps Abort.Passes .none Value.Regular (lookUp name slot) m := by
  refine keeps_of_machine (Comparison.lookUp_machine name slot m) hm ?_
  rw [Comparison.lookUp_eq]
  split
  · exact trivial
  · next v _ hv => exact seek_regular hm hv
  · exact .inl trivial
  · exact trivial

theorem keeps_assign {name : Token} (slot : Slot) {v : Value} (hm : m.Regular)
    (hname : name.IsName) (hv : v.Regular m.objects.size) :
    Keeps Abort.Passes .none anyValue (assign name slot v) m := by
  cases ht : m.frames.target m.env name.lexeme slot with
  | ok id =>
      have hassign : assign name slot v m =
          .ok () { m with frames := m.frames.bind id name.lexeme v } := by
        rw [Comparison.assign_eq, ht]
      exact keeps_of_ok hassign (hm.define [id] (hname.boundTo hv)) (Nat.le_refl _) trivial
  | error missing =>
      have hassign := Comparison.assign_eq name slot v m
      rw [ht] at hassign
      cases missing with
      | misplaced f => exact keeps_of_machine (by rw [hassign]; rfl) hm (hassign ▸ .inl trivial)
      | undefined => exact keeps_of_machine (by rw [hassign]; rfl) hm (hassign ▸ trivial)

/-! ## Methods and instances -/

/-- That a frame was made is no evaluation. -/
theorem opening_regular {o : Opening} {x : Eval Env} {a : Activity}
    (h : Visits.opening n o x m a) : a.Regular := by
  obtain ⟨_, _, _, rfl⟩ := h
  intro e he
  cases he

theorem bindVisits_regular {method : Method} {receiver : Value} {a : Activity}
    (h : bindVisits n method receiver m a) : a.Regular := by
  cases method with
  | closure c => exact opening_regular h
  | native _ => exact h.elim

theorem keeps_receiverEnv (c : Closure) {ref : Nat} (hm : m.Regular)
    (href : ref < m.objects.size) :
    Keeps R .none anyValue (receiverEnv c (.object ref)) m := by
  refine (keeps_enter ("bound " ++ c.name) c.env hm).map fun E m₁ _ hle hm₁ _ => ?_
  refine (keeps_bindAll E hm₁ ?_).map fun _ m₂ _ _ hm₂ _ => keeps_pure hm₂ trivial
  intro x hx
  rw [List.mem_singleton.mp hx]
  exact .this_object (Nat.lt_of_lt_of_le href hle)

theorem keeps_bindMethod (n : Nat) {method : Method} {ref : Nat} (hm : m.Regular)
    (hmethod : method.Regular) (href : ref < m.objects.size) :
    Keeps R (bindVisits n method (.object ref)) Value.Regular
      (bindMethod method (.object ref)) m := by
  have hkeeps : Keeps R .none Value.Regular (bindMethod method (.object ref)) m := by
    cases hmethod with
    | closure hf =>
        rw [Comparison.bindMethod_closure]
        refine (keeps_receiverEnv _ hm href).map fun E m₁ _ _ hm₁ _ => ?_
        exact (keeps_freshId hm₁).map fun id m₂ _ _ hm₂ _ => keeps_pure hm₂ (.function hf)
    | native hn =>
        refine (keeps_freshId hm).map fun id m₁ _ hle hm₁ _ => ?_
        exact keeps_pure hm₁ (.nativeMethod hn (Nat.lt_of_lt_of_le href hle))
  exact ⟨hkeeps.grows, hkeeps.regular, hkeeps.ends, fun _ => bindVisits_regular⟩

theorem keeps_getProperty (n : Nat) {v : Value} (name : Token) (hm : m.Regular)
    (hv : v.Regular m.objects.size) :
    Keeps Abort.Passes (Comparison.propertyVisits n v name.lexeme) Value.Regular
      (getProperty v name) m := by
  have hvisits : ∀ a, Comparison.propertyVisits n v name.lexeme m a → a.Regular :=
    fun a ⟨_, _, ha⟩ => bindVisits_regular ha
  have hkeeps : Keeps Abort.Passes .none Value.Regular (getProperty v name) m := by
    cases hv with
    | @object ref href =>
        have heq := Comparison.getProperty_object ref name m
        cases hi : m.objects[ref]? with
        | none =>
            rw [hi] at heq
            exact keeps_of_machine (by rw [heq]; rfl) hm (heq ▸ trivial)
        | some i =>
            have hregular := hm.objects ref i hi
            rw [hi] at heq
            simp only [] at heq
            cases hfield : i.fields.find? name.lexeme with
            | some field =>
                rw [hfield] at heq
                exact keeps_of_machine (by rw [heq]; rfl) hm
                  (heq ▸ hregular.fields _ _ hfield)
            | none =>
                cases hfound : i.cls.findMethod? name.lexeme with
                | none =>
                    rw [hfield, hfound] at heq
                    exact keeps_of_machine (by rw [heq]; rfl) hm (heq ▸ trivial)
                | some method =>
                    rw [hfield, hfound] at heq
                    have h := keeps_bindMethod (R := Abort.Passes) n hm
                      (hregular.cls _ _ hfound) href
                    exact ⟨heq ▸ h.grows, heq ▸ h.regular, heq ▸ h.ends, fun _ h => h.elim⟩
    | _ => exact keeps_abort hm trivial
  exact ⟨hkeeps.grows, hkeeps.regular, hkeeps.ends, hvisits⟩

theorem keeps_superMethod (n : Nat) (method : Token) (slot : Slot) (hm : m.Regular) :
    Keeps Abort.Passes (Comparison.superVisits n method.lexeme slot) Value.Regular
      (superMethod method slot) m := by
  have hvisits : ∀ a, Comparison.superVisits n method.lexeme slot m a → a.Regular :=
    fun a ⟨_, _, _, ha⟩ => bindVisits_regular ha
  have hkeeps : Keeps Abort.Passes .none Value.Regular (superMethod method slot) m := by
    cases slot with
    | none => exact keeps_abort hm (.inl trivial)
    | some d =>
        have heq := Comparison.superMethod_some method d m
        cases hsuper : m.frames.getAt m.env d superName with
        | error f =>
            rw [hsuper] at heq
            exact keeps_of_machine (by rw [heq]; rfl) hm (heq ▸ .inl trivial)
        | ok v =>
            obtain ⟨hv, hcls, _⟩ := getAt_boundTo hm hsuper
            obtain ⟨c, rfl⟩ := hcls rfl
            cases hthis : m.frames.getAt m.env (d - 1) thisName with
            | error f =>
                rw [hsuper, hthis] at heq
                exact keeps_of_machine (by rw [heq]; rfl) hm (heq ▸ .inl trivial)
            | ok u =>
                obtain ⟨hu, _, hobject⟩ := getAt_boundTo hm hthis
                obtain ⟨ref, rfl⟩ := hobject rfl
                rw [hsuper, hthis] at heq
                simp only [] at heq
                cases hv with
                | cls hc =>
                    cases hu with
                    | object href =>
                        cases hfound : c.findMethod? method.lexeme with
                        | none =>
                            rw [hfound] at heq
                            exact keeps_of_machine (by rw [heq]; rfl) hm (heq ▸ trivial)
                        | some found =>
                            rw [hfound] at heq
                            have h := keeps_bindMethod (R := Abort.Passes) n hm
                              (hc _ _ hfound) href
                            exact ⟨heq ▸ h.grows, heq ▸ h.regular, heq ▸ h.ends,
                              fun _ h => h.elim⟩
  exact ⟨hkeeps.grows, hkeeps.regular, hkeeps.ends, hvisits⟩

/-- A new instance has elements if its class is that of vectors. -/
theorem keeps_allocate {c : Class} {vs : Option (Array Value)} (hm : m.Regular) (hc : c.Regular)
    (hvs : ∀ us, vs = some us → ∀ v ∈ us, v.Regular m.objects.size)
    (hvector : vs = none → c.body.isVector = false) :
    Keeps R .none (fun k v => ∃ ref, v = .object ref ∧ ref < k) (allocate c vs) m := by
  have hi : Instance.Regular (m.objects.size + 1) { cls := c, elements := vs } :=
    ⟨hc, fun _ _ h => (Option.some_ne_none _ h.symm).elim,
      fun us hus v hv => (hvs us hus v hv).mono (Nat.le_succ _), hvector⟩
  refine keeps_of_ok rfl (hm.push hi) ?_ ⟨_, rfl, ?_⟩
  · rw [Array.size_push]
    exact Nat.le_succ _
  · rw [Array.size_push]
    exact Nat.lt_succ_self _

theorem keeps_setField (ref : Nat) (name : String) {v : Value} (hm : m.Regular)
    (hv : v.Regular m.objects.size) : Keeps R .none anyValue (setField ref name v) m := by
  refine keeps_of_ok rfl (hm.modify ref fun i hi => ?_) (Nat.le_of_eq (Array.size_modify ..).symm)
    trivial
  refine ⟨hi.cls, fun n u hu => ?_, hi.elements, hi.vector⟩
  rw [Bindings.find?_insert] at hu
  split at hu
  · cases hu
    exact hv
  · exact hi.fields n u hu

/-! ## Classes -/

/-- What a class keeps under a name is a method of its declaration of that name. -/
theorem methodTable_find? {E : Env} {fs : List (FunDecl Slot)} {name : String} {method : Method}
    (h : (methodTable E fs).find? name = some method) :
    ∃ f ∈ fs, f.name.lexeme = name ∧
      method = .closure ⟨f, E, f.name.lexeme == initializerName⟩ := by
  rcases Bindings.find?_foldl_insert h with hnil | ⟨f, hf, hname, hvalue⟩
  · cases hnil
  · exact ⟨f, hf, hname, hvalue.symm⟩

theorem methodTable_regular (E : Env) (fs : List (FunDecl Slot)) (h : FunDecl.WellFormedAll fs) :
    ∀ name method, (methodTable E fs).find? name = some method → method.Regular := by
  intro name method hfound
  obtain ⟨f, hf, _, rfl⟩ := methodTable_find? hfound
  exact .closure (FunDecl.wellFormedAll_mem h f hf)

theorem Class.Regular.derived {c : Class} {b : ClassBody} (hc : c.Regular)
    (hb : ∀ name method, b.methods.find? name = some method → method.Regular) :
    (Class.derived b c).Regular := by
  intro name method hfound
  simp only [Class.findMethod?] at hfound
  split at hfound
  · next found hown =>
      cases hfound
      exact hb name _ hown
  · exact hc name method hfound

theorem keeps_superclassOf (parent : Reference Slot) (hm : m.Regular) :
    Keeps Abort.Passes .none (fun _ c => ∀ d, c = some d → d.Regular)
      (superclassOf (some parent)) m := by
  refine (keeps_lookUp parent.name parent.slot hm).map fun v m₁ _ _ hm₁ hv => ?_
  cases hv with
  | cls hc =>
      refine keeps_pure hm₁ fun d hd => ?_
      cases hd
      exact hc
  | _ => exact keeps_abort hm₁ trivial

theorem keeps_methodEnv {c : Option Class} (hm : m.Regular)
    (hc : ∀ d, c = some d → d.Regular) : Keeps R .none anyValue (methodEnv c) m := by
  cases c with
  | none => exact keeps_environment hm
  | some d =>
      refine (keeps_environment hm).map fun E m₁ _ _ hm₁ _ => ?_
      refine (keeps_enter superName E hm₁).map fun inner m₂ _ _ hm₂ _ => ?_
      refine (keeps_bindAll inner hm₂ ?_).map fun _ m₃ _ _ hm₃ _ => keeps_pure hm₃ trivial
      intro x hx
      rw [List.mem_singleton.mp hx]
      exact .super_cls (hc d rfl)

theorem keeps_declareClass {name : Token} {superclass : Option (Reference Slot)}
    {methods : List (FunDecl Slot)} (hm : m.Regular) (hname : name.IsName)
    (hmethods : FunDecl.WellFormedAll methods) :
    Keeps Abort.Passes .none anyValue (declareClass name superclass methods) m := by
  have hparent : Keeps Abort.Passes .none (fun _ c => ∀ d, c = some d → d.Regular)
      (superclassOf superclass) m := by
    cases superclass with
    | none => exact keeps_pure hm fun _ h => (Option.some_ne_none _ h.symm).elim
    | some parent => exact keeps_superclassOf parent hm
  refine hparent.map fun parent m₁ _ _ hm₁ hc => ?_
  refine (keeps_define hm₁ (hname.boundTo .unassigned)).map fun _ m₂ _ _ hm₂ _ => ?_
  refine (keeps_methodEnv hm₂ hc).map fun E m₃ _ _ hm₃ _ => ?_
  refine (keeps_freshId hm₃).map fun id m₄ _ _ hm₄ _ => ?_
  have htable := methodTable_regular E methods hmethods
  refine keeps_define hm₄ (hname.boundTo (.cls ?_))
  cases parent with
  | none => exact htable
  | some c => exact (hc c rfl).derived htable

/-! ## Native functions -/

/-- The functions of the standard table give a value, whatever it is asked about. At most the
clock moves on. -/
theorem runFunction_standard {f : Native} (hf : f ∈ standardFunctions) {vs : List Value}
    (hlen : vs.length = f.arity) :
    ∃ (v : Value) (ticks : Nat), v.Regular m.objects.size ∧
      runFunction f vs m = .ok v { m with ticks := ticks } := by
  rcases List.mem_cons.mp hf with rfl | hf
  · obtain rfl := List.length_eq_zero_iff.mp hlen
    exact ⟨_, _, .number, rfl⟩
  · cases List.mem_singleton.mp hf
    obtain ⟨v, rfl⟩ := List.length_eq_one_iff.mp hlen
    exact ⟨_, m.ticks, .text, rfl⟩

theorem vectorAt_object {ref : Nat} {i : Instance} (hi : m.objects[ref]? = some i) :
    vectorAt (.object ref) m = match i.elements with
      | some elements => .ok (ref, elements) m
      | none => .abort (.fault .notVector) m := by
  have hfound : instance? (.object ref) m = .ok ((m.objects[ref]?).map fun i => (ref, i)) m := rfl
  rw [vectorAt, bind_apply, hfound, hi]
  obtain ⟨cls, fields, elements⟩ := i
  cases elements <;> rfl

/-- How a native method may end on an instance. -/
inductive MethodEnd (i : Instance) (m : Machine) : Result Value → Prop
  | value {v : Value} {m' : Machine} :
      m'.Regular → m'.objects.size = m.objects.size → v.Regular m.objects.size →
      MethodEnd i m (.ok v m')
  | failure {message : String} : MethodEnd i m (.abort (.failure message) m)
  | notVector : i.elements = none → MethodEnd i m (.abort (.fault .notVector) m)

theorem element_ends (i : Instance) (hm : m.Regular) {elements : Array Value}
    (hvs : ∀ v ∈ elements, v.Regular m.objects.size) (index : Int) :
    MethodEnd i m (element elements index m) := by
  simp only [element]
  generalize (if index < 0 then index + ↑elements.size else index) = position
  split
  · exact .failure
  · cases hv : elements[position.toNat]? with
    | some v => exact .value hm rfl (hvs v (Array.mem_of_getElem? hv))
    | none => exact .failure

/-- The methods of the standard table give a value or fail, on whatever has elements. -/
theorem runMethod_standard {f : Native} (hf : f ∈ standardVectorMethods) {ref : Nat}
    {i : Instance} (hm : m.Regular) (hi : m.objects[ref]? = some i) {vs : List Value}
    (hvs : ∀ v ∈ vs, v.Regular m.objects.size) (hlen : vs.length = f.arity) :
    MethodEnd i m (runMethod f (.object ref) vs m) := by
  have hvector := vectorAt_object hi
  have helements := (hm.objects ref i hi).elements
  rcases List.mem_cons.mp hf with rfl | hf
  · obtain ⟨v, rfl⟩ := List.length_eq_one_iff.mp hlen
    show MethodEnd i m (appendTo (.object ref) v m)
    rw [appendTo, bind_apply, vectorRef, bind_apply, hvector]
    cases he : i.elements with
    | none => exact .notVector he
    | some elements =>
        refine .value (hm.modify ref fun j hj => ⟨hj.cls, hj.fields, ?_, ?_⟩)
          (Array.size_modify ..) .nil
        · intro us hus u hu
          obtain ⟨es, hes, rfl⟩ := Option.map_eq_some_iff.mp hus
          rcases Array.mem_push.mp hu with hu | rfl
          · exact hj.elements es hes u hu
          · exact hvs u List.mem_cons_self
        · intro hnone
          exact hj.vector (Option.map_eq_none_iff.mp hnone)
  rcases List.mem_cons.mp hf with rfl | hf
  · obtain rfl := List.length_eq_zero_iff.mp hlen
    show MethodEnd i m (lengthOf (.object ref) m)
    rw [lengthOf, bind_apply, hvector]
    cases he : i.elements with
    | none => exact .notVector he
    | some elements => exact .value hm rfl .number
  · cases List.mem_singleton.mp hf
    obtain ⟨v, rfl⟩ := List.length_eq_one_iff.mp hlen
    show MethodEnd i m (elementAt (.object ref) v m)
    rw [elementAt]
    cases index? v with
    | some index =>
        simp only []
        rw [bind_apply, hvector]
        cases he : i.elements with
        | none => exact .notVector he
        | some elements => exact element_ends i hm (helements elements he) index
    | none => exact .failure

end Lox
