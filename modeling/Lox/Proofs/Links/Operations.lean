import Lox.Proofs.Dispatch.Declarations
import Lox.Proofs.Links.Steps

/-!
# Operations on linked machines

The operations of the evaluator that are not part of its recursion, and native functions. Those
that bind a method, open a block or a call and declare a class make links, and each of them finds
what it links to in the machine: the current environment, that of a function, that of a method
of a class, or the class that a variable holds.

A class is linked to the class that its declaration has just read, and gets a number that
no class had. What a variable of the same name held before is another class, and stays
linked as it was. Native functions hand on what they are given, or what a vector holds.
-/

namespace Lox

open Eval

variable {L : Links} {m : Machine} {n : Nat}

/-! ## Variables -/

theorem grows_environment (hm : m.Linked L) :
    Grows L .none (fun L' E => L'.Chain E) environment m :=
  grows_of_ok rfl (.refl L) hm hm.env

theorem grows_print (s : String) (hm : m.Linked L) : Grows L .none whatever (print s) m :=
  grows_of_ok rfl (.refl L)
    ⟨hm.frames, hm.ids, hm.env, hm.values, hm.instances, hm.lastValue, hm.vectorClass⟩ trivial

theorem grows_setLastValue {v : Value} (hm : m.Linked L) (hv : v.Linked L) :
    Grows L .none whatever (setLastValue v) m :=
  grows_of_ok rfl (.refl L)
    ⟨hm.frames, hm.ids, hm.env, hm.values, hm.instances, hv, hm.vectorClass⟩ trivial

theorem grows_freshId (hm : m.Linked L) : Grows L .none whatever freshId m :=
  grows_of_ok rfl L.later_numbered hm.numbered trivial

theorem grows_define (name : String) {v : Value} (hm : m.Linked L) (hv : v.Linked L) :
    Grows L .none whatever (define name v) m :=
  grows_of_ok rfl (.refl L) (hm.define m.env name hv) trivial

theorem grows_getAt (E : Env) (d : Nat) (name : String) (hm : m.Linked L) :
    Grows L .none (fun L' v => v.Linked L') (getAt E d name) m := by
  cases hv : m.frames.getAt E d name with
  | ok v => exact grows_of_ok (by simp only [getAt, hv]) (.refl L) hm (hm.getAt hv)
  | error f =>
      refine (grows_abort (r := .fault (.distance f)) hm).congr ?_
      simp only [getAt, hv]
      rfl

theorem Machine.Linked.lookUp (hm : m.Linked L) {name : Token} {slot : Slot} {v : Value}
    {m' : Machine} (hv : Eval.lookUp name slot m = .ok v m') : v.Linked L := by
  rw [Comparison.lookUp_eq] at hv
  split at hv
  · cases hv
  · next hfound =>
      cases hv
      exact hm.seek hfound
  · cases hv
  · cases hv

theorem grows_lookUp (name : Token) (slot : Slot) (hm : m.Linked L) :
    Grows L .none (fun L' v => v.Linked L') (lookUp name slot) m :=
  grows_of_machine (Comparison.lookUp_machine name slot m) hm fun _ _ hv => hm.lookUp hv

theorem grows_assign (name : Token) (slot : Slot) {v : Value} (hm : m.Linked L)
    (hv : v.Linked L) : Grows L .none whatever (assign name slot v) m := by
  have hassign := Comparison.assign_eq name slot v m
  cases ht : m.frames.target m.env name.lexeme slot with
  | ok id =>
      rw [ht] at hassign
      exact grows_of_ok hassign (.refl L) (hm.bind id name.lexeme hv) trivial
  | error missing =>
      rw [ht] at hassign
      cases missing <;> exact grows_of_machine (by rw [hassign]; rfl) hm fun _ _ _ => trivial

/-! ## Frames that are made -/

theorem grows_opening {x : Eval Env} {o : Opening} {E : Env} {l : List (String × Value)}
    (label : String)
    (hx : x m = .ok (m.frames.size :: E) { m with
      frames := (m.frames.enter label E).2.defineAll (m.frames.size :: E) l })
    (hm : m.Linked L) (hE : L.Chain E) (hl : ∀ y ∈ l, y.2.Linked L) :
    Grows L (.opening n o x) (fun L' E' => L'.Chain E') x m := by
  have hlinked := hm.opens hE label hl
  have hchain : (L.opened hE).Chain (m.frames.size :: E) := hm.frames ▸ Links.chain_opened hE
  obtain ⟨L', hL, hm', hvalue, _⟩ := grows_of_ok (Q := fun L' E' => L'.Chain E') hx
    (Links.later_opened hE) hlinked hchain
  refine ⟨_, Links.later_opened hE, by rw [hx]; exact hlinked, fun v m' hv => ?_, fun a ha => ?_⟩
  · rw [hx] at hv
    cases hv
    exact hchain
  · obtain ⟨E', m', heq, rfl⟩ := ha
    rw [hx] at heq
    cases heq
    refine ⟨_, _, .refl _, .refl _, hlinked, ⟨hchain, _, _, rfl, ?_⟩, hlinked, fun vs _ hvs => ?_⟩
    · exact congrArg (· + 1) hm.frames
    · cases hvs
      exact fun _ h => absurd h List.not_mem_nil

theorem grows_block (body : List (Stmt Slot)) {E : Env} (hm : m.Linked L) (hE : L.Chain E) :
    Grows L (.opening n (.block body) (enter "block" E)) (fun L' E' => L'.Chain E')
      (enter "block" E) m :=
  grows_opening (l := []) "block" rfl hm hE fun _ h => absurd h List.not_mem_nil

theorem grows_callEnv {c : Closure} {vs : List Value} (hm : m.Linked L) (hc : L.Chain c.env)
    (hvs : ∀ v ∈ vs, v.Linked L) :
    Grows L (.opening n (.call c.declaration) (callEnv c vs)) (fun L' E => L'.Chain E)
      (callEnv c vs) m :=
  grows_opening _ (Comparison.callEnv_eq c vs m) hm hc fun _ hy => hvs _ (List.of_mem_zip hy).2

/-! ## Methods -/

theorem grows_bindMethod {method : Method} {v : Value} (hm : m.Linked L)
    (hmethod : method.Linked L) (hv : v.Linked L) :
    Grows L (bindVisits n method v) (fun L' f => f.Linked L') (bindMethod method v) m := by
  cases method with
  | native f =>
      exact (grows_freshId hm).map fun _ _ _ hL₁ hm₁ _ => grows_pure hm₁ (hv.later hL₁)
  | closure c =>
      have hopen : Grows L (bindVisits n (.closure c) v) (fun L' E => L'.Chain E)
          (receiverEnv c v) m := by
        refine grows_opening (l := [(thisName, v)]) _ rfl hm hmethod fun y hy => ?_
        rw [List.mem_singleton.mp hy]
        exact hv
      rw [Comparison.bindMethod_closure]
      refine hopen.map fun E m₁ L₁ _ hm₁ hE => ?_
      exact (grows_freshId hm₁).map fun _ _ _ hL₂ hm₂ _ => grows_pure hm₂ (hE.later hL₂)

/-- A step that binds a method if it finds one. -/
theorem grows_found {x : Eval Value} {vis : Visits} (found : Option (Method × Value))
    (hm : m.Linked L)
    (hvis : ∀ a, vis m a → ∃ method v, found = some (method, v) ∧ bindVisits n method v m a)
    (hsome : ∀ method v, found = some (method, v) →
      method.Linked L ∧ v.Linked L ∧ x m = bindMethod method v m)
    (hx : Grows L .none (fun L' v => v.Linked L') x m) :
    Grows L vis (fun L' v => v.Linked L') x m := by
  cases found with
  | none =>
      refine hx.imp (fun a ha => ?_) fun _ _ => id
      obtain ⟨_, _, h, _⟩ := hvis a ha
      cases h
  | some target =>
      obtain ⟨method, v⟩ := target
      obtain ⟨hmethod, hv, heq⟩ := hsome method v rfl
      refine ((grows_bindMethod (n := n) hm hmethod hv).congr heq).imp (fun a ha => ?_)
        fun _ _ => id
      obtain ⟨_, _, h, ha⟩ := hvis a ha
      cases h
      exact ha

/-- Binding a method, without what it visits. -/
theorem grows_bound {method : Method} {v : Value} (hm : m.Linked L) (hmethod : method.Linked L)
    (hv : v.Linked L) : Grows L .none (fun L' f => f.Linked L') (bindMethod method v) m :=
  (grows_bindMethod (n := 0) hm hmethod hv).imp (fun _ h => h.elim) fun _ _ => id

theorem methodOf?_eq_some {v : Value} {name : String} {method : Method}
    (h : methodOf? v name m = some method) :
    ∃ ref i, v = .object ref ∧ m.objects[ref]? = some i ∧ i.fields.find? name = none ∧
      i.cls.findMethod? name = some method := by
  unfold methodOf? at h
  split at h
  · obtain ⟨i, hi, h⟩ := Option.bind_eq_some_iff.mp h
    split at h
    · cases h
    · next hfield => exact ⟨_, i, rfl, hi, hfield, h⟩
  · cases h

theorem grows_instance? (v : Value) (hm : m.Linked L) :
    Grows L .none (fun L' found => ∀ x, found = some x → Instance.Linked L' x.2)
      (instance? v) m := by
  cases v with
  | object ref =>
      refine grows_of_ok rfl (.refl L) hm fun x hx => ?_
      obtain ⟨i, hi, rfl⟩ := Option.map_eq_some_iff.mp hx
      exact hm.instances ref i hi
  | _ => exact grows_of_ok rfl (.refl L) hm fun x hx => by cases hx

theorem grows_getProperty {v : Value} (name : Token) (hm : m.Linked L) (hv : v.Linked L) :
    Grows L (Comparison.propertyVisits n v name.lexeme) (fun L' u => u.Linked L')
      (getProperty v name) m := by
  refine grows_found (n := n) ((methodOf? v name.lexeme m).map (·, v)) hm ?_ ?_ ?_
  · rintro a ⟨method, hfound, ha⟩
    exact ⟨method, v, by rw [hfound]; rfl, ha⟩
  · intro method u h
    obtain ⟨_, hfound, heq⟩ := Option.map_eq_some_iff.mp h
    cases heq
    obtain ⟨ref, i, rfl, hi, hfield, hmethod⟩ := methodOf?_eq_some hfound
    refine ⟨(hm.instances ref i hi).cls.found hmethod, hv, ?_⟩
    rw [Comparison.getProperty_object, hi]
    simp only [hfield, hmethod]
  · refine (grows_instance? v hm).map fun found m₁ L₁ hL₁ hm₁ hlinked => ?_
    cases found with
    | none => exact grows_abort hm₁
    | some x =>
        dsimp only
        cases hfield : x.2.fields.find? name.lexeme with
        | some field => exact grows_pure hm₁ ((hlinked x rfl).fields _ _ hfield)
        | none =>
            cases hfound : x.2.cls.findMethod? name.lexeme with
            | none => exact grows_abort hm₁
            | some method =>
                exact grows_bound hm₁ ((hlinked x rfl).cls.found hfound) (hv.later hL₁)

theorem superMethodOf?_eq_some {name : String} {slot : Slot} {method : Method} {receiver : Value}
    (h : superMethodOf? name slot m = some (method, receiver)) :
    ∃ d c, slot = some d ∧ m.frames.getAt m.env d superName = .ok (.cls c) ∧
      m.frames.getAt m.env (d - 1) thisName = .ok receiver ∧ c.findMethod? name = some method := by
  obtain ⟨d, rfl, _⟩ := Option.bind_eq_some_iff.mp h
  rw [Comparison.superMethodOf?_some] at h
  split at h
  · next hsuper hthis =>
      obtain ⟨_, hfound, heq⟩ := Option.map_eq_some_iff.mp h
      cases heq
      exact ⟨d, _, rfl, hsuper, hthis, hfound⟩
  · cases h

theorem grows_superMethod (method : Token) (slot : Slot) (hm : m.Linked L) :
    Grows L (Comparison.superVisits n method.lexeme slot) (fun L' v => v.Linked L')
      (superMethod method slot) m := by
  refine grows_found (n := n) (superMethodOf? method.lexeme slot m) hm ?_ ?_ ?_
  · rintro a ⟨found, receiver, hfound, ha⟩
    exact ⟨found, receiver, hfound, ha⟩
  · intro found receiver h
    obtain ⟨d, c, rfl, hsuper, hthis, hfound⟩ := superMethodOf?_eq_some h
    have hc : c.Linked L := hm.getAt hsuper
    refine ⟨hc.found hfound, hm.getAt hthis, ?_⟩
    rw [Comparison.superMethod_some, hsuper, hthis]
    simp only [hfound]
  · cases slot with
    | none => exact grows_abort hm
    | some d =>
        refine (grows_environment hm).map fun E m₁ L₁ _ hm₁ _ => ?_
        refine (grows_getAt E d superName hm₁).map fun superclass m₂ L₂ _ hm₂ hsuper => ?_
        refine (grows_getAt E (d - 1) thisName hm₂).map fun receiver m₃ L₃ hL₃ hm₃ hthis => ?_
        cases superclass with
        | cls c =>
            have hc : c.Linked L₃ := Class.Linked.later hsuper hL₃
            dsimp only
            cases hfound : c.findMethod? method.lexeme with
            | none => exact grows_abort hm₃
            | some found => exact grows_bound hm₃ (hc.found hfound) hthis
        | _ => exact grows_abort hm₃

/-! ## Instances -/

theorem grows_allocate {c : Class} {vs : Option (Array Value)} (hm : m.Linked L)
    (hc : c.Linked L) (hvs : ∀ us, vs = some us → ∀ v ∈ us, v.Linked L) :
    Grows L .none (fun L' v => v.Linked L') (allocate c vs) m :=
  grows_of_ok rfl (.refl L) (hm.push ⟨hc, (fun _ _ h => by cases h), hvs⟩) trivial

theorem grows_setField (ref : Nat) (name : String) {v : Value} (hm : m.Linked L)
    (hv : v.Linked L) : Grows L .none whatever (setField ref name v) m := by
  refine grows_of_ok rfl (.refl L) (hm.modify ref fun i hi => ?_) trivial
  refine ⟨hi.cls, fun n u hu => ?_, hi.elements⟩
  rw [Bindings.find?_insert] at hu
  split at hu
  · cases hu
    exact hv
  · exact hi.fields n u hu

/-! ## Classes -/

theorem grows_superclassOf (parent : Reference Slot) (hm : m.Linked L) :
    Grows L .none (fun L' c => ∃ d, c = some d ∧ d.Linked L') (superclassOf (some parent)) m := by
  refine (grows_lookUp parent.name parent.slot hm).map fun v m₁ L₁ _ hm₁ hv => ?_
  cases v with
  | cls c => exact grows_pure hm₁ ⟨c, rfl, hv⟩
  | _ => exact grows_abort hm₁

/-- The environment of the methods of a class, and the frame that is made if the class has a
superclass. -/
theorem grows_methodEnv (declaration : Stmt Slot) {superclass : Option Class} (hm : m.Linked L)
    (hsuper : ∀ c, superclass = some c → c.Linked L) :
    Grows L (.given (superclass.isSome = true)
        (.opening n (.superclass declaration) (methodEnv superclass)))
      (fun L' E => L'.Chain E) (methodEnv superclass) m := by
  cases superclass with
  | none => exact (grows_environment hm).not_given (by simp)
  | some c =>
      refine (grows_opening (l := [(superName, .cls c)]) superName rfl hm hm.env
        fun y hy => ?_).given
      rw [List.mem_singleton.mp hy]
      exact hsuper c rfl

theorem Class.linked_of_entry {c : Class}
    (h : L.classes c.id = some ⟨c.body, c.superclass?.map Class.id⟩) (hbody : c.body.Linked L)
    (hsuper : ∀ d, c.superclass? = some d → d.Linked L) : c.Linked L := by
  cases c with
  | root body => exact ⟨h, hbody⟩
  | derived body superclass => exact ⟨h, hbody, hsuper superclass rfl⟩

/-- A class gets its number, and is bound. -/
theorem grows_newClass (name : String) {c : Nat → Class} (hm : m.Linked L)
    (hid : (c m.nextId).id = m.nextId) (hbody : (c m.nextId).body.Linked L)
    (hsuper : ∀ d, (c m.nextId).superclass? = some d → d.Linked L) :
    Grows L .none whatever (freshId >>= fun id => define name (.cls (c id))) m := by
  have hlater := Links.later_declared (c m.nextId).body hsuper
  have hclass : (c m.nextId).Linked (L.declared (c m.nextId).body hsuper) := by
    refine Class.linked_of_entry ?_ (hbody.later hlater) fun d hd => (hsuper d hd).later hlater
    exact if_pos (hid.trans hm.ids)
  exact grows_of_ok rfl hlater
    ((hm.declared (c m.nextId).body hsuper).define m.env name (v := .cls _) hclass) trivial

/-- The superclass is read like any other variable. -/
theorem grows_reading (parent : Reference Slot) (hm : m.Linked L) :
    Grows L (.one n (.eval (.var parent.name parent.slot)))
      (fun L' c => ∃ d, c = some d ∧ d.Linked L') (superclassOf (some parent)) m := by
  obtain ⟨L', hL, hm', hvalue, _⟩ := grows_superclassOf parent hm
  refine ⟨L', hL, hm', hvalue, ?_⟩
  rintro a rfl
  cases n with
  | zero => exact ⟨L, L, hL, along_spent rfl hm trivial⟩
  | succ n =>
      have hlookUp : perform (n + 1) (.eval (.var parent.name parent.slot)) m =
          (lookUp parent.name parent.slot m).map fun v => [v] := by rw [perform, eval]
      refine ⟨L, L, hL, Activity.along_of_perform (.refl L) hm trivial hlookUp ?_
        fun v m' hv u hu => ?_⟩
      · rw [Comparison.lookUp_machine]
        exact hm
      · rw [List.mem_singleton.mp hu]
        exact hm.lookUp hv

theorem grows_declareClass (name : Token) (superclass : Option (Reference Slot))
    (methods : List (FunDecl Slot)) (hm : m.Linked L) :
    Grows L (visitsInside n (visits n) (.exec (.classDecl name superclass methods))) whatever
      (declareClass name superclass methods) m := by
  -- what follows the name of the superclass is the same with and without one
  have hrest : ∀ (parent : Option Class) (made : Env → Nat → Class),
      (∀ E id, (made E id).id = id ∧
        (made E id).body = ⟨id, name.lexeme, methodTable E methods, false⟩ ∧
        (made E id).superclass? = parent) →
      ∀ (m₁ : Machine) (L₁ : Links), m₁.Linked L₁ → (∀ c, parent = some c → c.Linked L₁) →
      Grows L₁ (.after (define name.lexeme .unassigned) fun _ =>
        .given (parent.isSome = true)
          (.opening n (.superclass (.classDecl name superclass methods)) (methodEnv parent)))
        whatever (do
          define name.lexeme .unassigned
          let env ← methodEnv parent
          let id ← freshId
          define name.lexeme (.cls (made env id))) m₁ := by
    intro parent made hmade m₁ L₁ hm₁ hparent
    refine (grows_define name.lexeme hm₁ (v := .unassigned) trivial).after
      fun _ m₂ L₂ hL₂ hm₂ _ => ?_
    refine (grows_methodEnv (.classDecl name superclass methods) hm₂
      fun c hc => (hparent c hc).later hL₂).map fun E m₃ L₃ hL₃ hm₃ hE => ?_
    obtain ⟨hid, hbody, hsuper⟩ := hmade E m₃.nextId
    refine grows_newClass name.lexeme hm₃ hid ?_ fun d hd => ?_
    · rw [hbody]
      intro n method hfound
      obtain ⟨_, _, _, rfl⟩ := methodTable_find? hfound
      exact hE
    · rw [hsuper] at hd
      exact (hparent d hd).later (hL₂.trans hL₃)
  cases superclass with
  | none =>
      refine (grows_pure hm (v := none) (Q := fun _ c => c = none) rfl).map
        fun parent m₁ L₁ _ hm₁ hnone => ?_
      subst hnone
      exact (hrest none (fun E id => .root ⟨id, name.lexeme, methodTable E methods, false⟩)
        (fun _ _ => ⟨rfl, rfl, rfl⟩) m₁ L₁ hm₁ fun _ h => by cases h).imp
          (fun _ h => h.elim) fun _ _ => id
  | some parent =>
      refine (grows_reading parent hm).bind fun c m₁ L₁ _ hm₁ hc => ?_
      obtain ⟨d, rfl, hd⟩ := hc
      refine (hrest (some d)
        (fun E id => .derived ⟨id, name.lexeme, methodTable E methods, false⟩ d)
        (fun _ _ => ⟨rfl, rfl, rfl⟩) m₁ L₁ hm₁ fun c hc => ?_).imp (fun a ha => ?_)
          fun _ _ => id
      · cases hc
        exact hd
      · obtain ⟨_, m₂, heq, ha⟩ := ha
        exact ⟨(), m₂, heq, rfl, ha⟩

/-! ## Native functions -/

theorem grows_vectorAt (receiver : Value) (hm : m.Linked L) :
    Grows L .none (fun L' x => ∀ v ∈ x.2, v.Linked L') (vectorAt receiver) m := by
  refine (grows_instance? receiver hm).map fun found m₁ L₁ _ hm₁ hlinked => ?_
  split
  · next elements => exact grows_pure hm₁ ((hlinked _ rfl).elements elements rfl)
  · exact grows_abort hm₁

theorem grows_element {elements : Array Value} (index : Int) (hm : m.Linked L)
    (hvs : ∀ v ∈ elements, v.Linked L) :
    Grows L .none (fun L' v => v.Linked L') (element elements index) m := by
  simp only [element]
  generalize (if index < 0 then index + ↑elements.size else index) = position
  split
  · exact grows_abort hm
  · cases hv : elements[position.toNat]? with
    | some v => exact grows_pure hm (hvs v (Array.mem_of_getElem? hv))
    | none => exact grows_abort hm

theorem grows_elementAt (receiver index : Value) (hm : m.Linked L) :
    Grows L .none (fun L' v => v.Linked L') (elementAt receiver index) m := by
  rw [elementAt]
  split
  · next i _ => exact (grows_vectorAt receiver hm).map fun _ _ _ _ hm₁ hx => grows_element i hm₁ hx
  · exact grows_abort hm

theorem grows_appendTo (receiver : Value) {v : Value} (hm : m.Linked L) (hv : v.Linked L) :
    Grows L .none (fun L' u => u.Linked L') (appendTo receiver v) m := by
  have href : Grows L .none whatever (vectorRef receiver) m :=
    (grows_vectorAt receiver hm).map fun _ _ _ _ hm₁ _ => grows_pure hm₁ trivial
  refine href.map fun ref m₁ L₁ hL₁ hm₁ _ => ?_
  have hmodify : Grows L₁ .none whatever (modify ref fun i =>
      { i with elements := i.elements.map fun elements => elements.push v }) m₁ := by
    refine grows_of_ok rfl (.refl L₁) (hm₁.modify ref fun i hi => ?_) trivial
    refine ⟨hi.cls, hi.fields, fun us hus u hu => ?_⟩
    obtain ⟨elements, helements, rfl⟩ := Option.map_eq_some_iff.mp hus
    rcases Array.mem_push.mp hu with hu | rfl
    · exact hi.elements elements helements u hu
    · exact hv.later hL₁
  exact hmodify.map fun _ _ _ _ hm₂ _ => grows_pure hm₂ trivial

theorem grows_runBody (f : Native) {vs : List Value} (hm : m.Linked L)
    (hvs : ∀ v ∈ vs, v.Linked L) : Grows L .none (fun L' v => v.Linked L') (runBody f vs) m := by
  fun_cases runBody f vs with
  | case1 =>
      exact grows_of_ok rfl (.refl L)
        ⟨hm.frames, hm.ids, hm.env, hm.values, hm.instances, hm.lastValue, hm.vectorClass⟩ trivial
  | case2 => exact grows_of_ok rfl (.refl L) hm trivial
  | case3 receiver v =>
      exact grows_appendTo receiver hm (hvs _ (List.mem_cons_of_mem _ List.mem_cons_self))
  | case4 receiver =>
      exact (grows_vectorAt receiver hm).map fun _ _ _ _ hm₁ _ => grows_pure hm₁ trivial
  | case5 receiver index => exact grows_elementAt receiver index hm
  | case7 _ i _ v hv =>
      rw [hv]
      exact grows_pure hm (hvs v (List.mem_of_getElem? hv))
  | case8 _ i _ hnone =>
      rw [hnone]
      exact grows_abort hm
  | case6 | case12 => exact grows_pure hm trivial
  | case9 | case10 | case11 => exact grows_abort hm

theorem grows_runFunction (f : Native) {vs : List Value} (hm : m.Linked L)
    (hvs : ∀ v ∈ vs, v.Linked L) :
    Grows L .none (fun L' v => v.Linked L') (runFunction f vs) m := by
  rw [runFunction]
  split
  · exact grows_abort hm
  · exact grows_runBody f hm hvs

theorem grows_runMethod (f : Native) {receiver : Value} {vs : List Value} (hm : m.Linked L)
    (hreceiver : receiver.Linked L) (hvs : ∀ v ∈ vs, v.Linked L) :
    Grows L .none (fun L' v => v.Linked L') (runMethod f receiver vs) m := by
  unfold runMethod
  split
  · exact grows_abort hm
  · exact grows_runFunction f hm (List.forall_mem_cons.mpr ⟨hreceiver, hvs⟩)

end Lox
