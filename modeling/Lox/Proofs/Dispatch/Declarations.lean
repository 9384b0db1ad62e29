import Lox.Proofs.Dispatch.Operations

/-!
# Class declarations and native functions

A class object owns its methods with the environment that its declaration has made for
them: that of the declaration, or the frame of the superclass inside of it. Native
functions hand on what they are given, or what a vector holds.
-/

namespace Lox

open Eval

variable {programs : List (List (Stmt Slot))} {w : Ledger programs} {m : Machine}
  {p : Place} {n : Nat}

/-! ## Classes -/

theorem Class.sound_of_table {c : Class} {E : Env} {methods : List (FunDecl Slot)}
    (hbody : c.body.methods = methodTable E methods)
    (hmethods : ∀ f ∈ methods, Closure.MethodOf w ⟨f, E, f.name.lexeme == initializerName⟩ c)
    (hsuper : ∀ a, c.superclass? = some a → a.Sound w) : c.Sound w := by
  have hown : ∀ name m, c.body.methods.find? name = some (.closure m) →
      m.declaration.name.lexeme = name ∧ m.MethodOf w c := by
    intro name m hm
    rw [hbody] at hm
    obtain ⟨f, hf, hname, heq⟩ := methodTable_find? hm
    cases heq
    exact ⟨hname, hmethods f hf⟩
  intro b hb
  cases c with
  | root body =>
      rw [List.mem_singleton.mp hb]
      exact hown
  | derived body a =>
      rcases List.mem_cons.mp hb with rfl | hb
      · exact hown
      · exact hsuper a rfl b hb

/-- The methods of a declaration in the environment that is made for them. -/
theorem methodOf_declared {name : Token} {superclass : Option (Reference Slot)}
    {methods : List (FunDecl Slot)}
    (hoccurs : Occurs programs p (.stmt (.classDecl name superclass methods))) {E : Env} {c : Class}
    (hE : w.Around
      ((p.define name.lexeme).inherit (.classDecl name superclass methods) superclass) E)
    (hsuper : superclass.isSome = true →
      ∃ k o a, E.head? = some k ∧ w.made k = some o ∧ c.superclass? = some a ∧ o.held = .cls a)
    (hp : p.OfBody) (f : FunDecl Slot) (hf : f ∈ methods) :
    Closure.MethodOf w ⟨f, E, f.name.lexeme == initializerName⟩ c := by
  have hinside : (_, Fragment.function f) ∈
      Fragment.inside p (.stmt (.classDecl name superclass methods)) :=
    List.mem_append_right _ (List.mem_map.mpr ⟨f, hf, rfl⟩)
  refine ⟨rfl, _, hoccurs.inside hinside, hE, fun l hl hopening => hsuper ?_⟩
  cases superclass with
  | some r => rfl
  | none =>
      have hhead : (p.define name.lexeme).head? = some l := hl
      have hat : (p.define name.lexeme).atSuperclass = true := by
        rw [Place.atSuperclass, hhead]
        exact hopening
      rw [Place.atSuperclass_define, hp.2] at hat
      cases hat

theorem leads_superclassOf (parent : Reference Slot) (hm : m.Sound w) :
    Leads w .none (fun w' c => ∃ d, c = some d ∧ d.Sound w') (superclassOf (some parent)) m := by
  refine (leads_lookUp parent.name parent.slot hm).map fun v m₁ w₁ _ _ hm₁ _ hv => ?_
  cases v with
  | cls c => exact leads_pure hm₁ ⟨c, rfl, hv⟩
  | _ => exact leads_abort hm₁

theorem leads_methodEnv (declaration : Stmt Slot) {c : Class} (hm : m.Sound w) (hc : c.Sound w) :
    Leads w (.opening n (.superclass declaration) (methodEnv (some c)))
      (fun w' E => w'.Made ⟨.superclass declaration, m.env, .cls c⟩ E) (methodEnv (some c)) m := by
  refine leads_opening (o := ⟨.superclass declaration, m.env, .cls c⟩)
    (l := [(superName, .cls c)]) superName rfl hm (Origin.sound_of_isReceiver rfl)
    (fun y hy => ?_) fun name hname => ?_
  · rw [List.mem_singleton.mp hy]
    exact hc
  · cases hname
    rfl

theorem leads_declareClass {name : Token} {superclass : Option (Reference Slot)}
    {methods : List (FunDecl Slot)}
    (hoccurs : Occurs programs p (.stmt (.classDecl name superclass methods))) (hp : p.OfBody)
    (hname : name.IsName) (hm : m.Sound w) (henv : w.Around p m.env) :
    Leads w (visitsInside n (visits n) (.exec (.classDecl name superclass methods))) someValue
      (declareClass name superclass methods) m := by
  cases superclass with
  | none =>
      refine (leads_pure hm (v := none) (Q := fun _ c => c = none) rfl).map
        fun c m₀ w₀ _ hw₀ hm₀ henv₀ hc => ?_
      subst hc
      refine (leads_define hm₀ hname (v := .unassigned) trivial).map
        fun _ m₁ w₁ _ hw₁ hm₁ henv₁ _ => ?_
      refine (leads_environment hm₁).map fun E m₂ w₂ _ hw₂ hm₂ henv₂ hE => ?_
      refine (leads_freshId hm₂).map fun id m₃ w₃ _ hw₃ hm₃ _ _ => ?_
      refine leads_define hm₃ hname (v := .cls _) (Class.sound_of_table rfl
        (methodOf_declared hoccurs ?_ (fun h => by cases h) hp) fun _ h => by cases h)
      rw [hE, henv₁, henv₀]
      exact (henv.later (hw₀.trans (hw₁.trans (hw₂.trans hw₃)))).define name.lexeme
  | some parent =>
      have hparent : Occurs programs p (.expr (.var parent.name parent.slot)) :=
        hoccurs.inside List.mem_cons_self
      have hone : Leads w (.one n (.eval (.var parent.name parent.slot)))
          (fun w' c => ∃ d, c = some d ∧ d.Sound w') (superclassOf (some parent)) m := by
        obtain ⟨w', hw, hm', henv', hvalue, _⟩ := leads_superclassOf parent hm
        refine ⟨w', hw, hm', henv', hvalue, ?_⟩
        rintro a rfl
        exact ⟨w, hw, hm, p, hparent, henv⟩
      refine hone.bind fun c m₁ w₁ _ hw₁ hm₁ henv₁ hc => ?_
      obtain ⟨d, rfl, hd⟩ := hc
      refine (leads_define hm₁ hname (v := .unassigned) trivial).after
        fun _ m₂ w₂ _ hw₂ hm₂ henv₂ _ => ?_
      refine (leads_methodEnv (.classDecl name (some parent) methods) hm₂ (hd.later hw₂)).map
        fun E m₃ w₃ _ hw₃ hm₃ _ hE => ?_
      refine (leads_freshId hm₃).map fun id m₄ w₄ _ hw₄ hm₄ _ _ => ?_
      have hlater := hw₃.trans hw₄
      obtain ⟨k, hk, hmade⟩ := hE.later hw₄
      have hplace : w₄.Around (p.define name.lexeme) m₂.env := by
        rw [henv₂, henv₁]
        exact (henv.later (hw₁.trans (hw₂.trans hlater))).define name.lexeme
      refine leads_define hm₄ hname (v := .cls (.derived _ d)) (Class.sound_of_table rfl
        (methodOf_declared hoccurs ((hE.later hw₄).around hplace)
          (fun _ => ⟨k, _, d, by rw [hk]; rfl, hmade, rfl, rfl⟩) hp) fun a ha => ?_)
      cases ha
      exact hd.later (hw₂.trans hlater)

/-! ## Native functions -/

theorem leads_vectorAt {receiver : Value} (hm : m.Sound w) (hv : receiver.Sound w) :
    Leads w .none (fun w' x => ∀ v ∈ x.2, v.Sound w') (vectorAt receiver) m := by
  cases receiver with
  | object ref =>
      obtain ⟨i, hi, hsound, _⟩ := hm.instance_of_object hv
      have heq := vectorAt_object hi
      cases he : i.elements with
      | none =>
          rw [he] at heq
          exact (leads_abort hm).congr heq
      | some elements =>
          rw [he] at heq
          exact leads_of_ok heq (.refl w) hm rfl (hsound.elements elements he)
  | _ => exact leads_abort hm

theorem leads_element {elements : Array Value} (index : Int) (hm : m.Sound w)
    (hvs : ∀ v ∈ elements, v.Sound w) :
    Leads w .none Value.Sound (element elements index) m := by
  simp only [element]
  generalize (if index < 0 then index + ↑elements.size else index) = position
  split
  · exact leads_abort hm
  · cases hv : elements[position.toNat]? with
    | some v => exact leads_pure hm (hvs v (Array.mem_of_getElem? hv))
    | none => exact leads_abort hm

theorem leads_elementAt {receiver : Value} (index : Value) (hm : m.Sound w)
    (hv : receiver.Sound w) : Leads w .none Value.Sound (elementAt receiver index) m := by
  rw [elementAt]
  split
  · next i _ =>
      exact (leads_vectorAt hm hv).map fun x m₁ w₁ _ _ hm₁ _ hx => leads_element i hm₁ hx
  · exact leads_abort hm

theorem leads_appendTo {receiver v : Value} (hm : m.Sound w) (hreceiver : receiver.Sound w)
    (hv : v.Sound w) : Leads w .none Value.Sound (appendTo receiver v) m := by
  have href : Leads w .none someValue (vectorRef receiver) m :=
    (leads_vectorAt hm hreceiver).map fun _ m₁ w₁ _ _ hm₁ _ _ => leads_pure hm₁ trivial
  refine href.map fun ref m₁ w₁ _ hw₁ hm₁ _ _ => ?_
  have hmodify : Leads w₁ .none someValue (modify ref fun i =>
      { i with elements := i.elements.map fun elements => elements.push v }) m₁ := by
    refine leads_of_ok rfl (.refl w₁) (hm₁.modify ref (fun _ => rfl) fun i hi => ?_) rfl trivial
    refine ⟨hi.fields, fun us hus u hu => ?_⟩
    obtain ⟨elements, helements, rfl⟩ := Option.map_eq_some_iff.mp hus
    rcases Array.mem_push.mp hu with hu | rfl
    · exact hi.elements elements helements u hu
    · exact hv.later hw₁
  exact hmodify.map fun _ m₂ w₂ _ _ hm₂ _ _ => leads_pure hm₂ trivial

theorem leads_runBody (f : Native) {vs : List Value} (hm : m.Sound w)
    (hvs : ∀ v ∈ vs, v.Sound w) : Leads w .none Value.Sound (runBody f vs) m := by
  fun_cases runBody f vs with
  | case1 =>
      exact leads_of_ok rfl (.refl w)
        ⟨hm.ledger, hm.size, hm.held, hm.values, hm.classes, hm.instances, hm.vectorClass⟩ rfl
        trivial
  | case2 => exact leads_of_ok rfl (.refl w) hm rfl trivial
  | case3 receiver v =>
      exact leads_appendTo hm (hvs _ List.mem_cons_self)
        (hvs _ (List.mem_cons_of_mem _ List.mem_cons_self))
  | case4 receiver =>
      exact (leads_vectorAt hm (hvs _ List.mem_cons_self)).map fun x m₁ w₁ _ _ hm₁ _ _ =>
        leads_pure hm₁ trivial
  | case5 receiver index => exact leads_elementAt index hm (hvs _ List.mem_cons_self)
  | case7 _ i _ v hv =>
      rw [hv]
      exact leads_pure hm (hvs v (List.mem_of_getElem? hv))
  | case8 _ i _ hnone =>
      rw [hnone]
      exact leads_abort hm
  | case6 | case12 => exact leads_pure hm trivial
  | case9 | case10 | case11 => exact leads_abort hm

theorem leads_runFunction (f : Native) {vs : List Value} (hm : m.Sound w)
    (hvs : ∀ v ∈ vs, v.Sound w) : Leads w .none Value.Sound (runFunction f vs) m := by
  rw [runFunction]
  split
  · exact leads_abort hm
  · exact leads_runBody f hm hvs

theorem leads_runMethod (f : Native) {receiver : Value} {vs : List Value} (hm : m.Sound w)
    (hreceiver : receiver.Sound w) (hvs : ∀ v ∈ vs, v.Sound w) :
    Leads w .none Value.Sound (runMethod f receiver vs) m := by
  unfold runMethod
  split
  · exact leads_abort hm
  · exact leads_runFunction f hm (List.forall_mem_cons.mpr ⟨hreceiver, hvs⟩)

end Lox
