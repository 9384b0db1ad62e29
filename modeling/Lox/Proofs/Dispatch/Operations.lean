import Lox.Proofs.Dispatch.Steps

/-!
# Operations on sound machines

The operations of the evaluator that are not part of its recursion lead to sound
machines. The ones to look at are those that make methods bound methods: the method was
found in a chain of classes that the class of the receiver belongs to or descends to, so
the class that owns it is an ancestor of that of the receiver. For `super` this is read
off the two frames around the place: the inner one was made for a receiver, and the
class that owns its method has the superclass that the outer one binds.
-/

namespace Lox

open Eval

variable {programs : List (List (Stmt Slot))} {w : Ledger programs} {m : Machine}
  {p : Place} {n : Nat}

/-! ## Variables -/

theorem leads_environment (hm : m.Sound w) :
    Leads w .none (fun _ E => E = m.env) environment m :=
  leads_of_ok rfl (.refl w) hm rfl rfl

theorem leads_print (s : String) (hm : m.Sound w) : Leads w .none someValue (print s) m :=
  leads_of_ok rfl (.refl w)
    ⟨hm.ledger, hm.size, hm.held, hm.values, hm.classes, hm.instances, hm.vectorClass⟩ rfl trivial

theorem leads_setLastValue (v : Value) (hm : m.Sound w) :
    Leads w .none someValue (setLastValue v) m :=
  leads_of_ok rfl (.refl w)
    ⟨hm.ledger, hm.size, hm.held, hm.values, hm.classes, hm.instances, hm.vectorClass⟩ rfl trivial

theorem leads_freshId (hm : m.Sound w) : Leads w .none someValue freshId m :=
  leads_of_ok rfl (.refl w)
    ⟨hm.ledger, hm.size, hm.held, hm.values, hm.classes, hm.instances, hm.vectorClass⟩ rfl trivial

theorem leads_define {name : Token} {v : Value} (hm : m.Sound w) (hname : name.IsName)
    (hv : v.Sound w) : Leads w .none someValue (define name.lexeme v) m :=
  leads_of_ok rfl (.refl w) (hm.define m.env hname hv) rfl trivial

theorem leads_lookUp (name : Token) (slot : Slot) (hm : m.Sound w) :
    Leads w .none Value.Sound (lookUp name slot) m := by
  refine leads_of_machine (Comparison.lookUp_machine name slot m) hm fun v m' hv => ?_
  rw [Comparison.lookUp_eq] at hv
  split at hv
  · cases hv
  · next hfound =>
      cases hv
      exact hm.seek hfound
  · cases hv
  · cases hv

theorem leads_assign {name : Token} (slot : Slot) {v : Value} (hm : m.Sound w)
    (hname : name.IsName) (hv : v.Sound w) : Leads w .none someValue (assign name slot v) m := by
  have hassign := Comparison.assign_eq name slot v m
  cases ht : m.frames.target m.env name.lexeme slot with
  | ok id =>
      rw [ht] at hassign
      exact leads_of_ok hassign (.refl w) (hm.bind id hname.ne_this hname.ne_super hv) rfl trivial
  | error missing =>
      rw [ht] at hassign
      cases missing <;>
        exact leads_of_machine (by rw [hassign]; rfl) hm fun _ _ _ => trivial

/-! ## Frames that are made -/

/-- The innermost frame of the environment was made as the origin says. -/
def Ledger.Made (w : Ledger programs) (o : Origin) (E : Env) : Prop :=
  ∃ k, E = k :: o.outer ∧ w.made k = some o

theorem Ledger.Made.later {w' : Ledger programs} {o : Origin} {E : Env} (h : w.Made o E)
    (hw : w.Later w') : w'.Made o E := by
  obtain ⟨k, hE, hk⟩ := h
  exact ⟨k, hE, hw.made k o hk⟩

/-- The environment that was made belongs to the place inside the scope. -/
theorem Ledger.Made.around {o : Origin} {E : Env} (h : w.Made o E) (hp : w.Around p o.outer) :
    w.Around (p.enter o.opening) E := by
  obtain ⟨k, rfl, hk⟩ := h
  exact .frame hk rfl hp

theorem leads_opening {x : Eval Env} {o : Origin} {l : List (String × Value)} (label : String)
    (hx : x m = .ok (m.frames.size :: o.outer) { m with
      frames := (m.frames.enter label o.outer).2.defineAll (m.frames.size :: o.outer) l })
    (hm : m.Sound w) (ho : o.Sound w) (hl : ∀ y ∈ l, y.2.Sound w)
    (hheld : ∀ name, o.opening.reserved? = some name → l = [(name, o.held)]) :
    Leads w (.opening n o.opening x) (fun w' E => w'.Made o E) x m := by
  have hlater := hm.ledger.later_opened o
  have hsound := hm.opens ho hl hheld label
  have hmade : (w.opened o).made m.frames.size = some o := by
    rw [hm.size]
    exact w.made_opened o
  have hleads : Leads w .none (fun w' E => w'.Made o E) x m :=
    leads_of_ok hx hlater hsound rfl ⟨_, rfl, hmade⟩
  refine ⟨_, hlater, ?_, ?_, fun v m' hv => ?_, fun a ha => ?_⟩
  · rw [hx]
    exact hsound
  · rw [hx]
    rfl
  · rw [hx] at hv
    cases hv
    exact ⟨_, rfl, hmade⟩
  · obtain ⟨E, m', heq, rfl⟩ := ha
    rw [hx] at heq
    cases heq
    exact ⟨_, .refl _, hsound, _, o, rfl, hmade, rfl⟩

/-- A scope that is not opened for a receiver. -/
theorem Origin.sound_of_isReceiver {o : Origin} (h : o.opening.isReceiver = false) :
    o.Sound w := by
  intro f hf
  rw [hf] at h
  cases h

theorem leads_block (body : List (Stmt Slot)) (E : Env) (hm : m.Sound w) :
    Leads w (.opening n (.block body) (enter "block" E))
      (fun w' E' => w'.Made ⟨.block body, E, .nil⟩ E') (enter "block" E) m :=
  leads_opening (o := ⟨.block body, E, .nil⟩) (l := []) "block" rfl hm
    (Origin.sound_of_isReceiver rfl) (fun _ h => by cases h) fun _ h => by cases h

theorem leads_callEnv {c : Closure} {vs : List Value} (hm : m.Sound w)
    (hvs : ∀ v ∈ vs, v.Sound w) :
    Leads w (.opening n (.call c.declaration) (callEnv c vs))
      (fun w' E => w'.Made ⟨.call c.declaration, c.env, .nil⟩ E) (callEnv c vs) m := by
  refine leads_opening (o := ⟨.call c.declaration, c.env, .nil⟩) _ (Comparison.callEnv_eq c vs m)
    hm (Origin.sound_of_isReceiver rfl) (fun y hy => ?_) fun _ h => by cases h
  exact hvs _ (List.of_mem_zip hy).2

/-! ## Methods -/

/-- The method is one that a class owns from which the class of the receiver descends. -/
def Method.Of (w : Ledger programs) (receiver : Value) : Method → Prop
  | .closure c => ∃ ref d b, receiver = .object ref ∧ w.classes ref = some d ∧ b ∈ d.chain ∧
      b.Owns c.declaration c.env ∧ c.MethodOf w b
  | .native _ => True

/-- A method that was found in a chain that the class of the receiver descends from. -/
theorem Class.Sound.found {b d : Class} (h : d.Sound w) (hb : b ∈ d.chain) {name : String}
    {method : Method} (hfound : b.findMethod? name = some method) {ref : Nat}
    (href : w.classes ref = some d) : method.Of w (.object ref) := by
  cases method with
  | native _ => trivial
  | closure c =>
      obtain ⟨a, ha, hown⟩ := Class.exists_owner hfound
      have had := Class.chain_subset hb a ha
      exact ⟨ref, d, a, rfl, href, had, h.owns had hown, (h a had name c hown).2⟩

theorem functionKind_method (p : Place) (f : FunDecl Slot) :
    (p.enter (.receiver f)).functionKind f = .ofMethod f.name.lexeme :=
  rfl

theorem ofMethod_eq_initializer {name : String} :
    FunctionKind.ofMethod name = .initializer ↔ name = initializerName := by
  rw [FunctionKind.ofMethod]
  split
  · next h => exact ⟨fun _ => h, fun _ => rfl⟩
  · next h => exact ⟨(fun hk => by cases hk), fun hn => absurd hn h⟩

/-- A method is marked as an initializer if the resolver takes it for one. -/
theorem Closure.MethodOf.isInitializer_iff {c : Closure} {b : Class} (h : c.MethodOf w b)
    (p : Place) : c.isInitializer = true ↔
      (p.enter (.receiver c.declaration)).functionKind c.declaration = .initializer := by
  rw [functionKind_method, ofMethod_eq_initializer, h.mark, beq_iff_eq]

theorem Closure.MethodOf.bound {c : Closure} {b : Class} (h : c.MethodOf w b) {held : Value}
    {E : Env} (hE : w.Made ⟨.receiver c.declaration, c.env, held⟩ E) :
    Closure.Sound w { c with env := E } := by
  obtain ⟨p, hoccurs, hp, _⟩ := h.placed
  exact ⟨p.enter (.receiver c.declaration), hoccurs, hE.around hp, h.isInitializer_iff p⟩

theorem leads_bindMethod {method : Method} {v : Value} (hm : m.Sound w)
    (hmethod : method.Of w v) (hv : v.Sound w) :
    Leads w (bindVisits n method v) Value.Sound (bindMethod method v) m := by
  cases method with
  | native f =>
      exact (leads_freshId hm).map fun id m₁ w₁ _ hw₁ hm₁ _ _ => leads_pure hm₁ (hv.later hw₁)
  | closure c =>
      obtain ⟨ref, d, b, rfl, hd, hb, howns, hof⟩ := hmethod
      have hopen : Leads w (bindVisits n (.closure c) (.object ref))
          (fun w' E => w'.Made ⟨.receiver c.declaration, c.env, .object ref⟩ E)
          (receiverEnv c (.object ref)) m := by
        refine leads_opening (o := ⟨.receiver c.declaration, c.env, .object ref⟩)
          (l := [(thisName, .object ref)]) _ rfl hm (fun f hf => ?_) (fun y hy => ?_)
          fun name hname => ?_
        · cases hf
          exact ⟨ref, d, b, rfl, hd, hb, howns⟩
        · rw [List.mem_singleton.mp hy]
          exact hv
        · cases hname
          rfl
      rw [Comparison.bindMethod_closure]
      refine hopen.map fun E m₁ w₁ _ hw₁ hm₁ _ hE => ?_
      refine (leads_freshId hm₁).map fun id m₂ w₂ _ hw₂ hm₂ _ _ => leads_pure hm₂ ?_
      exact (hof.later (hw₁.trans hw₂)).bound (hE.later hw₂)

/-! ## Instances -/

theorem leads_allocate {c : Class} {vs : Option (Array Value)} (hm : m.Sound w)
    (hc : c.Sound w) (hvs : ∀ us, vs = some us → ∀ v ∈ us, v.Sound w) :
    Leads w .none (fun w' v => v = .object m.objects.size ∧ w'.classes m.objects.size = some c)
      (allocate c vs) m := by
  have hi : Instance.Sound w { cls := c, elements := vs } :=
    ⟨(fun _ _ h => by cases h), hvs⟩
  obtain ⟨hlater, hsound⟩ := hm.push hi hc
  exact leads_of_ok rfl hlater hsound rfl ⟨rfl, w.classes_allocated _ c⟩

theorem leads_setField (ref : Nat) (name : String) {v : Value} (hm : m.Sound w)
    (hv : v.Sound w) : Leads w .none someValue (setField ref name v) m := by
  refine leads_of_ok rfl (.refl w) (hm.modify ref (fun _ => rfl) fun i hi => ?_) rfl trivial
  refine ⟨fun n u hu => ?_, hi.elements⟩
  rw [Bindings.find?_insert] at hu
  split at hu
  · cases hu
    exact hv
  · exact hi.fields n u hu

theorem leads_getProperty {v : Value} (name : Token) (hm : m.Sound w) (hv : v.Sound w) :
    Leads w (Comparison.propertyVisits n v name.lexeme) Value.Sound (getProperty v name) m := by
  cases v with
  | object ref =>
      obtain ⟨i, hi, hsound, hcls, href⟩ := hm.instance_of_object hv
      have heq := Comparison.getProperty_object ref name m
      rw [hi] at heq
      dsimp only at heq
      cases hfield : i.fields.find? name.lexeme with
      | some field =>
          have hmethod : methodOf? (.object ref) name.lexeme m = none := by
            rw [methodOf?, hi, Option.bind_some, hfield]
          rw [hfield] at heq
          refine (leads_of_ok heq (.refl w) hm rfl (hsound.fields _ _ hfield)).imp ?_
            fun _ _ _ => id
          rintro a ⟨method, hfound, _⟩
          rw [hmethod] at hfound
          cases hfound
      | none =>
          have hmethod : methodOf? (.object ref) name.lexeme m =
              i.cls.findMethod? name.lexeme := by
            rw [methodOf?, hi, Option.bind_some, hfield]
          rw [hfield] at heq
          dsimp only at heq
          cases hfound : i.cls.findMethod? name.lexeme with
          | none =>
              rw [hfound] at heq hmethod
              refine (leads_of_machine (by rw [heq]; rfl) hm fun v m' hv => ?_).imp
                (fun a => ?_) fun _ _ _ => id
              · rw [heq] at hv
                cases hv
              · rintro ⟨method, hsome, _⟩
                rw [hmethod] at hsome
                cases hsome
          | some method =>
              rw [hfound] at heq hmethod
              have hof := hcls.found (Class.mem_chain_self _) hfound href
              have hbind := (leads_bindMethod (n := n) hm hof hv).congr heq
              refine hbind.imp (fun a => ?_) fun _ _ _ => id
              rintro ⟨method', hsome, ha⟩
              rw [hmethod] at hsome
              cases hsome
              exact ha
  | _ =>
      refine (leads_abort hm).imp (fun a => ?_) fun _ _ _ => id
      rintro ⟨method, h, _⟩
      cases h

/-! ## Receivers and superclasses -/

/-- In a method `this` is an instance of a class that descends from one that owns the
method, in the environment around its receiver. -/
theorem Machine.Sound.receiver (hm : m.Sound w) {E : Env} (hp : w.Around p E) {d : Nat}
    {f : FunDecl Slot} (hin : p.InMethod d f) :
    ∃ ref c b, m.frames.getAt E d thisName = .ok (.object ref) ∧ w.classes ref = some c ∧
      b ∈ c.chain ∧ b.Owns f (E.drop (d + 1)) := by
  obtain ⟨l, hl, hopening⟩ := hin.level
  obtain ⟨k, o, hk, _, hmade, ho, houter, _⟩ := hp.at hl
  rw [hopening] at ho
  obtain ⟨ref, c, b, hheld, hc, hb, howns⟩ := hm.ledger.origins k o hmade f ho
  refine ⟨ref, c, b, ?_, hc, hb, houter ▸ howns⟩
  exact hheld ▸ Frames.getAt_eq_ok hk (hm.held k o thisName hmade (by rw [ho]; rfl))

/-- One frame further out is the superclass that the owner of the method was made with. -/
theorem Machine.Sound.superclass (hm : m.Sound w) {E : Env} (hp : w.Around p E) {d : Nat}
    {l : Level} (hl : p[d]? = some l) {s : Stmt Slot} (hs : l.opening = .superclass s)
    {f : FunDecl Slot} {b c : Class} (hc : c.Sound w) (hb : b ∈ c.chain)
    (howns : b.Owns f (E.drop d)) :
    ∃ a, b.superclass? = some a ∧ m.frames.getAt E d superName = .ok (.cls a) := by
  obtain ⟨k, o, hk, hdrop, hmade, ho, _, _⟩ := hp.at hl
  rw [hs] at ho
  obtain ⟨_, _, q, _, hq, hsuper⟩ := hc b hb _ _ howns
  dsimp only at hq hsuper
  rw [hdrop] at hq hsuper
  generalize E.drop (d + 1) = rest at hq hsuper
  -- the environment of the method begins with the same frame, whatever its place is
  cases hq with
  | global => exact absurd rfl (hm.ledger.bounds _ o hmade).1
  | @frame l' _ _ o' hmade' ho' _ =>
      rw [hmade] at hmade'
      cases hmade'
      obtain ⟨k', o'', a, hk', hmade', ha, hheld⟩ :=
        hsuper l' rfl (by rw [← ho', ho]; rfl)
      cases hk'
      rw [hmade] at hmade'
      cases hmade'
      refine ⟨a, ha, ?_⟩
      exact hheld ▸ Frames.getAt_eq_ok hk (hm.held k o superName hmade (by rw [ho]; rfl))

/-- What `super` finds in a method: the method of a class further up, and the receiver. -/
theorem Machine.Sound.superMethod (hm : m.Sound w) (hp : w.Around p m.env) {d : Nat}
    {f : FunDecl Slot} (hin : p.InMethod d f) {l : Level} (hl : p[d + 1]? = some l)
    {s : Stmt Slot} (hs : l.opening = .superclass s) (method : Token) :
    ∃ ref c b a, m.frames.getAt m.env d thisName = .ok (.object ref) ∧
      w.classes ref = some c ∧ b ∈ c.chain ∧ b.Owns f (m.env.drop (d + 1)) ∧
      b.superclass? = some a ∧ m.frames.getAt m.env (d + 1) superName = .ok (.cls a) ∧
      superMethod method (some (d + 1)) m =
        match a.findMethod? method.lexeme with
        | some found => bindMethod found (.object ref) m
        | none => error .undefinedProperty method m := by
  obtain ⟨ref, c, b, hthis, hc, hb, howns⟩ := hm.receiver hp hin
  obtain ⟨a, ha, hsuper⟩ := hm.superclass hp hl hs (hm.ledger.classes ref c hc) hb howns
  refine ⟨ref, c, b, a, hthis, hc, hb, howns, ha, hsuper, ?_⟩
  have heq := Comparison.superMethod_some method (d + 1) m
  rw [hsuper, Nat.add_sub_cancel, hthis] at heq
  exact heq

theorem leads_superMethod (hm : m.Sound w) (hp : w.Around p m.env) {d : Nat}
    {f : FunDecl Slot} (hin : p.InMethod d f) {l : Level} (hl : p[d + 1]? = some l)
    {s : Stmt Slot} (hs : l.opening = .superclass s) (method : Token) :
    Leads w (Comparison.superVisits n method.lexeme (some (d + 1))) Value.Sound
      (superMethod method (some (d + 1))) m := by
  obtain ⟨ref, c, b, a, hthis, hc, hb, _, ha, hsuper, heq⟩ :=
    hm.superMethod hp hin hl hs method
  have hmethod : superMethodOf? method.lexeme (some (d + 1)) m =
      (a.findMethod? method.lexeme).map (·, .object ref) := by
    rw [superMethodOf?, Option.bind_some, hsuper, Nat.add_sub_cancel, hthis]
  cases hfound : a.findMethod? method.lexeme with
  | none =>
      rw [hfound] at heq hmethod
      refine (leads_of_machine (by rw [heq]; rfl) hm fun v m' hv => ?_).imp
        (fun x => ?_) fun _ _ _ => id
      · rw [heq] at hv
        cases hv
      · rintro ⟨found, receiver, hsome, _⟩
        rw [hmethod] at hsome
        cases hsome
  | some found =>
      rw [hfound] at heq hmethod
      have hof := (hm.ledger.classes ref c hc).found (Class.mem_chain_superclass hb ha) hfound hc
      have hreceiver : (Value.object ref).Sound w := ⟨c, hc⟩
      have hbind := (leads_bindMethod (n := n) hm hof hreceiver).congr heq
      refine hbind.imp (fun x => ?_) fun _ _ _ => id
      rintro ⟨found', receiver, hsome, hx⟩
      rw [hmethod] at hsome
      cases hsome
      exact hx

end Lox
