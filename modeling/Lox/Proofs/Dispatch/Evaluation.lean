import Lox.Proofs.Dispatch.Declarations
import Lox.Proofs.Preservation.Evaluation
import Lox.Proofs.Scoping.Agreement

/-!
# Evaluation leads to sound machines

What the resolver has found out about a place is used where a name is bound, since it is a name
of the program, and where `super` stands, since that is inside a method of a class with a
superclass.
-/

namespace Lox

open Eval

variable {programs : List (List (Stmt Slot))} {w w' : Ledger programs} {m : Machine} {n : Nat}

/-! ## Tasks -/

theorem Task.Sound.later {E : Env} {t : Task} (h : t.Sound w E) (hw : w.Later w') :
    t.Sound w' E := by
  cases t with
  | call f vs => exact ⟨h.1.later hw, fun v hv => (h.2 v hv).later hw⟩
  | loop c s =>
      obtain ⟨p, hc, hs, hp⟩ := h
      exact ⟨p, hc, hs, hp.later hw⟩
  | unit ss => exact ⟨h.1, h.2.later hw⟩
  | opens o E' =>
      obtain ⟨k, origin, hE, hmade, ho⟩ := h
      exact ⟨k, origin, hE, hw.made _ _ hmade, ho⟩
  | eval | evalAll | exec | execAll =>
      obtain ⟨p, hoccurs, hp⟩ := h
      exact ⟨p, hoccurs, hp.later hw⟩

section

variable {p : Place} {E : Env}

/-- The part of a statement is at a place inside that of the statement. -/
theorem Task.Sound.part_exec {s : Stmt Slot} {t : Task} (h : Occurs programs p (.stmt s))
    (hp : w.Around p E) (ht : t ∈ parts (.exec s)) : t.Sound w E := by
  cases s with
  | expression e | print e =>
      cases List.mem_singleton.mp ht
      exact ⟨p, h.inside (.head _), hp⟩
  | varDecl name initializer =>
      obtain ⟨e, he, rfl⟩ := List.mem_map.mp ht
      exact ⟨_, h.inside (List.mem_map_of_mem he), hp.declare name.lexeme⟩
  | ifThen c a =>
      rcases List.mem_pair.mp ht with rfl | rfl
      · exact ⟨p, h.inside (.head _), hp⟩
      · exact ⟨p, h.inside (.tail _ (.head _)), hp⟩
  | ifElse c a b =>
      rcases List.mem_cons.mp ht with rfl | ht
      · exact ⟨p, h.inside (.head _), hp⟩
      · rcases List.mem_pair.mp ht with rfl | rfl
        · exact ⟨p, h.inside (.tail _ (.head _)), hp⟩
        · exact ⟨p, h.inside (.tail _ (.tail _ (.head _))), hp⟩
  | whileLoop c a =>
      cases List.mem_singleton.mp ht
      exact ⟨p, h.inside (.head _), h.inside (.tail _ (.head _)), hp⟩
  | ret keyword value =>
      obtain ⟨e, he, rfl⟩ := List.mem_map.mp ht
      exact ⟨p, h.inside (List.mem_map_of_mem he), hp⟩
  | classDecl name superclass methods =>
      obtain ⟨r, hr, rfl⟩ := List.mem_map.mp ht
      exact ⟨p, h.inside (List.mem_append_left _ (List.mem_map_of_mem hr)), hp⟩
  | block | function => cases ht

theorem Task.Sound.part {t t' : Task} (h : t.Sound w E) (ht : t' ∈ t.parts) : t'.Sound w E := by
  cases t with
  | eval e =>
      obtain ⟨p, hoccurs, hp⟩ := h
      cases e with
      | call callee paren arguments =>
          rcases List.mem_pair.mp ht with rfl | rfl
          · exact ⟨p, hoccurs.part (.head _), hp⟩
          · exact ⟨p, fun e he => hoccurs.part (.tail _ he), hp⟩
      | vector bracket es =>
          cases List.mem_singleton.mp ht
          exact ⟨p, fun e he => hoccurs.part he, hp⟩
      | _ =>
          obtain ⟨e, he, rfl⟩ := List.mem_map.mp ht
          exact ⟨p, hoccurs.part he, hp⟩
  | evalAll es =>
      obtain ⟨p, hoccurs, hp⟩ := h
      cases es with
      | nil => cases ht
      | cons e es =>
          obtain ⟨he, hes⟩ := List.forall_mem_cons.mp hoccurs
          rcases List.mem_pair.mp ht with rfl | rfl
          · exact ⟨p, he, hp⟩
          · exact ⟨p, hes, hp⟩
  | exec s =>
      obtain ⟨p, hoccurs, hp⟩ := h
      exact part_exec hoccurs hp ht
  | execAll ss =>
      obtain ⟨p, hoccurs, hp⟩ := h
      cases ss with
      | nil => cases ht
      | cons s ss =>
          rcases List.mem_pair.mp ht with rfl | rfl
          · exact ⟨p, hoccurs.inside (.head _), hp⟩
          · exact ⟨_, hoccurs.inside (.tail _ (.head _)), hp.after s⟩
  | loop c s =>
      obtain ⟨p, hc, hs, hp⟩ := h
      rcases List.mem_pair.mp ht with rfl | rfl
      · exact ⟨p, hc, hp⟩
      · exact ⟨p, hs, hp⟩
  | unit ss =>
      obtain ⟨hoccurs, hp⟩ := h
      cases ss with
      | nil => cases ht
      | cons s ss =>
          rcases List.mem_pair.mp ht with rfl | rfl
          · exact ⟨[], hoccurs.inside (.head _), hp⟩
          · exact ⟨Place.after_nil s ▸ hoccurs.inside (.tail _ (.head _)), hp⟩
  | call | opens => cases ht

end

/-! ## The judgement -/

theorem leads_getAt (E : Env) (d : Nat) (name : String) (hm : m.Sound w) :
    Leads w .none Value.Sound (getAt E d name) m := by
  cases hv : m.frames.getAt E d name with
  | ok v => exact leads_of_ok (by simp only [getAt, hv]) (.refl w) hm rfl (hm.getAt hv)
  | error f =>
      refine (leads_abort (r := .fault (.distance f)) hm).congr ?_
      simp only [getAt, hv]
      rfl

section

variable (haccepted : ∀ program ∈ programs, Accepted program)

/-- That machines are as a ledger says, which only grows, and tasks stand in the programs. -/
def soundness : Judgement where
  World := Ledger programs
  Later := Ledger.Later
  Machine w m := m.Sound w
  Value w v := v.Sound w
  Begins w E t := t.Sound w E
  Plain _ := True
  Step w vis _ _ Q x m := Leads w vis Q x m
  value_later hw hv := hv.later hw
  constant _ c := by cases c <;> exact trivial
  part h ht := h.part ht
  callable _ hf hvs _ := ⟨hf, hvs⟩
  at_env hm _ := hm.at_env _
  congr h hx hvis _ := (h.congr hx).imp (fun _ ha => hvis ▸ ha) fun _ _ _ => id
  imp _ _ hQ h := h.imp (fun _ => id) hQ
  stays hm hx hmeets := by
    refine leads_of_machine hx hm fun v m' hv => ?_
    rw [hv] at hmeets
    exact hmeets
  sequence _ h hf := h.bind fun b m₁ w₁ _ hw₁ hm₁ henv₁ hb =>
    hf b m₁ w₁ hw₁ hm₁ (fun _ ht => henv₁ ▸ ht.later hw₁) hb
  within _ h := h.within
  reporting h := h.reporting
  self _ hm ht _ _ h := h.self hm ht
  spent _ hm ht _ := leads_spent hm ht
  lookUp name slot hm := leads_lookUp name slot hm
  getProperty _ _ name hm hv := leads_getProperty name hm hv
  setField ref name _ hm hv := leads_setField ref name hm hv
  superMethod _ _ method _ hm h := by
    obtain ⟨p, hoccurs, hp⟩ := h
    obtain ⟨d, f, l, s, rfl, hin, _, hl, hs⟩ := hoccurs.superRef haccepted
    exact leads_superMethod hm hp hin hl hs method
  callEnv _ _ _ _ hm h := by
    obtain ⟨⟨p, hoccurs, hp, _⟩, hvs⟩ := h
    refine (leads_callEnv hm hvs).imp (fun _ => id) fun w' E hw hE => ?_
    exact ⟨_, hoccurs.inside (.head _), hE.around (hp.later hw)⟩
  receiver E hm := leads_getAt E 0 thisName hm
  setLastValue hm _ := leads_setLastValue _ hm
  block _ _ hm h := by
    obtain ⟨p, hoccurs, hp⟩ := h
    refine (leads_block _ _ hm).imp (fun _ => id) fun w' E hw hE => ?_
    exact ⟨_, hoccurs.inside (.head _), hE.around (hp.later hw)⟩

/-! ## Activities of their own -/

/-- A vector with the values of its expressions. -/
theorem leads_vector {vs : List Value} (hm : m.Sound w) (hvs : ∀ v ∈ vs, v.Sound w) :
    Leads w .none Value.Sound (allocate m.vectorClass (some vs.toArray)) m := by
  refine (leads_allocate hm hm.vectorClass (forall_mem_literal hvs)).imp (fun _ => id) ?_
  rintro w' _ _ ⟨rfl, href⟩
  exact ⟨_, href⟩

/-- The call of a class makes an instance of it and gives that, whatever its initializer
returns. -/
theorem leads_construct {c : Class} {vs : List Value}
    (hcalls : ∀ {w : Ledger programs} {m f}, m.Sound w → f.Sound w → (∀ u ∈ vs, u.Sound w) →
      Leads w (visits n (.call f vs)) Value.Sound (call n f vs) m)
    (hm : m.Sound w) (hc : c.Sound w) (hvs : ∀ u ∈ vs, u.Sound w) :
    Leads w (visitsInside n (visits n) (.call (.cls c) vs))
      (fun w' v => v = .object m.objects.size ∧ w'.classes m.objects.size = some c)
      (Eval.call (n + 1) (.cls c) vs) m := by
  rw [Eval.call]
  refine (leads_allocate hm hc forall_mem_new).after fun o m₁ w₁ _ hw₁ hm₁ _ ho => ?_
  obtain ⟨rfl, href⟩ := ho
  have hobject : (Value.object m.objects.size).Sound w₁ := ⟨c, href⟩
  cases hfound : c.findMethod? initializerName with
  | none => exact leads_pure hm₁ ⟨rfl, href⟩
  | some method =>
      have hof := (hc.later hw₁).found (Class.mem_chain_self _) hfound href
      refine (leads_bindMethod hm₁ hof hobject).bind fun f m₂ w₂ _ hw₂ hm₂ _ hf => ?_
      refine (hcalls hm₂ hf fun u hu => (hvs u hu).later (hw₁.trans hw₂)).map
        fun _ m₃ w₃ _ hw₃ hm₃ _ _ => ?_
      exact leads_pure hm₃ ⟨rfl, (hw₂.trans hw₃).classes _ c href⟩

include haccepted in
theorem leads_function {f : FunDecl Slot} {p : Place} (h : Occurs programs p (.stmt (.function f)))
    (hp : w.Around p m.env) (hm : m.Sound w) :
    Leads w .none someValue
      (freshId >>= fun id => define f.name.lexeme (.function id ⟨f, m.env, false⟩)) m := by
  obtain ⟨hbody, _⟩ := h.surrounded haccepted
  have hf : Occurs programs (p.define f.name.lexeme) (.function f) := h.inside (.head _)
  refine (leads_freshId hm).map fun id m₁ w₁ _ hw₁ hm₁ _ _ => ?_
  refine leads_define hm₁ ((h.surrounded haccepted).declared f.name rfl)
    (v := .function id ⟨f, m.env, false⟩) ⟨_, hf, (hp.later hw₁).define f.name.lexeme, ?_⟩
  show false = true ↔ _
  rw [(hbody.define f.name.lexeme).functionKind]
  exact iff_of_false Bool.false_ne_true (by decide)

/-- The evaluator leads to sound machines. -/
def leading : Preservation where
  toJudgement := soundness haccepted
  routine _ := trivial
  assign := Judgement.assigns trivial fun hm h hv => by
    obtain ⟨p, hoccurs, _⟩ := h
    exact leads_assign _ hm (hoccurs.surrounded haccepted).assigned hv
  vector := Judgement.makesVector trivial fun hm hvs => leads_vector hm hvs
  native hm h := Judgement.runsNative trivial (leads_runFunction _ hm h.2) hm h
  nativeMethod hm h := Judgement.runsNativeMethod trivial (leads_runMethod _ hm h.1 h.2) hm h
  construct hm h hcalls := by
    refine Judgement.application _ trivial hm h ?_
    obtain ⟨hc, hvs⟩ := h
    refine (leads_construct (fun hm₁ hf hvs => hcalls hm₁ ⟨hf, hvs⟩) hm hc hvs).imp (fun _ => id) ?_
    rintro w' _ _ ⟨rfl, href⟩
    exact ⟨_, href⟩
  print := Judgement.prints trivial fun text hm => leads_print text hm
  varDecl := Judgement.declares trivial trivial fun hm h hv => by
    obtain ⟨p, hoccurs, _⟩ := h
    exact leads_define hm ((hoccurs.surrounded haccepted).declared _ rfl) hv
  function hm h := Judgement.declaresFunction trivial hm h <| by
    obtain ⟨p, hoccurs, hp⟩ := h
    exact leads_function haccepted hoccurs hp hm
  classDecl hm h _ := Judgement.declaresClass trivial hm h <| by
    obtain ⟨p, hoccurs, hp⟩ := h
    obtain ⟨hbody, _⟩ := hoccurs.surrounded haccepted
    exact leads_declareClass hoccurs hbody ((hoccurs.surrounded haccepted).declared _ rfl) hm hp

end

end Lox
