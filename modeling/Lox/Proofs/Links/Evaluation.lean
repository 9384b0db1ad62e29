import Lox.Proofs.Links.Operations
import Lox.Proofs.Preservation.Evaluation

/-!
# Evaluation keeps links

What is known at a moment is the links that there are. Nothing is asked of the trees: wherever a
program looks for its variables, what it finds is linked.
-/

namespace Lox

open Eval

variable {L : Links} {m : Machine} {n : Nat}

/-- What a task takes is all that has to be linked when it begins. -/
theorem Task.Takes.linked {t : Task} (h : t.Takes fun v => v.Linked L) : t.Linked L := by
  cases t with
  | call f vs => exact h
  | opens o E => exact h.elim
  | _ => exact trivial

/-- That all machines and values are linked, and that links only come to those that are there. -/
def linkage : Judgement where
  World := Links
  Later := Links.Later
  Machine L m := m.Linked L
  Value L v := v.Linked L
  Begins L E t := L.Chain E ∧ t.Takes fun v => v.Linked L
  Plain _ := True
  Step L vis _ _ Q x m := Grows L vis Q x m
  value_later hL hv := hv.later hL
  constant _ c := by cases c <;> exact trivial
  part h ht := ⟨h.1, Task.takes_part ht⟩
  callable hm hf hvs _ := ⟨hm.env, hf, hvs⟩
  at_env hm h := hm.at_env h.1
  congr h hx hvis _ := (h.congr hx).imp (fun _ ha => hvis ▸ ha) fun _ _ => id
  imp _ _ hQ h := by
    obtain ⟨L', hL, hm, hvalue, hvisits⟩ := h
    exact ⟨L', hL, hm, fun v m' hx => hQ L' v hL (hvalue v m' hx), hvisits⟩
  stays hm hx hmeets := by
    refine grows_of_machine hx hm fun v m' hv => ?_
    rw [hv] at hmeets
    exact hmeets
  sequence _ h hf := h.bind fun b m₁ L₁ hL₁ hm₁ hb =>
    hf b m₁ L₁ hL₁ hm₁ (fun _ ht => ⟨hm₁.env, ht.2.imp fun _ hv => hv.later hL₁⟩) hb
  within hm h := h.within hm
  reporting h := h.reporting
  self _ hm ht hperform hvalues h := h.self hm ht.2.linked hperform hvalues
  spent hopening hm ht _ := grows_spent hopening hm ht.2.linked
  lookUp name slot hm := grows_lookUp name slot hm
  getProperty _ _ name hm hv := grows_getProperty name hm hv
  setField ref name _ hm hv := grows_setField ref name hm hv
  superMethod _ _ method slot hm _ := grows_superMethod method slot hm
  callEnv _ _ _ _ hm h := (grows_callEnv hm h.2.1 h.2.2).imp (fun _ => id)
    fun _ _ hE => ⟨hE, trivial⟩
  receiver E hm := grows_getAt E 0 thisName hm
  setLastValue hm hv := grows_setLastValue hm hv
  block _ _ hm h := (grows_block _ hm h.1).imp (fun _ => id) fun _ _ hE => ⟨hE, trivial⟩

/-- A new instance of a class. -/
theorem grows_new {c : Class} (hm : m.Linked L) (hc : c.Linked L) :
    Grows L .none (fun L' v => v.Linked L')
      (allocate c (if c.body.isVector then some #[] else none)) m :=
  grows_allocate hm hc forall_mem_new

/-- A vector with the values of its expressions. -/
theorem grows_vector {vs : List Value} (hm : m.Linked L) (hvs : ∀ v ∈ vs, v.Linked L) :
    Grows L .none (fun L' v => v.Linked L') (allocate m.vectorClass (some vs.toArray)) m :=
  grows_allocate hm hm.vectorClass (forall_mem_literal hvs)

theorem grows_function (f : FunDecl Slot) {E : Env} (hm : m.Linked L) (hE : L.Chain E) :
    Grows L .none whatever
      (freshId >>= fun id => define f.name.lexeme (.function id ⟨f, E, false⟩)) m :=
  (grows_freshId hm).map fun id _ _ hL₁ hm₁ _ =>
    grows_define f.name.lexeme hm₁ (v := .function id ⟨f, E, false⟩) (hE.later hL₁)

/-- Whatever the evaluator does, links only come to those that are there. -/
def linking : Preservation where
  toJudgement := linkage
  routine _ := trivial
  assign := Judgement.assigns trivial fun hm _ hv => grows_assign _ _ hm hv
  vector := Judgement.makesVector trivial fun hm hvs => grows_vector hm hvs
  native hm h := Judgement.runsNative trivial (grows_runFunction _ hm h.2.2) hm h
  nativeMethod hm h := Judgement.runsNativeMethod trivial (grows_runMethod _ hm h.2.1 h.2.2) hm h
  construct hm h := by
    obtain ⟨_, hc, hvs⟩ := h
    have hc : Class.Linked _ _ := hc
    refine Judgement.constructs (fun L v => Value.Linked L v) trivial (grows_new hm hc) id
      (fun h₁ ho hfound => ?_) hm ⟨hm.env, hc, hvs⟩
    have hmethod := (hc.later h₁.later).found hfound
    refine linkage.imp h₁.machine (fun _ => id) (fun L₂ f hL₂ hf m' hm' => ?_)
      (grows_bindMethod h₁.machine hmethod ho)
    exact ⟨hm'.env, hf, fun v hv => (hvs v hv).later (h₁.later.trans hL₂)⟩
  print := Judgement.prints trivial fun text hm => grows_print text hm
  varDecl := Judgement.declares trivial trivial fun hm _ hv => grows_define _ hm hv
  function hm h := Judgement.declaresFunction trivial hm h (grows_function _ hm h.1)
  classDecl hm h _ := Judgement.declaresClass trivial hm h (grows_declareClass _ _ _ hm)

end Lox
