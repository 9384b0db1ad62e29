import Lox.Proofs.Natives.Operations
import Lox.Proofs.Preservation.Evaluation

/-!
# Evaluation keeps machines regular

What is known at a moment is how many instances there are. The failure of a native function
leaves its call, and never an expression, since the call reports it.
-/

namespace Lox

open Eval

variable {m : Machine} {n k k' : Nat}

/-! ## Tasks -/

/-- The trees of the task are well-formed, and its values regular where there are `k`
instances. -/
def Task.Regular (k : Nat) : Task → Prop
  | .eval e => e.WellFormed
  | .evalAll es => Expr.WellFormedAll es
  | .call f vs => f.Regular k ∧ (∀ v ∈ vs, v.Regular k) ∧ f.arity? = some vs.length
  | .exec s => s.WellFormed
  | .execAll body => Stmt.WellFormedAll body
  | .loop c s => c.WellFormed ∧ s.WellFormed
  | .unit program => Stmt.WellFormedAll program
  | .opens _ _ => True

theorem Task.Regular.mono {t : Task} (h : t.Regular k) (hk : k ≤ k') : t.Regular k' := by
  cases t with
  | call f vs => exact ⟨h.1.mono hk, fun v hv => (h.2.1 v hv).mono hk, h.2.2⟩
  | _ => exact h

theorem Task.Regular.part {t t' : Task} (h : t.Regular k) (ht : t' ∈ t.parts) :
    t'.Regular k := by
  revert t'
  cases t with
  | eval e => cases e <;> simp_all [parts, Expr.parts, Regular, Expr.WellFormed]
  | evalAll es => cases es <;> simp_all [parts, Regular, Expr.WellFormedAll]
  | exec s =>
      cases s with
      | varDecl name initializer =>
          cases initializer <;>
            simp_all [parts, Regular, Stmt.WellFormed, Expr.WellFormedOption]
      | ret keyword value =>
          cases value <;> simp_all [parts, Regular, Stmt.WellFormed, Expr.WellFormedOption]
      | classDecl name superclass methods =>
          cases superclass <;> simp_all [parts, Regular, Stmt.WellFormed, Expr.WellFormed]
      | _ => simp_all [parts, Regular, Stmt.WellFormed]
  | execAll ss => cases ss <;> simp_all [parts, Regular, Stmt.WellFormedAll]
  | unit ss => cases ss <;> simp_all [parts, Regular, Stmt.WellFormedAll]
  | loop | call | opens => simp_all [parts, Regular]

/-! ## The judgement -/

theorem Result.Meets.ends {α : Type} {R : Abort → Prop} {Q : Nat → α → Prop} {r : Result α}
    (h : r.Meets R (Q r.machine.objects.size)) : r.Ends R Q := by
  cases r <;> exact h

/-- An activity visits itself. -/
theorem Keeps.self {α : Type} {R : Abort → Prop} {Q : Nat → α → Prop} {x : Eval α} {t : Task}
    (hm : m.Regular) (ht : t.Regular k) (h : Keeps R (visitsInside n (Eval.visits n) t) Q x m) :
    Keeps R (Eval.visits (n + 1) t) Q x m := by
  refine ⟨h.grows, h.regular, h.ends, fun a ha => ?_⟩
  rcases ha with rfl | ha
  · rintro e rfl
    exact ⟨ht, hm⟩
  · exact h.visits a ha

theorem keeps_spent {α : Type} {R : Abort → Prop} {Q : Nat → α → Prop} {t : Task}
    (hm : m.Regular) (ht : t.Regular k) (hR : R .spent) :
    Keeps R (visits 0 t) Q (spent : Eval α) m := by
  refine ⟨Nat.le_refl _, hm, hR, fun a ha => ?_⟩
  cases ha
  rintro e rfl
  exact ⟨ht, hm⟩

theorem keeps_block {R : Abort → Prop} {body : List (Stmt Slot)} (hm : m.Regular)
    (hbody : Stmt.WellFormedAll body) :
    Keeps R (.opening n (.block body) (enter "block" m.env))
      (fun _ _ => Stmt.WellFormedAll body) (enter "block" m.env) m := by
  have henter := (keeps_enter (R := R) "block" m.env hm).imp (fun _ => id) (fun _ => id)
    fun _ _ _ _ => hbody
  exact ⟨henter.grows, henter.regular, henter.ends, fun _ => opening_regular⟩

theorem keeps_callEnv {R : Abort → Prop} {c : Closure} {vs : List Value} (hm : m.Regular)
    (hc : c.declaration.WellFormed) (hvs : ∀ v ∈ vs, v.Regular m.objects.size) :
    Keeps R (.opening n (.call c.declaration) (callEnv c vs))
      (fun _ _ => Stmt.WellFormedAll c.declaration.body) (callEnv c vs) m := by
  obtain ⟨hparams, hbody⟩ :
      (∀ t ∈ c.declaration.params, t.IsName) ∧ Stmt.WellFormedAll c.declaration.body := by
    obtain ⟨⟨name, params, body⟩, _, _⟩ := c
    exact hc.2
  have hregular := (hm.enter ("call " ++ c.name) c.env).defineAll
    (m.frames.enter ("call " ++ c.name) c.env).1 ((Opening.call c.declaration).initial.zip vs) <| by
      intro x hx
      obtain ⟨hname, hv⟩ := List.of_mem_zip hx
      obtain ⟨t, ht, heq⟩ := List.mem_map.mp hname
      rw [← heq]
      exact (hparams t ht).boundTo (hvs _ hv)
  have h : Keeps R .none (fun _ _ => Stmt.WellFormedAll c.declaration.body) (callEnv c vs) m :=
    keeps_of_ok (Comparison.callEnv_eq c vs m) hregular (Nat.le_refl _) hbody
  exact ⟨h.grows, h.regular, h.ends, fun _ => opening_regular⟩

/-- That machines and values are regular, for the number of instances that there are. -/
def regularity : Judgement where
  World := Nat
  Later k k' := k ≤ k'
  Machine k m := m.Regular ∧ m.objects.size = k
  Value := Value.Regular
  Begins k _ t := t.Regular k
  Plain _ := True
  Step _ vis _ R Q x m := Keeps R vis Q x m
  value_later hk hv := hv.mono hk
  constant _ c := by cases c <;> constructor
  part := Task.Regular.part
  callable _ hf hvs harity := ⟨hf, hvs, harity⟩
  at_env hm _ := ⟨hm.1.at_env _, hm.2⟩
  congr h hx hvis _ := ⟨hx ▸ h.grows, hx ▸ h.regular, hx ▸ h.ends, hvis ▸ h.visits⟩
  imp hm hR hQ h := h.imp (fun _ => id) hR fun k v hle => hQ k v (hm.2 ▸ hle)
  stays hm hx hmeets := by
    refine keeps_of_machine hx hm.1 (Result.Meets.ends ?_)
    rw [hx, hm.2]
    exact hmeets
  sequence hm h hf := by
    obtain ⟨_, rfl⟩ := hm
    exact h.bind fun b m₁ _ hle hm₁ hb =>
      hf b m₁ _ hle ⟨hm₁, rfl⟩ (fun _ ht => ht.mono hle) hb
  within _ h := h.within
  reporting h := h.reporting
  self _ hm ht _ _ h := h.self hm.1 ht
  spent _ hm ht hR := keeps_spent hm.1 ht hR
  lookUp name slot hm := keeps_lookUp name slot hm.1
  getProperty n _ name hm hv := keeps_getProperty n name hm.1 (hm.2 ▸ hv)
  setField ref name _ hm hv := keeps_setField ref name hm.1 (hm.2 ▸ hv)
  superMethod n _ method slot hm _ := keeps_superMethod n method slot hm.1
  callEnv n _ c _ hm h := by
    obtain ⟨hm, rfl⟩ := hm
    obtain ⟨hf, hvs, _⟩ := h
    cases hf with
    | function hc => exact keeps_callEnv hm hc hvs
  receiver E hm := (keeps_getAt E 0 thisName hm.1).imp (fun _ => id) (fun _ => id)
    fun _ _ _ hv => hv.regular
  setLastValue hm _ := keeps_setLastValue _ hm.1
  block n _ hm h := keeps_block hm.1 h

/-! ## Activities of their own -/

/-- A native method on an instance that exists. -/
theorem keeps_runMethod {f : Native} (hf : f ∈ NativeTable.standardVectorMethods) {ref : Nat}
    (hm : m.Regular) (href : ref < m.objects.size) {vs : List Value}
    (hvs : ∀ v ∈ vs, v.Regular m.objects.size) (hlen : vs.length = f.arity) :
    Keeps Abort.LeavesCall .none Value.Regular (runMethod f (.object ref) vs) m := by
  have hend := runMethod_standard hf hm (Array.getElem?_eq_getElem href) hvs hlen
  generalize hx : runMethod f (.object ref) vs m = r at hend
  cases hend with
  | value hm' hsize hv =>
      exact keeps_of_ok hx hm' (Nat.le_of_eq hsize.symm) (hsize ▸ hv)
  | failure => exact keeps_of_machine (by rw [hx]; rfl) hm (hx ▸ trivial)
  | notVector _ => exact keeps_of_machine (by rw [hx]; rfl) hm (hx ▸ .inr rfl)

/-- A new instance of a class. -/
theorem keeps_new {R : Abort → Prop} {c : Class} (hm : m.Regular) (hc : c.Regular) :
    Keeps R .none (fun k v => ∃ ref, v = .object ref ∧ ref < k)
      (allocate c (if c.body.isVector then some #[] else none)) m := by
  refine keeps_allocate hm hc forall_mem_new fun hnone => ?_
  split at hnone
  · cases hnone
  · next hvector => exact Bool.eq_false_iff.mpr hvector

/-- A vector with the values of its expressions. -/
theorem keeps_literal {R : Abort → Prop} {vs : List Value} (hm : m.Regular)
    (hvs : ∀ v ∈ vs, v.Regular m.objects.size) :
    Keeps R .none Value.Regular (allocate m.vectorClass (some vs.toArray)) m := by
  refine (keeps_allocate hm hm.vectorClass (forall_mem_literal hvs) fun h => by cases h).imp
    (fun _ => id) (fun _ => id) ?_
  rintro k _ _ ⟨ref, rfl, href⟩
  exact .object href

/-- The number of arguments was checked when the class was called. -/
theorem keeps_initializer {c : Class} {method : Method} {ref : Nat} {vs : List Value}
    (hm : m.Regular) (hc : c.Regular) (hfound : c.findMethod? initializerName = some method)
    (href : ref < m.objects.size) (hvs : ∀ v ∈ vs, v.Regular m.objects.size)
    (harity : c.arity = vs.length) :
    Keeps Abort.LeavesCall (bindVisits n method (.object ref))
      (fun k f => Task.Regular k (.call f vs)) (bindMethod method (.object ref)) m := by
  have hbind := keeps_bindMethod (R := Abort.LeavesCall) n hm (hc _ _ hfound) href
  refine ⟨hbind.grows, hbind.regular, ?_, hbind.visits⟩
  obtain ⟨hgrows, _, hends, _⟩ := hbind
  cases hx : bindMethod method (.object ref) m with
  | abort r m₁ =>
      rw [hx] at hends
      exact hends
  | ok f m₁ =>
      rw [hx] at hends hgrows
      refine ⟨hends, fun v hv => (hvs v hv).mono hgrows, ?_⟩
      rw [Class.arity, hfound] at harity
      exact (Comparison.bindMethod_arity hx).trans (congrArg some harity)

theorem keeps_function {R : Abort → Prop} {f : FunDecl Slot} (hm : m.Regular)
    (hf : f.WellFormed) (E : Env) :
    Keeps R .none anyValue
      (freshId >>= fun id => define f.name.lexeme (.function id ⟨f, E, false⟩)) m :=
  (keeps_freshId hm).map fun _ _ _ _ hm₁ _ =>
    keeps_define hm₁ ((FunDecl.WellFormed.name hf).boundTo (.function hf))

/-- Looking up the superclass is an activity of a class statement. -/
theorem keeps_classDecl {name : Token} {superclass : Option (Reference Slot)}
    {methods : List (FunDecl Slot)} (hm : m.Regular)
    (h : (Stmt.classDecl name superclass methods).WellFormed) :
    Keeps Abort.Passes (visitsInside n (visits n) (.exec (.classDecl name superclass methods)))
      anyValue (declareClass name superclass methods) m := by
  obtain ⟨hgrows, hregular, hends, _⟩ : Keeps Abort.Passes .none anyValue
    (declareClass name superclass methods) m := keeps_declareClass hm h.1 h.2.2
  refine ⟨hgrows, hregular, hends, fun a ha => ?_⟩
  cases superclass with
  | none => exact ha.elim
  | some parent =>
      rcases ha with rfl | ⟨_, _, _, _, _, _, ha⟩
      · rintro e he
        cases he
        exact ⟨h.2.1 parent rfl, hm⟩
      · exact opening_regular ha

/-- The evaluator keeps machines regular. -/
def keeping : Preservation where
  toJudgement := regularity
  routine _ := trivial
  assign := Judgement.assigns trivial fun hm h hv => keeps_assign _ hm.1 h.1 (hm.2 ▸ hv)
  vector := Judgement.makesVector trivial fun hm hvs => keeps_literal hm.1 (hm.2 ▸ hvs)
  native hm h := by
    refine Judgement.runsNative trivial ?_ hm h
    obtain ⟨hf, hvs, harity⟩ := h
    cases hf with
    | native hf =>
        simp only [Value.arity?, Option.some.injEq] at harity
        obtain ⟨v, ticks, hv, hx⟩ := runFunction_standard hf harity.symm
        exact keeps_of_ok hx ⟨hm.1.frames, hm.1.objects, hm.1.vectorClass⟩ (Nat.le_refl _) hv
  nativeMethod hm h := by
    refine Judgement.runsNativeMethod trivial ?_ hm h
    obtain ⟨hm, rfl⟩ := hm
    obtain ⟨hf, hvs, harity⟩ := h
    cases hf with
    | nativeMethod hf href =>
        simp only [Value.arity?, Option.some.injEq] at harity
        exact keeps_runMethod hf hm href hvs harity.symm
  construct hm h := by
    obtain ⟨hm', rfl⟩ := hm
    obtain ⟨hf, hvs, harity⟩ := h
    cases hf with
    | cls hc =>
        refine Judgement.constructs (fun k v => ∃ ref, v = .object ref ∧ ref < k) trivial
          (keeps_new hm' hc) ?_ ?_ ⟨hm', rfl⟩ ⟨.cls hc, hvs, harity⟩
        · rintro k o ⟨ref, rfl, href⟩
          exact .object href
        · rintro o m₁ w₁ method ⟨hle, ⟨hm₁, rfl⟩, _⟩ ⟨ref, rfl, href⟩ hfound
          exact (keeps_initializer hm₁ hc hfound href (fun v hv => (hvs v hv).mono hle)
            (Option.some.inj harity)).imp (fun _ => id) (fun _ => id) fun _ _ _ hf _ _ => hf
  print := Judgement.prints trivial fun text hm => keeps_print text hm.1
  varDecl := Judgement.declares trivial .unassigned fun hm h hv =>
    keeps_define hm.1 (h.1.boundTo (hm.2 ▸ hv))
  function hm h := Judgement.declaresFunction trivial hm h (keeps_function hm.1 h _)
  classDecl hm h _ := Judgement.declaresClass trivial hm h (keeps_classDecl hm.1 h)

end Lox
