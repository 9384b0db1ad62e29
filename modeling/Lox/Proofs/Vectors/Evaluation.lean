import Lox.Proofs.Preservation.Evaluation
import Lox.Proofs.Vectors.Operations

/-!
# The evaluator does to vectors what its moments say

Vectors are made and changed in three places. The call of their class makes one as it begins, a
literal makes one as it completes, after its elements were evaluated, and the call of a native
function may append to one as it completes. In all other activities nothing is done with vectors
but inside of them.
-/

namespace Lox

open Eval

variable {V : Class} {n : Nat} {m : Machine}

/-! ## Activities in which something is done with a vector -/

section

variable {vs : List Value}

/-- A native function is called. -/
theorem replays_native {callee : Value} (hm : m.Genuine V) (hcallee : callee.Genuine V)
    (hinside : chronicleInside n (chronicle n) (.call callee vs) m = [])
    (hbegins : (Moment.begins ⟨n + 1, .call callee vs, m⟩).deed? = none)
    (h : Performs V (callee.append? vs) m (call (n + 1) callee vs m)) :
    Replays V m.lists (chronicle (n + 1) (.call callee vs) m) (Value.Genuine V)
      (call (n + 1) callee vs m) := by
  have hlists : (Moment.begins ⟨n + 1, .call callee vs, m⟩).lists m.lists = m.lists := by
    rw [Moment.lists, hbegins]
    rfl
  obtain ⟨hgenuine, hvalue, haborts⟩ := h
  refine replays_activity (g := fun v => [v]) hm hcallee rfl ?_ (fun v m' hv => ?_)
    fun r m' hr => ?_
  · rw [hinside]
    exact trivial
  · rw [hv] at hgenuine
    obtain ⟨hv, hdone⟩ := hvalue v m' hv
    rw [hinside, hlists]
    refine ⟨hv, faithful_completes hgenuine hdone fun ref us hmake => ?_⟩
    obtain ⟨_, _, happend⟩ := Value.append?_eq_some hmake
    cases happend
  · rw [hr] at hgenuine
    rw [hinside, hlists]
    exact ⟨hgenuine, haborts r m' hr⟩

/-- The instance of a class is made when the call of the class begins. -/
theorem replays_allocate {c : Class} (hm : m.Genuine V) (hc : (Value.cls c).Genuine V) :
    Replays V ((Moment.begins ⟨n + 1, .call (.cls c) vs, m⟩).lists m.lists) [] (Value.Genuine V)
      (allocate c (if c.body.isVector then some #[] else none) m) := by
  cases hvector : c.body.isVector with
  | true =>
      have hmake : (Moment.begins ⟨n + 1, .call (.cls c) vs, m⟩).deed? =
          some (.make m.objects.size []) := if_pos hvector
      rw [Moment.lists, hmake]
      refine ⟨hm.push (genuine_new (fun _ => hc hvector) fun us hus v hv => ?_),
        lists_push_some m ⟨c, [], some #[]⟩ rfl, fun v m' hv => ?_, trivial⟩
      · cases hus
        exact absurd hv (Array.not_mem_empty v)
      · cases hv
        exact trivial
  | false =>
      have hmake : (Moment.begins ⟨n + 1, .call (.cls c) vs, m⟩).deed? = none :=
        if_neg (by rw [hvector]; exact Bool.noConfusion)
      rw [Moment.lists, hmake]
      refine ⟨hm.push (genuine_new (fun hne => absurd rfl hne) fun us hus => ?_),
        lists_push_none m ⟨c, [], none⟩ rfl, fun v m' hv => ?_, trivial⟩
      · cases hus
      · cases hv
        exact trivial

variable {bracket : Token} {es : List (Expr Slot)} {m₁ : Machine}

theorem eval_vector_ok (h : evalAll n es m = .ok vs m₁) :
    eval (n + 1) (.vector bracket es) m = allocate m₁.vectorClass (some vs.toArray) m₁ := by
  rw [eval]
  exact (bind_apply ..).trans (by rw [h])

theorem eval_vector_abort {r : Abort} (h : evalAll n es m = .abort r m₁) :
    eval (n + 1) (.vector bracket es) m = .abort r m₁ := by
  rw [eval]
  exact (bind_apply ..).trans (by rw [h])

/-- What is made when a literal completes has the values of its expressions. -/
theorem deed?_vector (h : evalAll n es m = .ok vs m₁) (ref : Nat) (m' : Machine) :
    (Moment.completes ⟨n + 1, .eval (.vector bracket es), m⟩ [.object ref] m').deed? =
      some (.make ref vs) := by
  rw [Moment.deed?, h]

/-- A literal makes a vector when its elements are known. -/
theorem replays_vector (hm : m.Genuine V)
    (h : Replays V m.lists (chronicle n (.evalAll es) m) (fun vs => ∀ v ∈ vs, v.Genuine V)
      (evalAll n es m)) :
    Replays V m.lists (chronicle (n + 1) (.eval (.vector bracket es)) m) (Value.Genuine V)
      (eval (n + 1) (.vector bracket es) m) := by
  obtain ⟨hgenuine, hlists, hvalue, hmoments⟩ := h
  refine replays_activity (g := fun v => [v]) hm trivial rfl hmoments (fun v m' hv => ?_)
    fun r m' hr => ?_
  · cases hes : evalAll n es m with
    | abort r m₁ =>
        rw [eval_vector_abort hes] at hv
        cases hv
    | ok vs m₁ =>
        rw [eval_vector_ok hes] at hv
        rw [hes] at hgenuine hlists
        cases hv
        refine ⟨trivial, faithful_completes ?genuine ?lists ?fresh⟩
        case genuine =>
          exact hgenuine.push (genuine_new (fun _ => hgenuine.vectorClass)
            (forall_mem_literal (hvalue vs m₁ hes)))
        case lists =>
          rw [Moment.lists, deed?_vector hes]
          refine (lists_push_some m₁ ⟨m₁.vectorClass, [], some vs.toArray⟩ rfl).trans ?_
          exact congrArg (VectorDeed.apply · _) hlists
        case fresh =>
          intro ref us hmake
          rw [deed?_vector hes] at hmake
          cases hmake
          exact (congrFun hlists m₁.objects.size).symm.trans (lists_size m₁)
  · cases hes : evalAll n es m with
    | abort r m₁ =>
        rw [eval_vector_abort hes] at hr
        rw [hes] at hgenuine hlists
        cases hr
        exact ⟨hgenuine, hlists⟩
    | ok vs m₁ =>
        rw [eval_vector_ok hes] at hr
        cases hr

end

/-! ## Activities in which nothing is done -/

/-- Nothing is done with vectors where the task begins, or where it completes. -/
structure Task.Idle (t : Task) : Prop where
  begins (n : Nat) (m : Machine) : (Moment.begins ⟨n + 1, t, m⟩).deed? = none
  completes (n : Nat) (m : Machine) (vs : List Value) (m' : Machine) :
    (Moment.completes ⟨n + 1, t, m⟩ vs m').deed? = none

theorem Task.idle_of_isRoutine {t : Task} (h : t.isRoutine = true) : t.Idle := by
  cases t with
  | eval e =>
      cases e with
      | vector bracket es => cases h
      | _ => exact ⟨fun _ _ => rfl, fun _ _ _ _ => rfl⟩
  | call f vs =>
      cases f with
      | native | nativeMethod | cls => cases h
      | _ => exact ⟨fun _ _ => rfl, fun _ _ _ _ => rfl⟩
  | _ => exact ⟨fun _ _ => rfl, fun _ _ _ _ => rfl⟩

theorem Task.idle_exec (s : Stmt Slot) : Task.Idle (.exec s) :=
  ⟨fun _ _ => rfl, fun _ _ _ _ => rfl⟩

theorem Task.Takes.genuine {t : Task} (h : t.Takes (Value.Genuine V)) : t.Genuine V := by
  cases t with
  | call f vs => exact h.1
  | _ => exact trivial

theorem Replays.idle {α : Type} {t : Task} {g : α → List Value} {Q : α → Prop} {x : Eval α}
    (h : Replays V m.lists (chronicleInside n (chronicle n) t m) Q (x m)) (ht : t.Idle)
    (hm : m.Genuine V) (hgenuine : t.Genuine V) (hperform : perform (n + 1) t m = (x m).map g) :
    Replays V m.lists (chronicle (n + 1) t m) Q (x m) := by
  refine Replays.self ?_ hm hgenuine hperform (ht.completes n m)
  rw [Moment.lists, ht.begins]
  exact h

/-- Nothing is left of a chronicle that ends with the lists it began with. -/
theorem Replays.beside {α : Type} {L : Lists} {l : List Moment} {Q : α → Prop} {r : Result α}
    (h : Replays V L [] Q r) (hl : FaithfulFrom V L l) (hlists : listsAfter L l = L) :
    Replays V L l Q r :=
  ⟨h.genuine, h.lists.trans hlists.symm, h.value, hl⟩

/-! ## The judgement -/

/-- That what is done with vectors are the deeds of the moments. -/
def faithfulness (V : Class) : Judgement where
  World := Unit
  Later _ _ := True
  Machine _ m := m.Genuine V
  Value _ v := v.Genuine V
  Begins _ _ t := t.Takes (Value.Genuine V)
  Plain t := t.Idle
  Step _ _ chr _ Q x m := Replays V m.lists (chr m) (Q ()) (x m)
  value_later _ hv := hv
  constant _ c := by cases c <;> exact trivial
  part _ ht := Task.takes_part ht
  callable _ hf hvs _ := ⟨hf, hvs⟩
  at_env hm _ := hm.at_env _
  congr h hx _ hchr := by rwa [hx, hchr]
  imp _ _ hQ h := ⟨h.genuine, h.lists, fun v m' hx => hQ () v trivial (h.value v m' hx), h.moments⟩
  stays hm hx hmeets := by
    refine steady_of_machine hx hm fun v m' hv => ?_
    rw [hv] at hmeets
    exact hmeets
  sequence _ h hf := h.bind fun b m₁ hm₁ hb => hf b m₁ () trivial hm₁ (fun _ => id) hb
  within _ h := h.within
  reporting h := h.reporting
  self hplain hm ht hperform _ h := h.idle hplain hm ht.genuine hperform
  spent _ hm ht _ := replays_spent hm ht.genuine rfl
  lookUp name slot hm := steady_lookUp hm name slot
  getProperty _ _ name hm hv := steady_getProperty hm name hv
  setField ref name _ hm hv := steady_setField hm ref name hv
  superMethod _ _ method slot hm _ := steady_superMethod hm method slot
  callEnv _ _ c _ hm h := steady_callEnv hm c h.2
  receiver E hm := steady_getAt hm E 0 thisName
  setLastValue hm _ := steady_setLastValue hm _
  block _ _ hm _ := steady_block hm _

/-! ## Activities of their own -/

/-- Looking a superclass up is like reading a variable. -/
theorem superclass_replays {superclass : Option (Reference Slot)} {name : Token}
    {methods : List (FunDecl Slot)}
    (h : ∀ r ∈ superclass, Replays V m.lists (chronicle n (.eval (.var r.name r.slot)) m)
      (Value.Genuine V) (eval n (.var r.name r.slot) m)) :
    let l := chronicleInside n (chronicle n) (.exec (.classDecl name superclass methods)) m
    FaithfulFrom V m.lists l ∧ listsAfter m.lists l = m.lists := by
  cases superclass with
  | none => exact ⟨trivial, rfl⟩
  | some r =>
      have hmachine := eval_var_machine n r.name r.slot m
      obtain ⟨_, hlists, _, hmoments⟩ := h r rfl
      rw [hmachine] at hlists
      exact ⟨hmoments, hlists.symm⟩

theorem replays_construct {c : Class} {vs : List Value} (hm : m.Genuine V)
    (hc : (Value.cls c).Genuine V)
    (hcalls : ∀ {m f}, m.Genuine V → f.Genuine V →
      Replays V m.lists (chronicle n (.call f vs) m) (Value.Genuine V) (call n f vs m)) :
    Replays V m.lists (chronicle (n + 1) (.call (.cls c) vs) m) (Value.Genuine V)
      (call (n + 1) (.cls c) vs m) := by
  refine Replays.self (g := fun v => [v]) ?_ hm hc rfl fun _ _ => rfl
  rw [call, chronicleInside]
  refine (replays_allocate hm hc).after fun o m₁ hm₁ ho => ?_
  cases c.findMethod? initializerName with
  | none => exact steady_pure hm₁ ho
  | some method =>
      refine (steady_bindMethod hm₁ method ho).after fun initializer m₂ hm₂ hf => ?_
      exact (hcalls hm₂ hf).map fun _ m₃ hm₃ _ => steady_pure hm₃ ho

theorem steady_function (hm : m.Genuine V) (f : FunDecl Slot) (E : Env) :
    Steady V anything
      (freshId >>= fun id => define f.name.lexeme (.function id ⟨f, E, false⟩)) m :=
  (steady_freshId hm).map fun _ _ hm₁ _ => steady_define hm₁ f.name.lexeme trivial

/-- What the evaluator does with vectors are the deeds of its moments. -/
def replaying (V : Class) : Preservation where
  toJudgement := faithfulness V
  routine := Task.idle_of_isRoutine
  assign := Judgement.assigns ⟨fun _ _ => rfl, fun _ _ _ _ => rfl⟩
    fun hm _ hv => steady_assign hm _ _ hv
  vector hm _ hes := replays_vector hm hes
  native {w m n id f vs} hm h := by
    refine replays_native hm h.1 rfl rfl ?_
    rw [call]
    exact performs_runFunction hm f h.2
  nativeMethod {w m n id f receiver vs} hm h := by
    refine replays_native hm h.1 rfl rfl ?_
    rw [call]
    exact performs_runMethod hm f (show receiver.Genuine V from h.1) h.2
  construct hm h hcalls := replays_construct hm h.1 fun hm₁ hf => @hcalls () _ _ hm₁ ⟨hf, h.2⟩
  print := Judgement.prints (Task.idle_exec _) fun text hm => steady_print hm text
  varDecl := Judgement.declares (Task.idle_exec _) trivial fun hm _ hv => steady_define hm _ hv
  function hm h := Judgement.declaresFunction (Task.idle_exec _) hm h (steady_function hm _ _)
  classDecl {w m n name superclass methods} hm h hsuper := by
    obtain ⟨hmoments, hlists⟩ := superclass_replays hsuper
    exact Judgement.declaresClass (Task.idle_exec _) hm h
      ((steady_declareClass hm name superclass methods).beside hmoments hlists)

end Lox
