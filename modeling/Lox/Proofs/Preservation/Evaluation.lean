import Lox.Proofs.Preservation.Judgements

/-!
# A judgement about steps holds of whole runs

The recursion of the evaluator is gone through once, by induction on the budget and with a case
for each form of tree. What a judgement has to say of its own about the activities that write a
variable, make an instance, call a native function or print is added to it here. All other
activities only put together what is inside of them.
-/

namespace Lox

open Eval

/-- A judgement that also says what the activities do that are more than their parts. -/
structure Preservation extends Judgement where
  routine {t : Task} : t.isRoutine = true → Plain t
  assign {w : World} {m : Lox.Machine} {n : Nat} {name : Token} {slot : Slot}
    {value : Expr Slot} :
    Machine w m → Begins w m.env (.eval (.assign name slot value)) →
      toJudgement.Evaluates w n value m →
      toJudgement.Evaluates w (n + 1) (.assign name slot value) m
  vector {w : World} {m : Lox.Machine} {n : Nat} {bracket : Token} {es : List (Expr Slot)} :
    Machine w m → Begins w m.env (.eval (.vector bracket es)) →
      toJudgement.EvaluatesAll w n es m → toJudgement.Evaluates w (n + 1) (.vector bracket es) m
  native {w : World} {m : Lox.Machine} {n id : Nat} {f : Native} {vs : List Lox.Value} :
    Machine w m → Begins w m.env (.call (.native id f) vs) →
      toJudgement.Calls w (n + 1) (.native id f) vs m
  nativeMethod {w : World} {m : Lox.Machine} {n id : Nat} {f : Native} {receiver : Lox.Value}
    {vs : List Lox.Value} :
    Machine w m → Begins w m.env (.call (.nativeMethod id f receiver) vs) →
      toJudgement.Calls w (n + 1) (.nativeMethod id f receiver) vs m
  construct {w : World} {m : Lox.Machine} {n : Nat} {c : Class} {vs : List Lox.Value} :
    Machine w m → Begins w m.env (.call (.cls c) vs) →
      (∀ {w₁ m₁ f}, Machine w₁ m₁ → Begins w₁ m₁.env (.call f vs) →
        toJudgement.Calls w₁ n f vs m₁) →
      toJudgement.Calls w (n + 1) (.cls c) vs m
  print {w : World} {m : Lox.Machine} {n : Nat} {e : Expr Slot} :
    Machine w m → Begins w m.env (.exec (.print e)) → toJudgement.Evaluates w n e m →
      toJudgement.Executes w (n + 1) (.print e) m
  varDecl {w : World} {m : Lox.Machine} {n : Nat} {name : Token}
    {initializer : Option (Expr Slot)} :
    Machine w m → Begins w m.env (.exec (.varDecl name initializer)) →
      (∀ e ∈ initializer, toJudgement.Evaluates w n e m) →
      toJudgement.Executes w (n + 1) (.varDecl name initializer) m
  function {w : World} {m : Lox.Machine} {n : Nat} {f : FunDecl Slot} :
    Machine w m → Begins w m.env (.exec (.function f)) →
      toJudgement.Executes w (n + 1) (.function f) m
  /-- Looking up the superclass is an activity inside. -/
  classDecl {w : World} {m : Lox.Machine} {n : Nat} {name : Token}
    {superclass : Option (Reference Slot)} {methods : List (FunDecl Slot)} :
    Machine w m → Begins w m.env (.exec (.classDecl name superclass methods)) →
      (∀ r ∈ superclass, toJudgement.Evaluates w n (.var r.name r.slot) m) →
      toJudgement.Executes w (n + 1) (.classDecl name superclass methods) m

namespace Preservation

/-- The judgement holds of everything the evaluator does with a budget of `n`. -/
structure Holds (P : Preservation) (n : Nat) : Prop where
  eval : ∀ {w m e}, P.Machine w m → P.Begins w m.env (.eval e) → P.Evaluates w n e m
  evalAll : ∀ {w m es}, P.Machine w m → P.Begins w m.env (.evalAll es) → P.EvaluatesAll w n es m
  call : ∀ {w m f vs}, P.Machine w m → P.Begins w m.env (.call f vs) → P.Calls w n f vs m
  exec : ∀ {w m s}, P.Machine w m → P.Begins w m.env (.exec s) → P.Executes w n s m
  execAll : ∀ {w m ss}, P.Machine w m → P.Begins w m.env (.execAll ss) →
    P.Step w (visits n (.execAll ss)) (chronicle n (.execAll ss)) Abort.Passes P.Completion
      (execAll n ss) m
  loop : ∀ {w m c s}, P.Machine w m → P.Begins w m.env (.loop c s) →
    P.Step w (visits n (.loop c s)) (chronicle n (.loop c s)) Abort.Passes P.Completion
      (loop n c s) m
  execUnit : ∀ {w m ss}, P.Machine w m → P.Begins w m.env (.unit ss) →
    P.Step w (visits n (.unit ss)) (chronicle n (.unit ss)) Abort.Passes (fun _ _ => True)
      (execUnit n ss) m

variable {P : Preservation} {w : P.World} {m : Lox.Machine} {n : Nat}

section

variable (ih : P.Holds n)

include ih

/-! ## Expressions -/

theorem eval_holds {e : Expr Slot} (hm : P.Machine w m) (h : P.Begins w m.env (.eval e)) :
    P.Evaluates w (n + 1) e m := by
  cases e with
  | assign name slot value => exact P.assign hm h (ih.eval hm (P.part h (.head _)))
  | vector bracket es => exact P.vector hm h (ih.evalAll hm (P.part h (.head _)))
  | literal value =>
      refine P.expression (P.routine rfl) hm h ?_
      rw [eval]
      exact P.pure hm (P.constant w value)
  | var name slot =>
      refine P.expression (P.routine rfl) hm h ?_
      rw [eval]
      exact P.lookUp name slot hm
  | thisRef keyword slot =>
      refine P.expression (P.routine rfl) hm h ?_
      rw [eval]
      exact P.lookUp keyword slot hm
  | superRef keyword method slot =>
      refine P.expression (P.routine rfl) hm h ?_
      rw [eval]
      exact P.superMethod n hm h
  | grouping a =>
      refine P.expression (P.routine rfl) hm h ?_
      rw [eval]
      exact ih.eval hm (P.part h (.head _))
  | unary operator a =>
      refine P.expression (P.routine rfl) hm h ?_
      rw [eval]
      exact P.map hm (ih.eval hm (P.part h (.head _))) fun v m₁ w₁ h₁ _ =>
        P.unaryOp operator v h₁.machine
  | binary a operator b =>
      refine P.expression (P.routine rfl) hm h ?_
      rw [eval]
      refine P.andThen hm (ih.eval hm (P.part h (.head _))) fun u m₁ w₁ h₁ _ => ?_
      have hb := h₁.begins _ (P.part h (.tail _ (.head _)))
      exact P.map h₁.machine (ih.eval h₁.machine hb) fun v m₂ w₂ h₂ _ =>
        P.binaryOp operator u v h₂.machine
  | logical a operator b =>
      refine P.expression (P.routine rfl) hm h ?_
      rw [eval]
      refine P.andThen hm (ih.eval hm (P.part h (.head _))) fun u m₁ w₁ h₁ hu => ?_
      have hb := h₁.begins _ (P.part h (.tail _ (.head _)))
      by_cases hs : settles operator u = true
      · rw [if_pos hs]
        exact P.not_given (by rw [hs]; exact Bool.noConfusion) (P.pure h₁.machine hu)
      · rw [if_neg hs]
        exact P.given (Bool.eq_false_iff.mpr hs) (ih.eval h₁.machine hb)
  | conditional c a b =>
      refine P.expression (P.routine rfl) hm h ?_
      rw [eval]
      refine P.andThen hm (ih.eval hm (P.part h (.head _))) fun u m₁ w₁ h₁ _ => ?_
      by_cases hu : u.truthy = true
      · simp only [if_pos hu]
        exact ih.eval h₁.machine (h₁.begins _ (P.part h (.tail _ (.head _))))
      · simp only [if_neg hu]
        exact ih.eval h₁.machine (h₁.begins _ (P.part h (.tail _ (.tail _ (.head _)))))
  | call callee paren arguments =>
      refine P.expression (P.routine rfl) hm h ?_
      rw [eval]
      refine P.andThen hm (ih.eval hm (P.part h (.head _))) fun f m₁ w₁ h₁ hf => ?_
      have harguments := h₁.begins _ (P.part h (.tail _ (.head _)))
      refine P.andThen h₁.machine (ih.evalAll h₁.machine harguments) fun vs m₂ w₂ h₂ hvs => ?_
      by_cases harity : f.arity? = some vs.length
      · have hcall := P.callable h₂.machine (P.value_later h₂.later hf) hvs harity
        have hstep := P.reporting (t := paren) (ih.call h₂.machine hcall)
        refine P.given harity (P.congr hstep ?_ rfl rfl)
        rw [bind_apply, Comparison.checkCall_ok harity]
      · exact P.not_given harity (P.refuses harity paren _ h₂.machine)
  | get a name =>
      refine P.expression (P.routine rfl) hm h ?_
      rw [eval]
      exact P.finds hm (ih.eval hm (P.part h (.head _))) fun v m₁ w₁ h₁ hv =>
        P.getProperty n name h₁.machine hv
  | set a name b =>
      refine P.expression (P.routine rfl) hm h ?_
      rw [eval]
      refine P.andThen hm (ih.eval hm (P.part h (.head _))) fun o m₁ w₁ h₁ _ => ?_
      refine P.after h₁.machine (P.fieldOwner o name h₁.machine) fun ref m₂ w₂ h₂ _ => ?_
      have hb := h₂.begins _ (h₁.begins _ (P.part h (.tail _ (.head _))))
      refine P.map h₂.machine (ih.eval h₂.machine hb) fun v m₃ w₃ h₃ hv => ?_
      exact P.map h₃.machine (P.setField ref name.lexeme h₃.machine hv) fun _ m₄ w₄ h₄ _ =>
        P.pure h₄.machine (P.value_later h₄.later hv)

theorem evalAll_holds {es : List (Expr Slot)} (hm : P.Machine w m)
    (h : P.Begins w m.env (.evalAll es)) : P.EvaluatesAll w (n + 1) es m := by
  refine P.self (g := id) (P.routine rfl) hm h (Result.map_id _).symm (fun _ _ => id) ?_
  cases es with
  | nil =>
      rw [evalAll]
      exact P.pure hm fun _ hv => absurd hv List.not_mem_nil
  | cons e rest =>
      rw [evalAll]
      refine P.andThen hm (ih.eval hm (P.part h (.head _))) fun v m₁ w₁ h₁ hv => ?_
      have hrest := h₁.begins _ (P.part h (.tail _ (.head _)))
      refine P.map h₁.machine (ih.evalAll h₁.machine hrest) fun vs m₂ w₂ h₂ hvs => ?_
      exact P.pure h₂.machine (List.forall_mem_cons.mpr ⟨P.value_later h₂.later hv, hvs⟩)

/-! ## Calls -/

theorem call_holds {f : Value} {vs : List Value} (hm : P.Machine w m)
    (h : P.Begins w m.env (.call f vs)) : P.Calls w (n + 1) f vs m := by
  cases f with
  | native id f => exact P.native hm h
  | nativeMethod id f receiver => exact P.nativeMethod hm h
  | cls c => exact P.construct hm h ih.call
  | function id c =>
      refine P.application (P.routine rfl) hm h ?_
      rw [call]
      refine P.opens hm (P.callEnv n hm h) fun E m₁ w₁ h₁ hE => ?_
      -- a body is aborted for fewer reasons than a call
      have hbody := P.imp (P.at_env h₁.machine hE) (fun _ => Abort.Passes.leavesCall)
        (fun _ _ _ hk => hk) (ih.execAll (P.at_env h₁.machine hE) hE)
      exact P.map h₁.machine (P.within h₁.machine hbody) fun k m₂ w₂ h₂ hk =>
        P.callValue c h₂.machine hk
  | nil | bool | number | text | object | unassigned =>
      exact P.application (P.routine rfl) hm h (P.pure hm (P.constant w .nil))

/-! ## Statements -/

omit ih in
/-- Nothing is returned. -/
theorem completion_normal : P.Completion w .normal :=
  fun _ hv => absurd hv List.not_mem_nil

omit ih in
theorem completion_returned {v : Value} (hv : P.Value w v) : P.Completion w (.returned v) :=
  fun _ hu => List.mem_singleton.mp hu ▸ hv

theorem exec_holds {s : Stmt Slot} (hm : P.Machine w m) (h : P.Begins w m.env (.exec s)) :
    P.Executes w (n + 1) s m := by
  cases s with
  | print e => exact P.print hm h (ih.eval hm (P.part h (.head _)))
  | varDecl name initializer =>
      refine P.varDecl hm h fun e he => ih.eval hm (P.part h ?_)
      exact List.mem_map_of_mem (Option.mem_toList.mpr he)
  | function f => exact P.function hm h
  | classDecl name superclass methods =>
      refine P.classDecl hm h fun r hr => ih.eval hm (P.part h ?_)
      exact List.mem_map_of_mem (f := fun r => Task.eval (.var r.name r.slot))
        (Option.mem_toList.mpr hr)
  | expression e =>
      refine P.statement (P.routine rfl) hm h ?_
      rw [exec]
      exact P.map hm (ih.eval hm (P.part h (.head _))) fun v m₁ w₁ h₁ hv =>
        P.normally h₁.machine (P.setLastValue h₁.machine hv)
  | block body =>
      refine P.statement (P.routine rfl) hm h ?_
      rw [exec]
      have hbody := P.opens hm (P.block n hm h) (f := fun E => within E (execAll n body))
        fun E m₁ w₁ h₁ hE => P.within h₁.machine (ih.execAll (P.at_env h₁.machine hE) hE)
      exact P.congr hbody rfl (Visits.after_of_ok rfl _) rfl
  | ifThen c a =>
      refine P.statement (P.routine rfl) hm h ?_
      rw [exec]
      refine P.andThen hm (ih.eval hm (P.part h (.head _))) fun v m₁ w₁ h₁ _ => ?_
      by_cases hv : v.truthy = true
      · rw [if_pos hv]
        have ha := h₁.begins _ (P.part h (.tail _ (.head _)))
        exact P.given hv (ih.exec h₁.machine ha)
      · rw [if_neg hv]
        exact P.not_given hv (P.pure h₁.machine completion_normal)
  | ifElse c a b =>
      refine P.statement (P.routine rfl) hm h ?_
      rw [exec]
      refine P.andThen hm (ih.eval hm (P.part h (.head _))) fun v m₁ w₁ h₁ _ => ?_
      by_cases hv : v.truthy = true
      · simp only [if_pos hv]
        exact ih.exec h₁.machine (h₁.begins _ (P.part h (.tail _ (.head _))))
      · simp only [if_neg hv]
        exact ih.exec h₁.machine (h₁.begins _ (P.part h (.tail _ (.tail _ (.head _)))))
  | whileLoop c a =>
      refine P.statement (P.routine rfl) hm h ?_
      rw [exec]
      exact ih.loop hm (P.part h (.head _))
  | ret keyword value =>
      refine P.statement (P.routine rfl) hm h ?_
      cases value with
      | none =>
          rw [exec]
          exact P.pure hm (completion_returned (P.constant w .nil))
      | some e =>
          rw [exec]
          exact P.map hm (ih.eval hm (P.part h (.head _))) fun v m₁ w₁ h₁ hv =>
            P.pure h₁.machine (completion_returned hv)

theorem execAll_holds {ss : List (Stmt Slot)} (hm : P.Machine w m)
    (h : P.Begins w m.env (.execAll ss)) :
    P.Step w (visits (n + 1) (.execAll ss)) (chronicle (n + 1) (.execAll ss)) Abort.Passes
      P.Completion (execAll (n + 1) ss) m := by
  refine P.self (g := Completion.values) (P.routine rfl) hm h rfl (fun _ _ hk => hk) ?_
  cases ss with
  | nil =>
      rw [execAll]
      exact P.pure hm completion_normal
  | cons s rest =>
      rw [execAll]
      refine P.andThen hm (ih.exec hm (P.part h (.head _))) fun k m₁ w₁ h₁ hk => ?_
      cases k with
      | normal => exact ih.execAll h₁.machine (h₁.begins _ (P.part h (.tail _ (.head _))))
      | returned v => exact P.pure h₁.machine hk

theorem loop_holds {c : Expr Slot} {s : Stmt Slot} (hm : P.Machine w m)
    (h : P.Begins w m.env (.loop c s)) :
    P.Step w (visits (n + 1) (.loop c s)) (chronicle (n + 1) (.loop c s)) Abort.Passes
      P.Completion (loop (n + 1) c s) m := by
  refine P.self (g := Completion.values) (P.routine rfl) hm h rfl (fun _ _ hk => hk) ?_
  rw [loop]
  refine P.andThen hm (ih.eval hm (P.part h (.head _))) fun v m₁ w₁ h₁ _ => ?_
  by_cases hv : v.truthy = true
  · rw [if_pos hv]
    have hs := h₁.begins _ (P.part h (.tail _ (.head _)))
    refine P.given hv (P.andThen h₁.machine (ih.exec h₁.machine hs) fun k m₂ w₂ h₂ hk => ?_)
    cases k with
    | normal => exact ih.loop h₂.machine (h₂.begins _ (h₁.begins _ h))
    | returned v => exact P.pure h₂.machine hk
  · rw [if_neg hv]
    exact P.not_given hv (P.pure h₁.machine completion_normal)

theorem execUnit_holds {ss : List (Stmt Slot)} (hm : P.Machine w m)
    (h : P.Begins w m.env (.unit ss)) :
    P.Step w (visits (n + 1) (.unit ss)) (chronicle (n + 1) (.unit ss)) Abort.Passes
      (fun _ _ => True) (execUnit (n + 1) ss) m := by
  refine P.self (g := fun _ => []) (P.routine rfl) hm h rfl
    (fun _ _ _ _ hu => absurd hu List.not_mem_nil) ?_
  cases ss with
  | nil =>
      rw [execUnit]
      exact P.pure hm trivial
  | cons s rest =>
      rw [execUnit]
      exact P.andThen hm (ih.exec hm (P.part h (.head _))) fun k m₁ w₁ h₁ _ =>
        ih.execUnit h₁.machine (h₁.begins _ (P.part h (.tail _ (.head _))))

end

/-- A judgement about steps holds of everything the evaluator does, whatever the budget. -/
theorem holds (P : Preservation) (n : Nat) : P.Holds n := by
  induction n with
  | zero =>
      constructor
      · intro w m e hm h
        rw [Judgement.Evaluates, eval_zero]
        exact P.spent rfl hm h trivial
      · intro w m es hm h
        rw [Judgement.EvaluatesAll, evalAll]
        exact P.spent rfl hm h trivial
      · intro w m f vs hm h
        rw [Judgement.Calls, call]
        exact P.spent rfl hm h trivial
      · intro w m s hm h
        rw [Judgement.Executes, exec_zero]
        exact P.spent rfl hm h trivial
      · intro w m ss hm h
        rw [execAll]
        exact P.spent rfl hm h trivial
      · intro w m c s hm h
        rw [loop]
        exact P.spent rfl hm h trivial
      · intro w m ss hm h
        rw [execUnit]
        exact P.spent rfl hm h trivial
  | succ n ih =>
      exact
        { eval := eval_holds ih
          evalAll := evalAll_holds ih
          call := call_holds ih
          exec := exec_holds ih
          execAll := execAll_holds ih
          loop := loop_holds ih
          execUnit := execUnit_holds ih }

end Preservation

end Lox
