import Lox.Proofs.Mapping
import Lox.Proofs.Simulation.Evaluation
import Lox.Proofs.Simulation.Reporting

/-!
# Errors are reported at the same tokens

Runs that simulate each other end with the same kind of error, and a comparison says
nothing about the token that it is reported at, since that may stand elsewhere or have
another name. If both run the same text, which differs in nothing but its slots, then the
token is the same too. What has to be known of the comparison is that it relates functions
only if they have the same text.
-/

namespace Lox

/-! ## The same text -/

/-- The expressions are the same but for their slots. -/
def Expr.SameText (e e' : Expr Slot) : Prop :=
  e.map id (fun _ => ()) = e'.map id fun _ => ()

def Expr.SameTextAll (es es' : List (Expr Slot)) : Prop :=
  Expr.mapAll id (fun _ => ()) es = Expr.mapAll id (fun _ => ()) es'

/-- The statements are the same but for their slots. -/
def Stmt.SameText (s s' : Stmt Slot) : Prop :=
  ∃ n, s.map id (fun _ _ => ()) n = s'.map id (fun _ _ => ()) n

def Stmt.SameTextAll (ss ss' : List (Stmt Slot)) : Prop :=
  ∃ n, Stmt.mapAll id (fun _ _ => ()) n ss = Stmt.mapAll id (fun _ _ => ()) n ss'

/-- The functions are the same but for their slots. -/
def FunDecl.SameText (d d' : FunDecl Slot) : Prop :=
  ∃ n, d.map id (fun _ _ => ()) n = d'.map id (fun _ _ => ()) n

theorem FunDecl.SameText.body {d d' : FunDecl Slot} (h : d.SameText d') :
    Stmt.SameTextAll d.body d'.body := by
  obtain ⟨n, h⟩ := h
  cases d
  cases d'
  exact ⟨n + 1, (FunDecl.mk.inj h).2.2⟩

/-- Related functions have the same text. -/
def Comparison.KeepsText (C : Comparison) : Prop :=
  ∀ {p q : C.Spot} {f f' : FunDecl Slot}, C.Opens p (.call f) (.call f') q → f.SameText f'

namespace Comparison

open Eval

/-! ## Two steps -/

/-- If errors of the program end both steps, they are reported at the same token. -/
def ReportsAlike {α : Type} (x y : Eval α) (m m' : Machine) : Prop :=
  ∀ e e' m₁ m₁', x m = .abort (.error e) m₁ → y m' = .abort (.error e') m₁' →
    e.token = e'.token

variable {C : Comparison} {α β : Type} {w : C.World} {m m' : Machine} {vis : Visits}
  {R : C.World → α → α → Prop} {x y : Eval α} {n : Nat} {p q : C.Spot}

/-- A step without errors of the program. -/
theorem reportsAlike_of_none (h : x.ReportsIn fun _ => False) : ReportsAlike x y m m' :=
  fun e _ m₁ _ heq _ => (h m e m₁ heq).elim

/-- Steps that report their errors at one token. -/
theorem reportsAlike_of_at (t : Token) (h : x.ReportsIn (· = t)) (h' : y.ReportsIn (· = t)) :
    ReportsAlike x y m m' :=
  fun e e' m₁ m₁' heq heq' => (h m e m₁ heq).trans (h' m' e' m₁' heq').symm

/-- One step after another. Whether the first ones end with an error is the same for both. -/
theorem ReportsAlike.bind_of {S : β → β → Prop} {E E' : Lox.Env} {u v : Eval β}
    {f g : β → Eval α} (h : ReportsAlike u v m m') (hr : C.ResultRel w E E' S (u m) (v m'))
    (hnext : ∀ b b' m₁ m₁', u m = .ok b m₁ → v m' = .ok b' m₁' →
      ReportsAlike (f b) (g b') m₁ m₁') : ReportsAlike (u >>= f) (v >>= g) m m' := by
  intro e e' m₂ m₂' heq heq'
  rw [bind_apply] at heq heq'
  cases hu : u m with
  | ok b m₁ =>
      cases hv : v m' with
      | ok b' m₁' =>
          rw [hu] at heq
          rw [hv] at heq'
          exact hnext b b' m₁ m₁' hu hv e e' m₂ m₂' heq heq'
      | abort r' m₁' =>
          rw [hu, hv] at hr
          exact hr.elim
  | abort r m₁ =>
      cases hv : v m' with
      | ok b' m₁' =>
          rw [hu, hv] at hr
          exact hr.elim
      | abort r' m₁' =>
          rw [hu] at heq
          rw [hv] at heq'
          cases heq
          cases heq'
          exact h e e' m₂ m₂' hu hv

theorem ReportsAlike.bind {P : C.World → β → β → Prop} {u v : Eval β} {f g : β → Eval α}
    (hsim : C.Simulates w P vis u v m m') (h : ReportsAlike u v m m')
    (hnext : ∀ w₁ m₁ m₁' b b', C.Left w m m' w₁ m₁ m₁' → u m = .ok b m₁ → P w₁ b b' →
      ReportsAlike (f b) (g b') m₁ m₁') : ReportsAlike (u >>= f) (v >>= g) m m' := by
  obtain ⟨w₁, hw, hr, _, _⟩ := hsim
  refine h.bind_of hr fun b b' m₁ m₁' hu hv => ?_
  rw [hu, hv] at hr
  exact hnext w₁ m₁ m₁' b b' ⟨hw, hr.2.2.1, hr.1, hr.2.1⟩ hu hr.2.2.2

theorem ReportsAlike.within {E E' : Lox.Env}
    (h : ReportsAlike x y { m with env := E } { m' with env := E' }) :
    ReportsAlike (Eval.within E x) (Eval.within E' y) m m' := by
  intro e e' m₁ m₁' heq heq'
  rw [Eval.within] at heq heq'
  cases hx : x { m with env := E } with
  | ok a m₂ =>
      rw [hx] at heq
      cases heq
  | abort r m₂ =>
      cases hy : y { m' with env := E' } with
      | ok a m₂' =>
          rw [hy] at heq'
          cases heq'
      | abort r' m₂' =>
          rw [hx] at heq
          rw [hy] at heq'
          cases heq
          cases heq'
          exact h e e' m₂ m₂' hx hy

/-- The failure of a native function is reported at the call, and in the other run it is
the failure of the same function. -/
theorem ReportsAlike.reporting (hsim : C.Simulates w R vis x y m m')
    (h : ReportsAlike x y m m') (t : Token) :
    ReportsAlike (Eval.reporting t x) (Eval.reporting t y) m m' := by
  obtain ⟨w₁, hw, hr, _, _⟩ := hsim
  intro e e' m₁ m₁' heq heq'
  rw [Eval.reporting] at heq heq'
  cases hx : x m with
  | ok a m₂ =>
      rw [hx] at heq
      cases heq
  | abort r m₂ =>
      cases hy : y m' with
      | ok a m₂' =>
          rw [hy] at heq'
          cases heq'
      | abort r' m₂' =>
          rw [hx, hy] at hr
          rw [hx] at heq
          rw [hy] at heq'
          obtain ⟨_, _, _, ha⟩ := hr
          cases ha with
          | error =>
              cases heq
              cases heq'
              exact h _ _ m₁ m₁' hx hy
          | failure =>
              cases heq
              cases heq'
              rfl
          | misplaced | fault | spent => cases heq

/-! ## Evaluation -/

/-- Everything the evaluator does with a budget of `n` reports errors alike, if the text is
the same. -/
structure ReportsAll (C : Comparison) (n : Nat) : Prop where
  eval : ∀ {w m m' p e e'}, C.ExprRel p e e' → e.SameText e' → C.Env w p m.env m'.env →
    C.MachineRel w m m' → ReportsAlike (eval n e) (eval n e') m m'
  evalAll : ∀ {w m m' p es es'}, C.ExprsRel p es es' → Expr.SameTextAll es es' →
    C.Env w p m.env m'.env → C.MachineRel w m m' →
    ReportsAlike (evalAll n es) (evalAll n es') m m'
  call : ∀ {w m m' v v' vs vs'}, C.ValueRel w v v' → C.ValuesRel w vs vs' →
    v.arity? = some vs.length → C.MachineRel w m m' →
    ReportsAlike (Eval.call n v vs) (Eval.call n v' vs') m m'
  exec : ∀ {w m m' p q s s'}, C.StmtRel p s s' q → s.SameText s' → C.Env w p m.env m'.env →
    C.MachineRel w m m' → ReportsAlike (exec n s) (exec n s') m m'
  execAll : ∀ {w m m' p ss ss'}, C.StmtsRel p ss ss' → Stmt.SameTextAll ss ss' →
    C.Env w p m.env m'.env → C.MachineRel w m m' →
    ReportsAlike (execAll n ss) (execAll n ss') m m'
  loop : ∀ {w m m' p c c' s s'}, C.ExprRel p c c' → c.SameText c' → C.StmtRel p s s' p →
    s.SameText s' → C.Env w p m.env m'.env → C.MachineRel w m m' →
    ReportsAlike (loop n c s) (loop n c' s') m m'

theorem eval_reports (ih : C.ReportsAll n) {e e' : Expr Slot} (h : C.ExprRel p e e')
    (ht : e.SameText e') (he : C.Env w p m.env m'.env) (hm : C.MachineRel w m m') :
    ReportsAlike (eval (n + 1) e) (eval (n + 1) e') m m' := by
  have hsim := C.agrees n
  cases h with
  | literal =>
      rw [eval]
      exact reportsAlike_of_none (reportsIn_pure _)
  | @unary operator operator' _ _ ho ha =>
      obtain ⟨hoperator, hta⟩ := Expr.unary.inj ht
      cases (show operator = operator' from hoperator)
      rw [eval, eval]
      exact .bind (hsim.eval ha he hm) (ih.eval ha hta he hm) fun _ _ _ _ _ _ _ _ =>
        reportsAlike_of_at operator (reportsIn_unaryOp _ rfl) (reportsIn_unaryOp _ rfl)
  | @binary operator operator' _ _ _ _ ho ha hb =>
      obtain ⟨hta, hoperator, htb⟩ := Expr.binary.inj ht
      cases (show operator = operator' from hoperator)
      rw [eval, eval]
      refine .bind (hsim.eval ha he hm) (ih.eval ha hta he hm) fun w₁ m₁ m₁' _ _ hl _ _ => ?_
      exact .bind (hsim.eval hb (hl.spot he) hl.machine) (ih.eval hb htb (hl.spot he) hl.machine)
        fun _ _ _ _ _ _ _ _ =>
          reportsAlike_of_at operator (reportsIn_binaryOp _ _ rfl) (reportsIn_binaryOp _ _ rfl)
  | logical ho ha hb =>
      obtain ⟨hta, -, htb⟩ := Expr.logical.inj ht
      rw [eval, eval]
      refine .bind (hsim.eval ha he hm) (ih.eval ha hta he hm) fun w₁ m₁ m₁' v v' hl _ hv => ?_
      rw [← settles_eq ho hv]
      split
      · exact reportsAlike_of_none (reportsIn_pure _)
      · exact ih.eval hb htb (hl.spot he) hl.machine
  | conditional hc ha hb =>
      obtain ⟨htc, hta, htb⟩ := Expr.conditional.inj ht
      rw [eval, eval]
      refine .bind (hsim.eval hc he hm) (ih.eval hc htc he hm) fun w₁ m₁ m₁' v v' hl _ hv => ?_
      rw [← hv.truthy]
      split
      · exact ih.eval ha hta (hl.spot he) hl.machine
      · exact ih.eval hb htb (hl.spot he) hl.machine
  | grouping ha =>
      rw [eval, eval]
      exact ih.eval ha (Expr.grouping.inj ht) he hm
  | @var name name' _ _ hr =>
      obtain ⟨hname, -⟩ := Expr.var.inj ht
      cases (show name = name' from hname)
      rw [eval, eval]
      exact reportsAlike_of_at name (reportsIn_lookUp _ rfl) (reportsIn_lookUp _ rfl)
  | @assign name name' _ _ _ _ hr ha =>
      obtain ⟨hname, -, hta⟩ := Expr.assign.inj ht
      cases (show name = name' from hname)
      rw [eval, eval]
      refine .bind (hsim.eval ha he hm) (ih.eval ha hta he hm) fun _ _ _ _ _ _ _ _ => ?_
      have hassign : ∀ slot v, ReportsIn (· = name) (assign name slot v >>= fun _ => pure v) :=
        fun slot v => ReportsIn.bind (reportsIn_assign slot v rfl) fun _ => reportsIn_pure v
      exact reportsAlike_of_at name (hassign _ _) (hassign _ _)
  | @call paren paren' _ _ _ _ hf ha =>
      obtain ⟨htf, hparen, hta⟩ := Expr.call.inj ht
      cases (show paren = paren' from hparen)
      rw [eval, eval]
      refine .bind (hsim.eval hf he hm) (ih.eval hf htf he hm) fun w₁ m₁ m₁' f f' hl₁ _ hf => ?_
      refine .bind (hsim.evalAll ha (hl₁.spot he) hl₁.machine)
        (ih.evalAll ha hta (hl₁.spot he) hl₁.machine) fun w₂ m₂ m₂' vs vs' hl₂ _ hvs => ?_
      have hf₂ := hf.later hl₂.later
      rw [← hvs.length_eq]
      refine .bind (v := checkCall f' vs.length paren) (checkCall_simulates hl₂.machine hf₂)
        (reportsAlike_of_at paren (reportsIn_checkCall _ _ rfl) (reportsIn_checkCall _ _ rfl))
        fun w₃ m₃ m₃' _ _ hl₃ _ harity => ?_
      have hf₃ := hf₂.later hl₃.later
      have hvs₃ := forall₂_later hvs hl₃.later
      exact .reporting (hsim.call hf₃ hvs₃ harity hl₃.machine)
        (ih.call hf₃ hvs₃ harity hl₃.machine) paren
  | @get name name' _ _ hn ha =>
      obtain ⟨hta, hname⟩ := Expr.get.inj ht
      cases (show name = name' from hname)
      rw [eval, eval]
      exact .bind (hsim.eval ha he hm) (ih.eval ha hta he hm) fun _ _ _ _ _ _ _ _ =>
        reportsAlike_of_at name (reportsIn_getProperty _ rfl) (reportsIn_getProperty _ rfl)
  | @set name name' _ _ _ _ hn ha hb =>
      obtain ⟨hta, hname, htb⟩ := Expr.set.inj ht
      cases (show name = name' from hname)
      rw [eval, eval]
      refine .bind (hsim.eval ha he hm) (ih.eval ha hta he hm) fun w₁ m₁ m₁' o o' hl₁ _ ho => ?_
      refine .bind (fieldOwner_simulates hl₁.machine ho)
        (reportsAlike_of_at name (reportsIn_fieldOwner _ rfl) (reportsIn_fieldOwner _ rfl))
        fun w₂ m₂ m₂' ref ref' hl₂ _ _ => ?_
      have hl := hl₁.trans hl₂
      refine .bind (hsim.eval hb (hl.spot he) hl₂.machine)
        (ih.eval hb htb (hl.spot he) hl₂.machine) fun _ _ _ _ _ _ _ _ => ?_
      exact reportsAlike_of_none
        ((reportsIn_modify _ _).bind fun _ => reportsIn_pure _)
  | @thisRef keyword keyword' _ _ hr =>
      obtain ⟨hname, -⟩ := Expr.thisRef.inj ht
      cases (show keyword = keyword' from hname)
      rw [eval, eval]
      exact reportsAlike_of_at keyword (reportsIn_lookUp _ rfl) (reportsIn_lookUp _ rfl)
  | @superRef keyword keyword' method method' _ _ hn hs =>
      obtain ⟨-, hname, -⟩ := Expr.superRef.inj ht
      cases (show method = method' from hname)
      rw [eval, eval]
      exact reportsAlike_of_at method (reportsIn_superMethod _ rfl) (reportsIn_superMethod _ rfl)
  | vector ha =>
      obtain ⟨-, hta⟩ := Expr.vector.inj ht
      rw [eval, eval]
      exact .bind (hsim.evalAll ha he hm) (ih.evalAll ha hta he hm) fun _ _ _ _ _ _ _ _ =>
        reportsAlike_of_none (reportsIn_of_ok fun _ => ⟨_, _, rfl⟩)

theorem evalAll_reports (ih : C.ReportsAll n) {es es' : List (Expr Slot)}
    (h : C.ExprsRel p es es') (ht : Expr.SameTextAll es es') (he : C.Env w p m.env m'.env)
    (hm : C.MachineRel w m m') :
    ReportsAlike (evalAll (n + 1) es) (evalAll (n + 1) es') m m' := by
  have hsim := C.agrees n
  cases h with
  | nil =>
      rw [evalAll]
      exact reportsAlike_of_none (reportsIn_pure _)
  | cons ha has =>
      obtain ⟨hta, htas⟩ := List.cons.inj ht
      rw [evalAll, evalAll]
      refine .bind (hsim.eval ha he hm) (ih.eval ha hta he hm) fun w₁ m₁ m₁' _ _ hl _ _ => ?_
      exact .bind (hsim.evalAll has (hl.spot he) hl.machine)
        (ih.evalAll has htas (hl.spot he) hl.machine) fun _ _ _ _ _ _ _ _ =>
          reportsAlike_of_none (reportsIn_pure _)

theorem call_reports (hC : C.KeepsText) (ih : C.ReportsAll n) {v v' : Value}
    {vs vs' : List Value} (hv : C.ValueRel w v v') (hvs : C.ValuesRel w vs vs')
    (harity : v.arity? = some vs.length) (hm : C.MachineRel w m m') :
    ReportsAlike (Eval.call (n + 1) v vs) (Eval.call (n + 1) v' vs') m m' := by
  have hsim := C.agrees n
  cases hv with
  | @function id c c' hc =>
      rw [Eval.call, Eval.call]
      obtain ⟨p, he, hf, _, _⟩ := hc
      cases hf with
      | @mk _ q _ _ _ hparams hcall hbody =>
          have hlen : vs.length = c.declaration.params.length := by
            simpa [Value.arity?, Closure.arity, eq_comm] using harity
          refine .bind (callEnv_simulates (n := n) hcall hparams he hm hvs hlen)
            (reportsAlike_of_none (reportsIn_callEnv c vs)) fun w₁ m₁ m₁' E E' hl _ hE => ?_
          have hm₁ : C.MachineRel w₁ { m₁ with env := E } { m₁' with env := E' } :=
            hl.machine.at_env E E'
          exact .bind (Simulates.within (hsim.execAll hbody hE hm₁))
            (ih.execAll hbody (hC hcall).body hE hm₁).within fun _ _ _ _ _ _ _ _ =>
              reportsAlike_of_none (reportsIn_callValue _ _)
  | nil | bool | number | text | object | unassigned => cases harity
  | native =>
      rw [Eval.call, Eval.call]
      exact reportsAlike_of_none (reportsIn_runFunction _ _)
  | nativeMethod hv =>
      rw [Eval.call, Eval.call]
      exact reportsAlike_of_none (reportsIn_runMethod _ _ _)
  | @cls c c' hc =>
      rw [Eval.call, Eval.call]
      have helements : Option.Rel
          (fun a a' : Array Value => List.Forall₂ (C.ValueRel w) a.toList a'.toList)
          (if c.body.isVector then some #[] else none)
          (if c'.body.isVector then some #[] else none) := by
        rw [hc.body.isVector]
        split
        · exact .some .nil
        · exact .none
      have hclass : c.arity = vs.length := by simpa [Value.arity?] using harity
      refine .bind (allocate_simulates hm hc helements)
        (reportsAlike_of_none (reportsIn_allocate _ _)) fun w₁ m₁ m₁' o o' hl _ ho => ?_
      have hfound := (hc.later hl.later).findMethod? initializerName
      simp only [Class.arity] at hclass
      generalize c.findMethod? initializerName = found at hfound hclass
      generalize c'.findMethod? initializerName = found' at hfound
      cases hfound with
      | none => exact reportsAlike_of_none (reportsIn_pure _)
      | @some method method' hmethod =>
          refine .bind (bindMethod_simulates n hl.machine hmethod ho)
            (reportsAlike_of_none (reportsIn_bindMethod _ _)) fun w₂ m₂ m₂' f f' hl₂ hbound hf => ?_
          have hf' : f.arity? = some vs.length := by
            rw [bindMethod_arity hbound, ← hclass]
            rfl
          have hvs₂ := forall₂_later hvs (hl.trans hl₂).later
          exact .bind (hsim.call hf hvs₂ hf' hl₂.machine) (ih.call hf hvs₂ hf' hl₂.machine)
            fun _ _ _ _ _ _ _ _ => reportsAlike_of_none (reportsIn_pure _)

theorem exec_reports (ih : C.ReportsAll n) {s s' : Stmt Slot} (h : C.StmtRel p s s' q)
    (ht : s.SameText s') (he : C.Env w p m.env m'.env) (hm : C.MachineRel w m m') :
    ReportsAlike (exec (n + 1) s) (exec (n + 1) s') m m' := by
  have hsim := C.agrees n
  obtain ⟨k, ht⟩ := ht
  have hdefine : ∀ name v,
      ReportsIn (fun _ => False) (define name v >>= fun _ => pure Completion.normal) :=
    fun _ _ => (reportsIn_define _ _).bind fun _ => reportsIn_pure _
  cases h with
  | expression ha =>
      rw [exec, exec]
      refine .bind (hsim.eval ha he hm) (ih.eval ha (Stmt.expression.inj ht) he hm)
        fun _ _ _ _ _ _ _ _ => reportsAlike_of_none ?_
      exact (reportsIn_setLastValue _).bind fun _ => reportsIn_pure _
  | print ha =>
      rw [exec, exec]
      refine .bind (hsim.eval ha he hm) (ih.eval ha (Stmt.print.inj ht) he hm)
        fun _ _ _ _ _ _ _ _ => reportsAlike_of_none ?_
      exact reportsIn_of_ok fun _ => ⟨_, _, rfl⟩
  | varPlain hd =>
      rw [exec]
      exact reportsAlike_of_none (hdefine _ _)
  | varDecl hd ha =>
      obtain ⟨-, hta⟩ := Stmt.varDecl.inj ht
      rw [exec, exec]
      exact .bind (hsim.eval ha (C.pending hd he) hm)
        (ih.eval ha (Option.some.inj hta) (C.pending hd he) hm)
        fun _ _ _ _ _ _ _ _ => reportsAlike_of_none (hdefine _ _)
  | block hb hbody =>
      rw [exec, exec]
      refine .bind (environment_simulates hm) (reportsAlike_of_none reportsIn_environment)
        fun w₁ m₁ m₁' E E' hl₁ _ hE => ?_
      obtain ⟨rfl, rfl⟩ := hE
      refine .bind (enter_simulates (n := n) hb (C.env_later hl₁.later he) hl₁.machine)
        (reportsAlike_of_none (reportsIn_enter _ _)) fun w₂ m₂ m₂' E E' hl₂ _ hE => ?_
      exact .within (ih.execAll hbody ⟨k + 1, Stmt.block.inj ht⟩ hE (hl₂.machine.at_env E E'))
  | ifThen hc ha =>
      obtain ⟨htc, hta⟩ := Stmt.ifThen.inj ht
      rw [exec, exec]
      refine .bind (hsim.eval hc he hm) (ih.eval hc htc he hm) fun w₁ m₁ m₁' v v' hl _ hv => ?_
      rw [← hv.truthy]
      split
      · exact ih.exec ha ⟨k, hta⟩ (hl.spot he) hl.machine
      · exact reportsAlike_of_none (reportsIn_pure _)
  | ifElse hc ha hb =>
      obtain ⟨htc, hta, htb⟩ := Stmt.ifElse.inj ht
      rw [exec, exec]
      refine .bind (hsim.eval hc he hm) (ih.eval hc htc he hm) fun w₁ m₁ m₁' v v' hl _ hv => ?_
      rw [← hv.truthy]
      split
      · exact ih.exec ha ⟨k, hta⟩ (hl.spot he) hl.machine
      · exact ih.exec hb ⟨k, htb⟩ (hl.spot he) hl.machine
  | whileLoop hc ha =>
      obtain ⟨htc, hta⟩ := Stmt.whileLoop.inj ht
      rw [exec, exec]
      exact ih.loop hc htc ha ⟨k, hta⟩ he hm
  | function hd hf =>
      rw [exec]
      exact reportsAlike_of_none
        (reportsIn_environment.bind fun E => reportsIn_freshId.bind fun id => hdefine _ _)
  | retPlain =>
      rw [exec]
      exact reportsAlike_of_none (reportsIn_pure _)
  | ret ha =>
      obtain ⟨-, hta⟩ := Stmt.ret.inj ht
      rw [exec, exec]
      exact .bind (hsim.eval ha he hm) (ih.eval ha (Option.some.inj hta) he hm)
        fun _ _ _ _ _ _ _ _ => reportsAlike_of_none (reportsIn_pure _)
  | @plainClass _ _ _ name name' _ _ hn hd hfs =>
      rw [exec]
      refine reportsAlike_of_none
        ((reportsIn_declareClass _ _ fun _ hr => ?_).bind fun _ => reportsIn_pure _)
      cases hr
  | @derivedClass _ _ _ _ name name' parent parent' _ _ hn hd hp hi hfs =>
      obtain ⟨-, hparent, -⟩ := Stmt.classDecl.inj ht
      have hname : parent.name = parent'.name :=
        congrArg (fun r => (r.map Reference.name).getD name) hparent
      have hread : ∀ (r : Reference Slot) t fs, r.name = parent.name →
          ReportsIn (· = parent.name)
            (declareClass t (some r) fs >>= fun _ => pure Completion.normal) := by
        intro r t fs hr
        refine (reportsIn_declareClass t fs fun r' hr' => ?_).bind fun _ => reportsIn_pure _
        cases hr'
        exact hr
      rw [exec, exec]
      exact reportsAlike_of_at parent.name (hread parent _ _ rfl) (hread parent' _ _ hname.symm)

theorem execAll_reports (ih : C.ReportsAll n) {ss ss' : List (Stmt Slot)}
    (h : C.StmtsRel p ss ss') (ht : Stmt.SameTextAll ss ss') (he : C.Env w p m.env m'.env)
    (hm : C.MachineRel w m m') :
    ReportsAlike (execAll (n + 1) ss) (execAll (n + 1) ss') m m' := by
  have hsim := C.agrees n
  obtain ⟨k, ht⟩ := ht
  cases h with
  | nil =>
      rw [execAll]
      exact reportsAlike_of_none (reportsIn_pure _)
  | cons hs hss =>
      obtain ⟨hts, htss⟩ := List.cons.inj ht
      rw [execAll, execAll]
      refine .bind (hsim.exec hs he hm) (ih.exec hs ⟨k, hts⟩ he hm)
        fun w₁ m₁ m₁' c c' hl _ hc => ?_
      obtain ⟨hc, hspot⟩ := hc
      cases hc with
      | normal => exact ih.execAll hss ⟨k, htss⟩ (hl.stay.mp hspot) hl.machine
      | returned _ => exact reportsAlike_of_none (reportsIn_pure _)

theorem loop_reports (ih : C.ReportsAll n) {c c' : Expr Slot} {s s' : Stmt Slot}
    (hc : C.ExprRel p c c') (htc : c.SameText c') (hs : C.StmtRel p s s' p) (hts : s.SameText s')
    (he : C.Env w p m.env m'.env) (hm : C.MachineRel w m m') :
    ReportsAlike (loop (n + 1) c s) (loop (n + 1) c' s') m m' := by
  have hsim := C.agrees n
  rw [loop, loop]
  refine .bind (hsim.eval hc he hm) (ih.eval hc htc he hm) fun w₁ m₁ m₁' v v' hl₁ _ hv => ?_
  rw [← hv.truthy]
  split
  · refine .bind (hsim.exec hs (hl₁.spot he) hl₁.machine)
      (ih.exec hs hts (hl₁.spot he) hl₁.machine) fun w₂ m₂ m₂' k k' hl₂ _ hk => ?_
    obtain ⟨hk, _⟩ := hk
    cases hk with
    | normal => exact ih.loop hc htc hs hts ((hl₁.trans hl₂).spot he) hl₂.machine
    | returned _ => exact reportsAlike_of_none (reportsIn_pure _)
  · exact reportsAlike_of_none (reportsIn_pure _)

/-- Related code with the same text reports errors alike, whatever the budget. -/
theorem reportsAll (hC : C.KeepsText) (n : Nat) : C.ReportsAll n := by
  induction n with
  | zero =>
      have hspent : ∀ {α : Type}, ReportsIn (fun _ => False) (spent : Eval α) :=
        fun _ _ _ h => nomatch h
      constructor
      · intro _ _ _ _ _ _ _ _ _ _
        rw [eval]
        exact reportsAlike_of_none hspent
      · intro _ _ _ _ _ _ _ _ _ _
        rw [evalAll]
        exact reportsAlike_of_none hspent
      · intro _ _ _ _ _ _ _ _ _ _ _
        rw [Eval.call]
        exact reportsAlike_of_none hspent
      · intro _ _ _ _ _ _ _ _ _ _ _
        rw [exec]
        exact reportsAlike_of_none hspent
      · intro _ _ _ _ _ _ _ _ _ _
        rw [execAll]
        exact reportsAlike_of_none hspent
      · intro _ _ _ _ _ _ _ _ _ _ _ _ _ _
        rw [loop]
        exact reportsAlike_of_none hspent
  | succ n ih =>
      exact
        { eval := eval_reports ih
          evalAll := evalAll_reports ih
          call := call_reports hC ih
          exec := exec_reports ih
          execAll := execAll_reports ih
          loop := loop_reports ih }

/-! ## The whole end of a step -/

/-- Two steps end alike in a later world, and if errors of the program end them, these are
reported at the same token. -/
structure EndsAlike (C : Comparison) {α : Type} (w : C.World) (R : C.World → α → α → Prop)
    (x y : Eval α) (m m' : Machine) : Prop where
  related : ∃ w', C.Later w w' ∧ C.ResultRel w' m.env m'.env (R w') (x m) (y m')
  reports : ReportsAlike x y m m'

theorem Simulates.endsAlike (h : C.Simulates w R vis x y m m') (hreports : ReportsAlike x y m m') :
    C.EndsAlike w R x y m m' := by
  obtain ⟨w', hw, hr, _⟩ := h
  exact ⟨⟨w', hw, hr⟩, hreports⟩

theorem endsAlike_pure {a a' : α} (hm : C.MachineRel w m m') (h : R w a a') :
    C.EndsAlike w R (pure a) (pure a') m m' :=
  (simulates_pure hm h).endsAlike (reportsAlike_of_none (reportsIn_pure a))

theorem endsAlike_spent (hm : C.MachineRel w m m') :
    C.EndsAlike w R (spent : Eval α) spent m m' :=
  (simulates_abort hm .spent).endsAlike fun _ _ _ _ heq => nomatch heq

theorem EndsAlike.imp {R' : C.World → α → α → Prop} (h : C.EndsAlike w R x y m m')
    (hR : ∀ w' a a', C.Later w w' → R w' a a' → R' w' a a') : C.EndsAlike w R' x y m m' := by
  obtain ⟨⟨w', hw, hr⟩, hreports⟩ := h
  exact ⟨⟨w', hw, hr.imp fun a a' => hR w' a a' hw⟩, hreports⟩

/-- One step after another. -/
theorem EndsAlike.bind {P : C.World → β → β → Prop} {u v : Eval β} {f g : β → Eval α}
    (h : C.EndsAlike w P u v m m')
    (hnext : ∀ w₁ m₁ m₁' b b', C.Left w m m' w₁ m₁ m₁' → P w₁ b b' →
      C.EndsAlike w₁ R (f b) (g b') m₁ m₁') : C.EndsAlike w R (u >>= f) (v >>= g) m m' := by
  obtain ⟨⟨w₁, hw, hr⟩, hreports⟩ := h
  have hbind := hreports.bind_of (f := f) (g := g) hr
  cases hu : u m with
  | ok b m₁ =>
      cases hv : v m' with
      | abort r' m₁' =>
          rw [hu, hv] at hr
          exact hr.elim
      | ok b' m₁' =>
          rw [hu, hv] at hr
          have hl : C.Left w m m' w₁ m₁ m₁' := ⟨hw, hr.2.2.1, hr.1, hr.2.1⟩
          obtain ⟨⟨w₂, hw₂, hr₂⟩, hreports₂⟩ := hnext w₁ m₁ m₁' b b' hl hr.2.2.2
          refine ⟨⟨w₂, C.later_trans hw hw₂, ?_⟩, hbind ?_⟩
          · rw [bind_apply, bind_apply, hu, hv, ← hl.env, ← hl.env']
            exact hr₂
          · rintro b b' m₁ m₁' heq heq'
            rw [hu] at heq
            rw [hv] at heq'
            cases heq
            cases heq'
            exact hreports₂
  | abort r m₁ =>
      cases hv : v m' with
      | ok b' m₁' =>
          rw [hu, hv] at hr
          exact hr.elim
      | abort r' m₁' =>
          refine ⟨⟨w₁, hw, ?_⟩, hbind ?_⟩
          · rw [hu, hv] at hr
            rw [bind_apply, bind_apply, hu, hv]
            exact hr
          · intro b b' m₁ m₁' heq _
            rw [hu] at heq
            cases heq

theorem ResultRel.machine {E E' : Lox.Env} {S : α → α → Prop} {r r' : Result α}
    (h : C.ResultRel w E E' S r r') :
    C.MachineRel w r.machine r'.machine ∧ r.machine.env = E ∧ r'.machine.env = E' := by
  cases r <;> cases r'
  · exact ⟨h.2.2.1, h.1, h.2.1⟩
  · exact h.elim
  · exact h.elim
  · exact ⟨h.2.2.1, h.1, h.2.1⟩

/-- What ends alike in an environment does so outside of it. -/
theorem ResultRel.within {E E' : Lox.Env} {S : α → α → Prop}
    (h : C.ResultRel w E E' S (x { m with env := E }) (y { m' with env := E' })) :
    C.ResultRel w m.env m'.env S (Eval.within E x m) (Eval.within E' y m') := by
  simp only [Eval.within]
  cases hx : x { m with env := E } <;> cases hy : y { m' with env := E' }
  all_goals rw [hx, hy] at h
  · exact ⟨rfl, rfl, h.2.2.1.at_env _ _, h.2.2.2⟩
  · exact h
  · exact h
  · exact ⟨rfl, rfl, h.2.2.1.at_env _ _, h.2.2.2⟩

theorem EndsAlike.within {E E' : Lox.Env}
    (h : C.EndsAlike w R x y { m with env := E } { m' with env := E' }) :
    C.EndsAlike w R (Eval.within E x) (Eval.within E' y) m m' := by
  obtain ⟨⟨w', hw, hr⟩, hreports⟩ := h
  exact ⟨⟨w', hw, hr.within⟩, hreports.within⟩

theorem eval_endsAlike (hC : C.KeepsText) {e e' : Expr Slot} (h : C.ExprRel p e e')
    (ht : e.SameText e') (he : C.Env w p m.env m'.env) (hm : C.MachineRel w m m') :
    C.EndsAlike w C.ValueRel (eval n e) (eval n e') m m' :=
  ((C.agrees n).eval h he hm).endsAlike ((C.reportsAll hC n).eval h ht he hm)

theorem exec_endsAlike (hC : C.KeepsText) {s s' : Stmt Slot} (h : C.StmtRel p s s' q)
    (ht : s.SameText s') (he : C.Env w p m.env m'.env) (hm : C.MachineRel w m m') :
    C.EndsAlike w (C.EndsAt q m.env m'.env) (exec n s) (exec n s') m m' :=
  ((C.agrees n).exec h he hm).endsAlike ((C.reportsAll hC n).exec h ht he hm)

end Comparison
end Lox
