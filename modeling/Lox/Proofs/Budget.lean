import Lox.Proofs.Context.Restoring

/-!
# More budget

A run that ends does not depend on how much of the budget is left: with a larger one it
does the same. One that does not end has printed no less when it is given more. So what is
said of a run with one budget holds with every budget that suffices, and the statements of
a unit may share a budget with those before them.
-/

namespace Lox

open Eval

/-- The second step does what the first does, unless that one spends its budget. -/
def Outlasts {α : Type} (x y : Eval α) : Prop :=
  ∀ m, (∃ m', x m = .abort .spent m') ∨ x m = y m

/-- The second step does what the first does. If that one spends its budget, the second has
printed all that the first has, and maybe more. -/
structure Outruns {α : Type} (x y : Eval α) : Prop where
  restores : y.Restores
  ends : ∀ m, (∃ m', x m = .abort .spent m' ∧ m'.output.toList <+: (y m).machine.output.toList) ∨
    x m = y m

section

variable {α β : Type} {x y z : Eval α}

theorem Outruns.outlasts (h : Outruns x y) : Outlasts x y :=
  fun m => (h.ends m).imp_left fun ⟨m', hspent, _⟩ => ⟨m', hspent⟩

/-- Whether the run ends or not, the second has printed what the first has. -/
theorem Outruns.output (h : Outruns x y) (m : Machine) :
    (x m).machine.output.toList <+: (y m).machine.output.toList := by
  rcases h.ends m with ⟨m', hspent, houtput⟩ | heq
  · rw [hspent]
    exact houtput
  · rw [heq]

theorem Outruns.refl (h : x.Restores) : Outruns x x :=
  ⟨h, fun _ => .inr rfl⟩

theorem Outruns.trans (h : Outruns x y) (h' : Outruns y z) : Outruns x z := by
  refine ⟨h'.restores, fun m => ?_⟩
  rcases h.ends m with ⟨m', hspent, houtput⟩ | heq
  · exact .inl ⟨m', hspent, houtput.trans (h'.output m)⟩
  · rw [heq]
    exact h'.ends m

theorem outruns_spent (h : y.Restores) : Outruns spent y :=
  ⟨h, fun m => .inl ⟨m, rfl, (h m).output⟩⟩

theorem Outruns.bind {u v : Eval β} {f g : β → Eval α} (h : Outruns u v)
    (hf : ∀ b, Outruns (f b) (g b)) : Outruns (u >>= f) (v >>= g) := by
  refine ⟨h.restores.bind fun b => (hf b).restores, fun m => ?_⟩
  rw [bind_apply, bind_apply]
  rcases h.ends m with ⟨m', hspent, houtput⟩ | heq
  · refine .inl ⟨m', by rw [hspent], ?_⟩
    cases hv : v m with
    | ok b m₁ =>
        rw [hv] at houtput
        exact houtput.trans ((hf b).restores m₁).output
    | abort r m₁ =>
        rw [hv] at houtput
        exact houtput
  · rw [heq]
    cases v m with
    | ok b m' => exact (hf b).ends m'
    | abort r m' => exact .inr rfl

theorem Outruns.within (h : Outruns x y) (E : Env) : Outruns (within E x) (within E y) := by
  refine ⟨restores_within h.restores, fun m => ?_⟩
  rw [within_machine]
  simp only [Eval.within]
  rcases h.ends { m with env := E } with ⟨m', hspent, houtput⟩ | heq
  · rw [hspent]
    exact .inl ⟨_, rfl, houtput⟩
  · rw [heq]
    exact .inr rfl

theorem Outruns.reporting (h : Outruns x y) (t : Token) :
    Outruns (reporting t x) (reporting t y) := by
  refine ⟨h.restores.reporting, fun m => ?_⟩
  rw [reporting_machine]
  simp only [Eval.reporting]
  rcases h.ends m with ⟨m', hspent, houtput⟩ | heq
  · rw [hspent]
    exact .inl ⟨_, rfl, houtput⟩
  · rw [heq]
    exact .inr rfl

end

/-- Everything the evaluator does with a budget of `n` it does with one more. -/
structure Outrun (n : Nat) : Prop where
  eval : ∀ e, Outruns (eval n e) (eval (n + 1) e)
  evalAll : ∀ es, Outruns (evalAll n es) (evalAll (n + 1) es)
  call : ∀ v vs, Outruns (Eval.call n v vs) (Eval.call (n + 1) v vs)
  exec : ∀ s, Outruns (exec n s) (exec (n + 1) s)
  execAll : ∀ ss, Outruns (execAll n ss) (execAll (n + 1) ss)
  loop : ∀ c s, Outruns (loop n c s) (loop (n + 1) c s)
  execUnit : ∀ ss, Outruns (execUnit n ss) (execUnit (n + 1) ss)

section

variable {n : Nat}

theorem eval_outrun (ih : Outrun n) (e : Expr Slot) :
    Outruns (eval (n + 1) e) (eval (n + 2) e) := by
  cases e with
  | literal =>
      rw [eval, eval]
      exact .refl (restores_pure _)
  | var | thisRef =>
      rw [eval, eval]
      exact .refl (restores_lookUp _ _)
  | superRef =>
      rw [eval, eval]
      exact .refl (restores_superMethod _ _)
  | unary operator a =>
      rw [eval, eval]
      exact (ih.eval a).bind fun _ => .refl (restores_unaryOp _ _)
  | binary a operator b =>
      rw [eval, eval]
      exact (ih.eval a).bind fun _ => (ih.eval b).bind fun _ => .refl (restores_binaryOp _ _ _)
  | logical a operator b =>
      rw [eval, eval]
      refine (ih.eval a).bind fun v => ?_
      split
      · exact .refl (restores_pure _)
      · exact ih.eval b
  | conditional c a b =>
      rw [eval, eval]
      refine (ih.eval c).bind fun v => ?_
      split
      · exact ih.eval a
      · exact ih.eval b
  | grouping a =>
      rw [eval, eval]
      exact ih.eval a
  | assign name slot a =>
      rw [eval, eval]
      exact (ih.eval a).bind fun _ =>
        .refl ((restores_assign _ _ _).bind fun _ => restores_pure _)
  | call callee paren arguments =>
      rw [eval, eval]
      refine (ih.eval callee).bind fun f => (ih.evalAll arguments).bind fun vs => ?_
      exact (Outruns.refl (restores_checkCall _ _ _)).bind fun _ => (ih.call f vs).reporting paren
  | get a name =>
      rw [eval, eval]
      exact (ih.eval a).bind fun _ => .refl (restores_getProperty _ _)
  | set a name b =>
      rw [eval, eval]
      refine (ih.eval a).bind fun o => (Outruns.refl (restores_fieldOwner _ _)).bind fun ref => ?_
      exact (ih.eval b).bind fun _ => .refl ((restores_modify _ _).bind fun _ => restores_pure _)
  | vector bracket elements =>
      rw [eval, eval]
      exact (ih.evalAll elements).bind fun _ => .refl fun m => restores_allocate m.vectorClass _ m

theorem evalAll_outrun (ih : Outrun n) (es : List (Expr Slot)) :
    Outruns (evalAll (n + 1) es) (evalAll (n + 2) es) := by
  cases es with
  | nil =>
      rw [evalAll, evalAll]
      exact .refl (restores_pure _)
  | cons e es =>
      rw [evalAll, evalAll]
      exact (ih.eval e).bind fun _ => (ih.evalAll es).bind fun _ => .refl (restores_pure _)

theorem call_outrun (ih : Outrun n) (v : Value) (vs : List Value) :
    Outruns (Eval.call (n + 1) v vs) (Eval.call (n + 2) v vs) := by
  cases v with
  | function id c =>
      rw [Eval.call, Eval.call]
      refine (Outruns.refl (restores_callEnv _ _)).bind fun E => ?_
      exact ((ih.execAll _).within E).bind fun _ => .refl (restores_callValue _ _)
  | native id f =>
      rw [Eval.call, Eval.call]
      exact .refl (restores_runFunction _ _)
  | nativeMethod id f receiver =>
      rw [Eval.call, Eval.call]
      exact .refl (restores_runMethod _ _ _)
  | cls c =>
      rw [Eval.call, Eval.call]
      refine (Outruns.refl (restores_allocate _ _)).bind fun o => ?_
      split
      · exact .refl (restores_pure _)
      · exact (Outruns.refl (restores_bindMethod _ _)).bind fun f =>
          (ih.call f vs).bind fun _ => .refl (restores_pure _)
  | nil | bool | number | text | object | unassigned => exact .refl (restores_pure _)

theorem exec_outrun (ih : Outrun n) (s : Stmt Slot) :
    Outruns (exec (n + 1) s) (exec (n + 2) s) := by
  cases s with
  | expression e =>
      rw [exec, exec]
      exact (ih.eval e).bind fun v =>
        .refl ((restores_setLastValue v).bind fun _ => restores_pure _)
  | print e =>
      rw [exec, exec]
      refine (ih.eval e).bind fun v => .refl ?_
      exact (restores_textOf v).bind fun text => (restores_print text).bind fun _ =>
        restores_pure _
  | varDecl name initializer =>
      cases initializer with
      | none =>
          rw [exec, exec]
          exact .refl ((restores_define _ _).bind fun _ => restores_pure _)
      | some e =>
          rw [exec, exec]
          exact (ih.eval e).bind fun v =>
            .refl ((restores_define _ v).bind fun _ => restores_pure _)
  | block body =>
      rw [exec, exec]
      refine (Outruns.refl restores_environment).bind fun outer => ?_
      exact (Outruns.refl (restores_enter _ _)).bind fun E => (ih.execAll body).within E
  | ifThen c a =>
      rw [exec, exec]
      refine (ih.eval c).bind fun v => ?_
      split
      · exact ih.exec a
      · exact .refl (restores_pure _)
  | ifElse c a b =>
      rw [exec, exec]
      refine (ih.eval c).bind fun v => ?_
      split
      · exact ih.exec a
      · exact ih.exec b
  | whileLoop c a =>
      rw [exec, exec]
      exact ih.loop c a
  | function f =>
      rw [exec, exec]
      refine .refl (restores_environment.bind fun E => restores_freshId.bind fun id => ?_)
      exact (restores_define _ _).bind fun _ => restores_pure _
  | classDecl name superclass methods =>
      rw [exec, exec]
      exact .refl ((restores_declareClass _ _ _).bind fun _ => restores_pure _)
  | ret keyword value =>
      cases value with
      | none =>
          rw [exec, exec]
          exact .refl (restores_pure _)
      | some e =>
          rw [exec, exec]
          exact (ih.eval e).bind fun _ => .refl (restores_pure _)

theorem execAll_outrun (ih : Outrun n) (ss : List (Stmt Slot)) :
    Outruns (execAll (n + 1) ss) (execAll (n + 2) ss) := by
  cases ss with
  | nil =>
      rw [execAll, execAll]
      exact .refl (restores_pure _)
  | cons s ss =>
      rw [execAll, execAll]
      refine (ih.exec s).bind fun k => ?_
      cases k with
      | normal => exact ih.execAll ss
      | returned v => exact .refl (restores_pure _)

theorem loop_outrun (ih : Outrun n) (c : Expr Slot) (s : Stmt Slot) :
    Outruns (loop (n + 1) c s) (loop (n + 2) c s) := by
  rw [loop, loop]
  refine (ih.eval c).bind fun v => ?_
  split
  · refine (ih.exec s).bind fun k => ?_
    cases k with
    | normal => exact ih.loop c s
    | returned v => exact .refl (restores_pure _)
  · exact .refl (restores_pure _)

theorem execUnit_outrun (ih : Outrun n) (ss : List (Stmt Slot)) :
    Outruns (execUnit (n + 1) ss) (execUnit (n + 2) ss) := by
  cases ss with
  | nil =>
      rw [execUnit, execUnit]
      exact .refl (restores_pure _)
  | cons s ss =>
      rw [execUnit, execUnit]
      exact (ih.exec s).bind fun _ => ih.execUnit ss

end

theorem outrun (n : Nat) : Outrun n := by
  induction n with
  | zero =>
      have h := restoresAll 1
      constructor
      · exact fun e => by rw [eval]; exact outruns_spent (h.eval e)
      · exact fun es => by rw [evalAll]; exact outruns_spent (h.evalAll es)
      · exact fun v vs => by rw [Eval.call]; exact outruns_spent (h.call v vs)
      · exact fun s => by rw [exec]; exact outruns_spent (h.exec s)
      · exact fun ss => by rw [execAll]; exact outruns_spent (h.execAll ss)
      · exact fun c s => by rw [loop]; exact outruns_spent (h.loop c s)
      · exact fun ss => by rw [execUnit]; exact outruns_spent (h.execUnit ss)
  | succ n ih =>
      exact
        { eval := eval_outrun ih
          evalAll := evalAll_outrun ih
          call := call_outrun ih
          exec := exec_outrun ih
          execAll := execAll_outrun ih
          loop := loop_outrun ih
          execUnit := execUnit_outrun ih }

section

variable {n k : Nat}

/-- A step that is outrun by itself with one more is so with any larger budget. -/
theorem Outruns.of_succ {α : Type} {x : Nat → Eval α} (hn : (x n).Restores)
    (hx : ∀ i, Outruns (x i) (x (i + 1))) (h : n ≤ k) : Outruns (x n) (x k) := by
  induction h with
  | refl => exact .refl hn
  | step _ ih => exact ih.trans (hx _)

theorem eval_outruns (h : n ≤ k) (e : Expr Slot) : Outruns (eval n e) (eval k e) :=
  .of_succ (x := fun i => eval i e) ((restoresAll n).eval e) (fun i => (outrun i).eval e) h

theorem exec_outruns (h : n ≤ k) (s : Stmt Slot) : Outruns (exec n s) (exec k s) :=
  .of_succ (x := fun i => exec i s) ((restoresAll n).exec s) (fun i => (outrun i).exec s) h

theorem execUnit_outruns (h : n ≤ k) (ss : List (Stmt Slot)) :
    Outruns (execUnit n ss) (execUnit k ss) :=
  .of_succ (x := fun i => execUnit i ss) ((restoresAll n).execUnit ss)
    (fun i => (outrun i).execUnit ss) h

end

/-! ## Units one after the other -/

/-- The statements of a unit that come after others run with what these have left of the
budget. -/
theorem execUnit_append_eq (n : Nat) (ss ss' : List (Stmt Slot)) :
    execUnit n (ss ++ ss') = execUnit n ss >>= fun _ => execUnit (n - ss.length) ss' := by
  funext m
  induction ss generalizing n m with
  | nil =>
      cases n with
      | zero => cases ss' <;> rfl
      | succ n => rfl
  | cons s ss ih =>
      cases n with
      | zero => rfl
      | succ n =>
          rw [List.cons_append, execUnit, execUnit, bind_apply, bind_apply, bind_apply]
          cases exec n s m with
          | abort r m' => rfl
          | ok c m' =>
              rw [List.length_cons, Nat.add_sub_add_right]
              exact ih n m'

/-- Every statement of a unit takes one from the budget. -/
theorem length_lt_of_execUnit {ss : List (Stmt Slot)} {n : Nat} {m m₁ : Machine}
    (h : execUnit n ss m = .ok () m₁) : ss.length < n := by
  induction ss generalizing n m with
  | nil =>
      cases n with
      | zero => cases h
      | succ n => exact Nat.succ_pos n
  | cons s ss ih =>
      cases n with
      | zero => cases h
      | succ n =>
          rw [execUnit, bind_apply] at h
          cases hs : exec n s m with
          | abort r m' =>
              rw [hs] at h
              cases h
          | ok c m' =>
              rw [hs] at h
              exact Nat.succ_lt_succ (ih h)

end Lox
