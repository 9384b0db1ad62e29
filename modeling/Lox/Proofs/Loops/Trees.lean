import Lox.Proofs.Budget
import Lox.Proofs.Loops.Reference

/-!
# The loop in the tree

What the evaluator does with the tree of a `for` statement is a loop as well, but one that
opens a scope for each round that has an increment. The tree takes a few steps more than the
loop, so neither does the other's work with the same budget; each does it with a larger one.
-/

namespace Lox

open Eval

/-! ## Steps one after the other -/

theorem Eval.bind_assoc {α β γ : Type} (x : Eval α) (f : α → Eval β) (g : β → Eval γ) :
    (x >>= f) >>= g = x >>= fun a => f a >>= g := by
  funext m
  simp only [bind_apply]
  cases x m <;> rfl

/-- What comes after statements that complete normally. -/
def Completion.andThen (next : Eval Completion) : Completion → Eval Completion
  | .returned v => pure (.returned v)
  | .normal => next

theorem Completion.bind_andThen_pure (x : Eval Completion) :
    x >>= Completion.andThen (pure .normal) = x := by
  funext m
  rw [bind_apply]
  rcases x m with ⟨_ | _, _⟩ | ⟨_, _⟩ <;> rfl

theorem Eval.Restores.andThen {x y : Eval Completion} (h : x.Restores) (h' : y.Restores) :
    (x >>= Completion.andThen y).Restores := by
  refine h.bind fun k => ?_
  cases k with
  | normal => exact h'
  | returned v => exact restores_pure _

theorem Outruns.andThen {x y u v : Eval Completion} (h : Outruns x y) (h' : Outruns u v) :
    Outruns (x >>= Completion.andThen u) (y >>= Completion.andThen v) := by
  refine h.bind fun k => ?_
  cases k with
  | normal => exact h'
  | returned v => exact .refl (restores_pure _)

/-- Steps in a new scope. -/
theorem Outruns.scope {x y : Eval Completion} (h : Outruns x y) :
    Outruns
      (environment >>= fun outer => enter "block" outer >>= fun env => Eval.within env x)
      (environment >>= fun outer => enter "block" outer >>= fun env => Eval.within env y) :=
  (Outruns.refl restores_environment).bind fun outer =>
    (Outruns.refl (restores_enter _ outer)).bind fun env => h.within env

section

variable (n : Nat) (s : Stmt Slot) (ss : List (Stmt Slot)) (c : Expr Slot)

theorem execAll_cons : execAll (n + 1) (s :: ss) =
    exec n s >>= Completion.andThen (execAll n ss) := by
  rw [execAll]
  refine congrArg (exec n s >>= ·) (funext fun k => ?_)
  cases k <;> rfl

theorem execAll_singleton : execAll (n + 2) [s] = exec (n + 1) s := by
  rw [execAll_cons, execAll, Completion.bind_andThen_pure]

theorem loop_succ : loop (n + 1) c s = eval n c >>= fun v =>
    if v.truthy then exec n s >>= Completion.andThen (loop n c s) else pure .normal := by
  rw [loop]
  refine congrArg (eval n c >>= ·) (funext fun v => ?_)
  refine congrArg (fun x => if v.truthy = true then x else _) ?_
  refine congrArg (exec n s >>= ·) (funext fun k => ?_)
  cases k <;> rfl

end

theorem exec_expression (n : Nat) (e : Expr Slot) : exec (n + 1) (.expression e) =
    (eval n e >>= setLastValue) >>= fun _ => pure .normal := by
  rw [exec, bind_assoc]

/-- An initializer does not return. -/
theorem Stmt.IsInitializer.exec_eq {s : Stmt Slot} (h : s.IsInitializer) (n : Nat) :
    ∃ x : Eval Unit, exec n s = x >>= fun _ => pure .normal := by
  cases n with
  | zero => exact ⟨spent, by rw [exec]; rfl⟩
  | succ n =>
      cases h with
      | expression => exact ⟨_, exec_expression n _⟩
      | @varDecl name e =>
          cases e with
          | none => exact ⟨define name.lexeme .unassigned, by rw [exec]⟩
          | some e => exact ⟨eval n e >>= define name.lexeme, by rw [exec, bind_assoc]⟩

theorem Stmt.IsInitializer.exec_bind {s : Stmt Slot} (h : s.IsInitializer) (n : Nat)
    (next : Eval Completion) :
    exec n s >>= Completion.andThen next = exec n s >>= fun _ => next := by
  obtain ⟨x, hx⟩ := h.exec_eq n
  rw [hx, bind_assoc, bind_assoc]
  rfl

namespace ForLoop

variable (l : ForLoop)

/-! ## The tree -/

/-- The body of the loop in the tree. -/
def roundTree : Stmt Slot :=
  match l.increment with
  | some e => .block [l.body, .expression e]
  | none => l.body

def whileTree : Stmt Slot :=
  .whileLoop (l.condition.getD (.literal (.bool true))) l.roundTree

/-- The tree of a `for` statement, with its slots. -/
def tree : Stmt Slot :=
  match l.initializer with
  | some s => .block [s, l.whileTree]
  | none => l.whileTree

/-- A round in a scope of its own, if there is an increment. -/
def enclosed (n : Nat) : Eval Completion := do
  match l.increment with
  | none => l.round n
  | some _ => do
    let outer ← environment
    let env ← enter "block" outer
    within env (l.round n)

/-! ## What the loop does -/

variable {l}

theorem round_eq (n : Nat) : l.round n =
    exec n l.body >>= Completion.andThen (l.advance n >>= fun _ => pure .normal) := by
  rw [round]
  refine congrArg (exec n l.body >>= ·) (funext fun k => ?_)
  cases k <;> rfl

theorem rounds_succ (round : Nat → Eval Completion) (n : Nat) : l.rounds round (n + 1) =
    l.holds n >>= fun more =>
      if more then round n >>= Completion.andThen (l.rounds round n) else pure .normal := by
  rw [rounds]
  refine congrArg (l.holds n >>= ·) (funext fun more => ?_)
  refine congrArg (fun x => if more = true then x else _) ?_
  refine congrArg (round n >>= ·) (funext fun k => ?_)
  cases k <;> rfl

theorem holds_of_none (h : l.condition = none) (n : Nat) : l.holds n = pure true := by
  rw [holds, h]

theorem holds_of_some {e : Expr Slot} (h : l.condition = some e) (n : Nat) :
    l.holds n = eval n e >>= fun v => pure v.truthy := by
  rw [holds, h]

theorem advance_of_none (h : l.increment = none) (n : Nat) : l.advance n = pure () := by
  rw [advance, h]

theorem advance_of_some {e : Expr Slot} (h : l.increment = some e) (n : Nat) :
    l.advance n = eval n e >>= setLastValue := by
  rw [advance, h]

/-! ## What the evaluator does with the tree -/

theorem exec_block (n : Nat) (body : List (Stmt Slot)) : exec (n + 1) (.block body) =
    environment >>= fun outer => enter "block" outer >>= fun env =>
      within env (execAll n body) := by
  rw [exec]

theorem execAll_round {e : Expr Slot} (h : l.increment = some e) (n : Nat) :
    execAll (n + 3) [l.body, .expression e] =
      exec (n + 2) l.body >>=
        Completion.andThen (l.advance n >>= fun _ => pure .normal) := by
  rw [execAll_cons, execAll_singleton, exec_expression, advance_of_some h]

theorem execAll_tree {s : Stmt Slot} (h : s.IsInitializer) (n : Nat) :
    execAll (n + 3) [s, l.whileTree] =
      exec (n + 2) s >>= fun _ =>
        loop n (l.condition.getD (.literal (.bool true))) l.roundTree := by
  rw [execAll_cons, execAll_singleton, h.exec_bind, whileTree, exec]

/-! ## Each runs as long as the other -/

section

variable {n k : Nat} {r r' : Nat → Eval Completion}

theorem advance_outruns (h : n ≤ k) : Outruns (l.advance n) (l.advance k) := by
  rw [advance, advance]
  cases l.increment with
  | none => exact .refl (restores_pure _)
  | some e => exact (eval_outruns h e).bind fun v => .refl (restores_setLastValue v)

theorem restores_holds (n : Nat) : (l.holds n).Restores := by
  rw [holds]
  cases l.condition with
  | none => exact restores_pure _
  | some e => exact ((restoresAll n).eval e).bind fun v => restores_pure _

theorem restores_round (n : Nat) : (l.round n).Restores := by
  rw [round_eq]
  have hadvance := (advance_outruns (l := l) (Nat.le_refl n)).restores
  exact ((restoresAll n).exec l.body).andThen (hadvance.bind fun _ => restores_pure _)

theorem restores_rounds (hr : ∀ n, (r n).Restores) (n : Nat) : (l.rounds r n).Restores := by
  induction n with
  | zero => exact restores_abort _
  | succ n ih =>
      rw [rounds_succ]
      refine (restores_holds n).bind fun more => ?_
      cases more with
      | true => exact (hr n).andThen ih
      | false => exact restores_pure _

theorem round_of_none (h : l.increment = none) (n : Nat) : l.round n = exec n l.body := by
  rw [round_eq, advance_of_none h]
  exact Completion.bind_andThen_pure _

theorem enclosed_of_none (h : l.increment = none) (n : Nat) : l.enclosed n = exec n l.body := by
  rw [enclosed, h]
  exact round_of_none h n

theorem enclosed_of_some {e : Expr Slot} (h : l.increment = some e) (n : Nat) :
    l.enclosed n =
      environment >>= fun outer => enter "block" outer >>= fun env => within env (l.round n) := by
  rw [enclosed, h]

theorem restores_enclosed (n : Nat) : (l.enclosed n).Restores := by
  cases h : l.increment with
  | none =>
      rw [enclosed_of_none h]
      exact (restoresAll n).exec l.body
  | some e =>
      rw [enclosed_of_some h]
      exact (Outruns.refl (restores_round n)).scope.restores

theorem roundTree_of_none (h : l.increment = none) : l.roundTree = l.body := by
  rw [roundTree, h]

theorem roundTree_of_some {e : Expr Slot} (h : l.increment = some e) :
    l.roundTree = .block [l.body, .expression e] := by
  rw [roundTree, h]

theorem roundTree_outruns (n : Nat) : Outruns (exec n l.roundTree) (l.enclosed (n + 2)) := by
  cases h : l.increment with
  | none =>
      rw [roundTree_of_none h, enclosed_of_none h]
      exact exec_outruns (Nat.le_add_right n 2) l.body
  | some e =>
      refine (exec_outruns (Nat.le_add_right n 4) l.roundTree).trans ?_
      rw [roundTree_of_some h, enclosed_of_some h, exec_block, execAll_round h, round_eq]
      refine Outruns.scope ((Outruns.refl ((restoresAll _).exec l.body)).andThen ?_)
      exact (advance_outruns (Nat.le_add_right n 2)).bind fun _ => .refl (restores_pure _)

theorem outruns_roundTree (n : Nat) : Outruns (l.enclosed n) (exec (n + 4) l.roundTree) := by
  cases h : l.increment with
  | none =>
      rw [roundTree_of_none h, enclosed_of_none h]
      exact exec_outruns (Nat.le_add_right n 4) l.body
  | some e =>
      rw [roundTree_of_some h, enclosed_of_some h, exec_block, execAll_round h, round_eq]
      refine Outruns.scope ((exec_outruns (Nat.le_add_right n 2) l.body).andThen ?_)
      exact (advance_outruns (Nat.le_refl n)).bind fun _ => .refl (restores_pure _)

/-- The condition of the tree is the literal `true` if there is none. -/
theorem condition_outruns {α : Type} {f g : Bool → Eval α} (h : n ≤ k)
    (hf : ∀ b, Outruns (f b) (g b)) :
    Outruns (eval n (l.condition.getD (.literal (.bool true))) >>= fun v => f v.truthy)
      (l.holds k >>= g) := by
  cases hc : l.condition with
  | some e =>
      rw [holds_of_some hc, bind_assoc]
      exact (eval_outruns h e).bind fun v => hf v.truthy
  | none =>
      rw [holds_of_none hc]
      cases n with
      | zero => exact (outruns_spent (restores_pure true)).bind hf
      | succ n =>
          rw [Option.getD_none, eval]
          exact hf true

theorem outruns_condition {α : Type} {f g : Bool → Eval α} (h : n < k)
    (hf : ∀ b, Outruns (f b) (g b)) :
    Outruns (l.holds n >>= f)
      (eval k (l.condition.getD (.literal (.bool true))) >>= fun v => g v.truthy) := by
  cases hc : l.condition with
  | some e =>
      rw [holds_of_some hc, bind_assoc]
      exact (eval_outruns (Nat.le_of_lt h) e).bind fun v => hf v.truthy
  | none =>
      obtain ⟨j, rfl⟩ := Nat.exists_eq_succ_of_ne_zero (Nat.ne_of_gt (Nat.zero_lt_of_lt h))
      rw [holds_of_none hc, Option.getD_none, eval]
      exact hf true

/-- Round by round, as long as the budget of the tree lasts. -/
theorem loop_outruns (hrestores : ∀ n, (r n).Restores)
    (hr : ∀ n, Outruns (exec n l.roundTree) (r (n + k))) (n : Nat) :
    Outruns (loop n (l.condition.getD (.literal (.bool true))) l.roundTree)
      (l.rounds r (n + k)) := by
  induction n with
  | zero =>
      rw [loop]
      exact outruns_spent (restores_rounds hrestores _)
  | succ n ih =>
      rw [loop_succ, Nat.add_right_comm, rounds_succ]
      refine condition_outruns (f := fun b => if b then _ else _) (Nat.le_add_right n k) fun b => ?_
      cases b with
      | true => exact (hr n).andThen ih
      | false => exact .refl (restores_pure _)

theorem outruns_loop (hr : ∀ n, Outruns (r n) (exec (n + k + 1) l.roundTree)) (n : Nat) :
    Outruns (l.rounds r n)
      (loop (n + k + 1) (l.condition.getD (.literal (.bool true))) l.roundTree) := by
  induction n with
  | zero => exact outruns_spent ((restoresAll _).loop _ _)
  | succ n ih =>
      rw [rounds_succ, show n + 1 + k + 1 = n + k + 1 + 1 by omega, loop_succ]
      refine outruns_condition (g := fun b => if b then _ else _) (by omega) fun b => ?_
      cases b with
      | true => exact (hr n).andThen ih
      | false => exact .refl (restores_pure _)

theorem runWith_of_none (h : l.initializer = none) (n : Nat) :
    l.runWith r n = l.rounds r n := by
  rw [runWith, h]

theorem runWith_of_some {s : Stmt Slot} (h : l.initializer = some s) (n : Nat) :
    l.runWith r n = environment >>= fun outer => enter "block" outer >>= fun env =>
      within env (exec n s >>= fun _ => l.rounds r n) := by
  rw [runWith, h]

end

variable (hinitializer : ∀ s, l.initializer = some s → s.IsInitializer)
include hinitializer

/-- What the tree does, the loop with enclosed rounds does too. -/
theorem tree_outruns (n : Nat) : Outruns (exec n l.tree) (l.runWith l.enclosed (n + 2)) := by
  have hloop := loop_outruns (k := 2) restores_enclosed (roundTree_outruns (l := l)) n
  cases h : l.initializer with
  | none =>
      refine (exec_outruns (Nat.le_succ n) l.tree).trans ?_
      rw [runWith_of_none h, tree, h, whileTree, exec]
      exact hloop
  | some s =>
      refine (exec_outruns (Nat.le_add_right n 4) l.tree).trans ?_
      rw [runWith_of_some h, tree, h, exec_block, execAll_tree (hinitializer s h)]
      exact Outruns.scope ((Outruns.refl ((restoresAll _).exec s)).bind fun _ => hloop)

/-- What the loop with enclosed rounds does, the tree does too. -/
theorem outruns_tree (n : Nat) : Outruns (l.runWith l.enclosed n) (exec (n + 8) l.tree) := by
  have hloop := outruns_loop (r := l.enclosed) (k := 3) (outruns_roundTree (l := l)) n
  cases h : l.initializer with
  | none =>
      refine Outruns.trans ?_ (exec_outruns (Nat.le_add_right (n + 5) 3) l.tree)
      rw [runWith_of_none h, tree, h, whileTree, exec]
      exact hloop
  | some s =>
      rw [runWith_of_some h, tree, h, exec_block, execAll_tree (hinitializer s h)]
      exact Outruns.scope ((exec_outruns (by omega) s).bind fun _ => hloop)

end ForLoop
end Lox
