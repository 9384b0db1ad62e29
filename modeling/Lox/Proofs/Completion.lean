import Lox.Eval.Run
import Lox.Proofs.Simulation.Steps
import Lox.Resolve

/-!
# Statements that do not return

A resolved program has no `return` outside of its functions. Statements without one
complete by reaching their end, so running them as a unit and as the body of a block is
the same.
-/

namespace Lox

section

variable {δ : Type}

mutual

/-- Is there a `return` in the statement, outside of the functions in it? -/
def Stmt.returns : Stmt δ → Bool
  | .ret _ _ => true
  | .block body => Stmt.returnsAny body
  | .ifThen _ thenBranch => thenBranch.returns
  | .ifElse _ thenBranch elseBranch => thenBranch.returns || elseBranch.returns
  | .whileLoop _ body => body.returns
  | _ => false

def Stmt.returnsAny : List (Stmt δ) → Bool
  | [] => false
  | s :: rest => s.returns || Stmt.returnsAny rest

end

end

mutual

/-- Outside of functions a `return` is a fault. -/
theorem Stmt.returns_resolve {around : Surroundings} (hnone : around.function = .none)
    (c : ClassKind) {s s' : Scopes} (y : Stmt Unit) (h : y.scopeFaults around s = []) :
    (y.resolve c s').returns = false := by
  cases y with
  | ret keyword value =>
      rw [Stmt.scopeFaults, returnFaults, if_pos hnone] at h
      cases h
  | block body => exact Stmt.returnsAny_resolve hnone c body h
  | ifThen e a => exact Stmt.returns_resolve hnone c a (List.append_eq_nil_iff.mp h).2
  | ifElse e a b =>
      obtain ⟨hea, hb⟩ := List.append_eq_nil_iff.mp h
      exact Bool.or_eq_false_iff.mpr
        ⟨Stmt.returns_resolve hnone c a (List.append_eq_nil_iff.mp hea).2,
          Stmt.returns_resolve hnone c b hb⟩
  | whileLoop e a => exact Stmt.returns_resolve hnone c a (List.append_eq_nil_iff.mp h).2
  | expression | print | varDecl | function | classDecl => rfl

theorem Stmt.returnsAny_resolve {around : Surroundings} (hnone : around.function = .none)
    (c : ClassKind) {s s' : Scopes} (ys : List (Stmt Unit))
    (h : Stmt.scopeFaultsAll around s ys = []) :
    Stmt.returnsAny (Stmt.resolveAll c s' ys) = false := by
  cases ys with
  | nil => rfl
  | cons y ys =>
      obtain ⟨hy, hys⟩ := List.append_eq_nil_iff.mp h
      exact Bool.or_eq_false_iff.mpr
        ⟨Stmt.returns_resolve hnone c y hy, Stmt.returnsAny_resolve hnone c ys hys⟩

end

open Eval

/-- A step that never completes by returning. -/
def ReachesEnd (x : Eval Completion) : Prop :=
  ∀ m k m', x m = .ok k m' → k = .normal

section

variable {α : Type}

theorem reachesEnd_pure : ReachesEnd (pure .normal) := by
  intro m k m' h
  cases h
  rfl

theorem reachesEnd_spent : ReachesEnd spent := by
  intro m k m' h
  cases h

theorem ReachesEnd.bind {x : Eval α} {f : α → Eval Completion} (hf : ∀ a, ReachesEnd (f a)) :
    ReachesEnd (x >>= f) := by
  intro m k m' h
  rw [bind_apply] at h
  cases hx : x m with
  | ok a m₁ =>
      rw [hx] at h
      exact hf a m₁ k m' h
  | abort r m₁ =>
      rw [hx] at h
      cases h

/-- Of a completed step only the normal completion has to be followed. -/
theorem ReachesEnd.andThen {x : Eval Completion} {f : Completion → Eval Completion}
    (hx : ReachesEnd x) (hf : ReachesEnd (f .normal)) : ReachesEnd (x >>= f) := by
  intro m k m' h
  rw [bind_apply] at h
  cases hr : x m with
  | ok a m₁ =>
      rw [hr] at h
      obtain rfl := hx m a m₁ hr
      exact hf m₁ k m' h
  | abort r m₁ =>
      rw [hr] at h
      cases h

theorem ReachesEnd.within {x : Eval Completion} (hx : ReachesEnd x) (E : Env) :
    ReachesEnd (within E x) := by
  intro m k m' h
  rw [Eval.within] at h
  cases hr : x { m with env := E } with
  | ok a m₁ =>
      simp only [hr] at h
      cases h
      exact hx _ _ _ hr
  | abort r m₁ =>
      simp only [hr] at h
      cases h

end

/-- With this budget, statements without a `return` reach their end if they complete. -/
structure StatementsReachEnd (n : Nat) : Prop where
  exec : ∀ s : Stmt Slot, s.returns = false → ReachesEnd (exec n s)
  execAll : ∀ ss : List (Stmt Slot), Stmt.returnsAny ss = false → ReachesEnd (execAll n ss)
  loop : ∀ (c : Expr Slot) (s : Stmt Slot), s.returns = false → ReachesEnd (loop n c s)

theorem statementsReachEnd (n : Nat) : StatementsReachEnd n := by
  induction n with
  | zero =>
      constructor
      · exact fun s _ => by rw [exec]; exact reachesEnd_spent
      · exact fun ss _ => by rw [execAll]; exact reachesEnd_spent
      · exact fun c s _ => by rw [loop]; exact reachesEnd_spent
  | succ n ih =>
      constructor
      · intro s hs
        cases s with
        | expression e =>
            rw [exec]
            exact .bind fun _ => .bind fun _ => reachesEnd_pure
        | print e =>
            rw [exec]
            exact .bind fun _ => .bind fun _ => .bind fun _ => reachesEnd_pure
        | varDecl name initializer =>
            cases initializer with
            | none =>
                rw [exec]
                exact .bind fun _ => reachesEnd_pure
            | some e =>
                rw [exec]
                exact .bind fun _ => .bind fun _ => reachesEnd_pure
        | block body =>
            rw [exec]
            exact .bind fun _ => .bind fun E => (ih.execAll body hs).within E
        | ifThen c a =>
            rw [exec]
            refine .bind fun v => ?_
            split
            · exact ih.exec a hs
            · exact reachesEnd_pure
        | ifElse c a b =>
            obtain ⟨ha, hb⟩ := Bool.or_eq_false_iff.mp hs
            rw [exec]
            refine .bind fun v => ?_
            split
            · exact ih.exec a ha
            · exact ih.exec b hb
        | whileLoop c a =>
            rw [exec]
            exact ih.loop c a hs
        | function f =>
            rw [exec]
            exact .bind fun _ => .bind fun _ => .bind fun _ => reachesEnd_pure
        | ret keyword value => cases hs
        | classDecl name superclass methods =>
            rw [exec]
            exact .bind fun _ => reachesEnd_pure
      · intro ss hss
        cases ss with
        | nil =>
            rw [execAll]
            exact reachesEnd_pure
        | cons s ss =>
            obtain ⟨hs, hss⟩ := Bool.or_eq_false_iff.mp hss
            rw [execAll]
            exact (ih.exec s hs).andThen (ih.execAll ss hss)
      · intro c s hs
        rw [loop]
        refine .bind fun v => ?_
        split
        · exact (ih.exec s hs).andThen (ih.loop c s hs)
        · exact reachesEnd_pure

/-- Statements without a `return` do the same as a unit and as the body of a block. -/
theorem execUnit_eq (n : Nat) (ss : List (Stmt Slot)) (h : Stmt.returnsAny ss = false)
    (m : Machine) : execUnit n ss m = (execAll n ss >>= fun _ => pure ()) m := by
  induction n generalizing ss m with
  | zero => rw [execUnit, execAll]; rfl
  | succ n ih =>
      cases ss with
      | nil => rw [execUnit, execAll]; rfl
      | cons s ss =>
          obtain ⟨hs, hss⟩ := Bool.or_eq_false_iff.mp h
          rw [execUnit, execAll, bind_apply, bind_apply, bind_apply]
          cases hr : exec n s m with
          | abort r m' => rfl
          | ok k m' =>
              obtain rfl := (statementsReachEnd n).exec s hs m k m' hr
              exact (ih ss hss m').trans (bind_apply _ _ _)

/-- The machine after a brace: in a new frame. -/
def Machine.inBlock (m : Machine) : Machine :=
  { m with
    env := (m.frames.enter "block" m.env).1
    frames := (m.frames.enter "block" m.env).2 }

/-- A unit that is one block is the unit of what is in the block, in a frame of its
own. -/
theorem execUnit_block (n : Nat) {body : List (Stmt Slot)} (h : Stmt.returnsAny body = false)
    (m : Machine) :
    execUnit (n + 2) [.block body] m =
      within m.inBlock.env (execUnit n body) { m with frames := m.inBlock.frames } := by
  rw [execUnit, bind_apply, exec, bind_apply, within, execUnit_eq n body h, bind_apply]
  simp only [environment, bind_apply, Eval.enter, within, Machine.inBlock]
  cases execAll n body _ <;> rfl

end Lox
