import Lox.Proofs.Loops.Trees
import Lox.Proofs.Padding.Frames
import Lox.Proofs.Padding.Programs

/-!
# Rounds with and without a scope

The loop of a `for` statement is compared with the one in its tree, which opens a scope for
each round that has an increment. Nothing is declared in these scopes, and what is resolved
in them has its distances for them. So both do the same round by round, and the frames of the
second are those of the first and empty ones in between.

Resolution goes through the tree. What it makes of the tree is the tree of a loop, and the
slots there are those of the loop that is meant, but for the distances past that scope.
-/

namespace Lox

namespace ForLoop

open Eval Padding

/-- A loop, and what becomes of it when body and increment are resolved in one scope more. -/
inductive Padded : ForLoop → ForLoop → Prop
  | plain {l : ForLoop} : l.increment = none → Padded l l
  | within {initializer : Option (Stmt Slot)} {condition : Option (Expr Slot)}
      {e e' : Expr Slot} {s s' : Stmt Slot} :
      padding.ExprRel (Spot.inside 0) e e' → e.SameText e' →
      padding.StmtRel (Spot.inside 0) s s' (Spot.inside 0) → s.SameText s' →
      Padded ⟨initializer, condition, some e, s⟩ ⟨initializer, condition, some e', s'⟩

variable {l l' : ForLoop} {w : World} {m m' : Machine} {α : Type}

theorem Padded.initializer (h : Padded l l') : l'.initializer = l.initializer := by
  cases h <;> rfl

theorem Padded.condition (h : Padded l l') : l'.condition = l.condition := by
  cases h <;> rfl

/-! ## Parts of a round -/

theorem stmt_endsAlike (n : Nat) {p q : Spot} {s s' : Stmt Slot}
    (h : padding.StmtRel p s s' q) (ht : s.SameText s') (he : Around w p m.env m'.env)
    (hm : padding.MachineRel w m m') :
    padding.EndsAlike w padding.CompletionRel (exec n s) (exec n s') m m' :=
  (padding.exec_endsAlike keepsText h ht he hm).imp fun _ _ _ _ hk => hk.1

theorem self_eval (n : Nat) (e : Expr Slot) (he : Around w .plain m.env m'.env)
    (hm : padding.MachineRel w m m') :
    padding.EndsAlike w padding.ValueRel (eval n e) (eval n e) m m' :=
  padding.eval_endsAlike keepsText (selfSpots.exprRel_self rfl e) rfl he hm

theorem self_exec (n : Nat) (s : Stmt Slot) (he : Around w .plain m.env m'.env)
    (hm : padding.MachineRel w m m') :
    padding.EndsAlike w padding.CompletionRel (exec n s) (exec n s) m m' :=
  stmt_endsAlike n (selfSpots.stmtRel_self rfl s) ⟨0, rfl⟩ he hm

/-! ## Rounds -/

/-- The second step is taken in a scope of its own. -/
theorem endsAlike_scope {R : World → α → α → Prop} {x y : Eval α}
    (he : Around w .plain m.env m'.env) (hm : padding.MachineRel w m m')
    (h : ∀ m₁', Around w.padded (.inside 0) m.env m₁'.env → padding.MachineRel w.padded m m₁' →
      padding.EndsAlike w.padded R x y m m₁') :
    padding.EndsAlike w R x
      (environment >>= fun outer => enter "block" outer >>= fun env => within env y) m m' := by
  have hlater := later_padded w
  let m₁ : Machine := { m' with frames := (m'.frames.enter "block" m'.env).2 }
  let E : Env := m'.frames.size :: m'.env
  have hm₁ : padding.MachineRel w.padded m m₁ :=
    hm.later hlater
      ((hm.frames.imp (Comparison.extends_later hlater)).padded "block" m'.env)
  obtain ⟨⟨w', hw, hr⟩, hreports⟩ := h { m₁ with env := E } (he.padded m'.frames.size)
    (hm₁.at_env m.env E)
  have hresult : padding.ResultRel w' m.env m'.env (R w') (x m) (within E y m₁) := by
    rw [within]
    cases hx : x m <;> cases hy : y { m₁ with env := E }
    all_goals rw [hx, hy] at hr
    · exact ⟨hr.1, rfl, hr.2.2.1.at_env _ _, hr.2.2.2⟩
    · exact hr
    · exact hr
    · exact ⟨hr.1, rfl, hr.2.2.1.at_env _ _, hr.2.2.2⟩
  refine ⟨⟨w', hlater.trans hw, hresult⟩, fun e e' m₂ m₂' heq heq' => ?_⟩
  have hwithin : within E y m₁ = .abort (.error e') m₂' := heq'
  rw [within] at hwithin
  cases hy : y { m₁ with env := E } with
  | ok a m₃ =>
      rw [hy] at hwithin
      cases hwithin
  | abort r m₃ =>
      rw [hy] at hwithin
      cases hwithin
      exact hreports e e' m₂ m₃ heq hy

/-- The increment, in both runs. -/
theorem advance_endsAlike {p : Spot} {e e' : Expr Slot} (h : padding.ExprRel p e e')
    (ht : e.SameText e') (n : Nat) (he : Around w p m.env m'.env)
    (hm : padding.MachineRel w m m') :
    padding.EndsAlike w Comparison.anyUnit (eval n e >>= setLastValue)
      (eval n e' >>= setLastValue) m m' := by
  refine (padding.eval_endsAlike keepsText h ht he hm).bind fun w₁ m₁ m₁' v v' hl _ => ?_
  exact (Comparison.setLastValue_simulates v v' hl.machine).endsAlike
    (Comparison.reportsAlike_of_none (reportsIn_setLastValue v))

/-- What follows statements that complete alike, if it ends alike. -/
theorem andThen_endsAlike {x y u v : Eval Completion}
    (h : padding.EndsAlike w padding.CompletionRel u v m m')
    (hnext : ∀ w₁ m₁ m₁', padding.Left w m m' w₁ m₁ m₁' →
      padding.EndsAlike w₁ padding.CompletionRel x y m₁ m₁') :
    padding.EndsAlike w padding.CompletionRel (u >>= Completion.andThen x)
      (v >>= Completion.andThen y) m m' := by
  refine h.bind fun w₁ m₁ m₁' k k' hl hk => ?_
  cases hk with
  | normal => exact hnext w₁ m₁ m₁' hl
  | returned hv => exact Comparison.endsAlike_pure hl.machine (.returned hv)

/-- A round does the same in a scope of its own. -/
theorem round_endsAlike (h : Padded l l') (n : Nat) (he : Around w .plain m.env m'.env)
    (hm : padding.MachineRel w m m') :
    padding.EndsAlike w padding.CompletionRel (l.round n) (l'.enclosed n) m m' := by
  cases h with
  | plain hnone =>
      rw [round_of_none hnone, enclosed_of_none hnone]
      exact self_exec n l.body he hm
  | within hexpr hexprText hstmt hstmtText =>
      rw [enclosed_of_some rfl, round_eq, round_eq, advance_of_some rfl, advance_of_some rfl]
      refine endsAlike_scope he hm fun m₁' he₁ hm₁ => ?_
      refine andThen_endsAlike (stmt_endsAlike n hstmt hstmtText he₁ hm₁)
        fun w₂ m₂ m₂' hl₂ => ?_
      refine (advance_endsAlike hexpr hexprText n (hl₂.spot he₁) hl₂.machine).bind
        fun w₃ m₃ m₃' _ _ hl₃ _ => ?_
      exact Comparison.endsAlike_pure hl₃.machine .normal

theorem holds_endsAlike (h : Padded l l') (n : Nat) (he : Around w .plain m.env m'.env)
    (hm : padding.MachineRel w m m') :
    padding.EndsAlike w (fun _ => Eq) (l.holds n) (l'.holds n) m m' := by
  rw [holds, holds, h.condition]
  cases l.condition with
  | none => exact Comparison.endsAlike_pure hm rfl
  | some e =>
      refine (self_eval n e he hm).bind fun w₁ m₁ m₁' v v' hl hv => ?_
      exact Comparison.endsAlike_pure hl.machine hv.truthy

/-- Round by round both loops do the same. -/
theorem rounds_endsAlike (h : Padded l l') (n : Nat) (he : Around w .plain m.env m'.env)
    (hm : padding.MachineRel w m m') :
    padding.EndsAlike w padding.CompletionRel (l.rounds l.round n) (l'.rounds l'.enclosed n)
      m m' := by
  induction n generalizing w m m' with
  | zero => exact Comparison.endsAlike_spent hm
  | succ n ih =>
      rw [rounds_succ, rounds_succ]
      refine (holds_endsAlike h n he hm).bind fun w₁ m₁ m₁' more more' hl₁ heq => ?_
      subst heq
      have he₁ := hl₁.spot he
      cases more with
      | false => exact Comparison.endsAlike_pure hl₁.machine .normal
      | true =>
          exact andThen_endsAlike (round_endsAlike h n he₁ hl₁.machine) fun w₂ m₂ m₂' hl₂ =>
            ih (hl₂.spot he₁) hl₂.machine

/-- The loop, and the loop in the tree: both do the same with any budget. -/
theorem run_endsAlike (h : Padded l l') (n : Nat) (he : Around w .plain m.env m'.env)
    (hm : padding.MachineRel w m m') :
    padding.EndsAlike w padding.CompletionRel (l.run n) (l'.runWith l'.enclosed n) m m' := by
  cases hinitializer : l.initializer with
  | none =>
      rw [run, runWith_of_none hinitializer, runWith_of_none (h.initializer.trans hinitializer)]
      exact rounds_endsAlike h n he hm
  | some s =>
      rw [run, runWith_of_some hinitializer, runWith_of_some (h.initializer.trans hinitializer)]
      have henvironment := (Comparison.environment_simulates hm).endsAlike
        (Comparison.reportsAlike_of_none reportsIn_environment)
      refine henvironment.bind fun w₁ m₁ m₁' E E' hl₁ hE => ?_
      obtain ⟨rfl, rfl⟩ := hE
      have hopens : padding.Opens Spot.plain (.block []) (.block []) Spot.plain :=
        ⟨⟨rfl, nofun⟩, rfl⟩
      have henter : padding.EndsAlike w₁ _ (enter "block" m.env) (enter "block" m'.env) m₁ m₁' :=
        (Comparison.enter_simulates (n := n) hopens (he.later hl₁.later) hl₁.machine).endsAlike
          (Comparison.reportsAlike_of_none (reportsIn_enter _ _))
      refine henter.bind fun w₂ m₂ m₂' E E' hl₂ hE => .within ?_
      have he₂ : Around w₂ .plain { m₂ with env := E }.env { m₂' with env := E' }.env := hE
      refine (self_exec n s he₂ (hl₂.machine.at_env E E')).bind fun w₃ m₃ m₃' _ _ hl₃ _ => ?_
      exact rounds_endsAlike h n (hl₃.spot he₂) hl₃.machine

end ForLoop

/-! ## Resolving a loop -/

open Padding

theorem Stmt.after_of_declared? {y : Stmt Unit} (h : y.declared? = none) (s : Scopes) :
    y.after s = s := by
  cases y with
  | varDecl | function | classDecl => cases h
  | _ => rfl

namespace ForStatement

variable {f : ForStatement} {c : ClassKind} {s : Scopes}

/-- The loop with the slots that it has in the tree. -/
def padded (f : ForStatement) (c : ClassKind) (s : Scopes) : ForLoop :=
  match f.clauses.increment with
  | none => f.resolve c s
  | some e =>
    { f.resolve c s with
      increment := some (e.resolve c (f.scopes s).block)
      body := f.body.resolve c (f.scopes s).block }

theorem padded_of_none (h : f.clauses.increment = none) : f.padded c s = f.resolve c s := by
  rw [padded, h]

theorem padded_of_some {e : Expr Unit} (h : f.clauses.increment = some e) :
    f.padded c s =
      { f.resolve c s with
        increment := some (e.resolve c (f.scopes s).block)
        body := f.body.resolve c (f.scopes s).block } := by
  rw [padded, h]

theorem padded_condition : (f.padded c s).condition = (f.resolve c s).condition := by
  rw [padded]
  cases f.clauses.increment <;> rfl

theorem padded_initializer : (f.padded c s).initializer = (f.resolve c s).initializer := by
  rw [padded]
  cases f.clauses.increment <;> rfl

/-- The body of the loop in the tree. Nothing is declared between the body and the
increment. -/
theorem round_resolve :
    (f.clauses.increment.elim f.body fun e => .block [f.body, .expression e]).resolve c
      (f.scopes s) = (f.padded c s).roundTree := by
  cases h : f.clauses.increment with
  | none =>
      rw [padded_of_none h, ForLoop.roundTree_of_none (congrArg (Option.map _) h)]
      rfl
  | some e =>
      rw [padded_of_some h, ForLoop.roundTree_of_some rfl, Option.elim_some, Stmt.resolve,
        Stmt.resolveAll, Stmt.resolveAll, Stmt.resolveAll,
        Stmt.after_of_declared? f.body_declared?, Stmt.resolve]

theorem while_resolve :
    (Stmt.whileLoop (f.clauses.condition.getD (.literal (.bool true)))
      (f.clauses.increment.elim f.body fun e => .block [f.body, .expression e])).resolve c
      (f.scopes s) = (f.padded c s).whileTree := by
  rw [Stmt.resolve, round_resolve, ForLoop.whileTree, padded_condition, resolve]
  cases f.clauses.condition <;> rfl

/-- What resolution makes of the tree. -/
theorem tree_resolve (f : ForStatement) (c : ClassKind) (s : Scopes) :
    f.tree.resolve c s = (f.padded c s).tree := by
  rw [tree, Parse.loop_eq_whileForm, Grammar.whileForm, ForLoop.tree, padded_initializer, resolve]
  have hwhile := while_resolve (f := f) (c := c) (s := s)
  rw [scopes] at hwhile
  cases h : f.clauses.initializer with
  | none =>
      rw [h] at hwhile
      exact hwhile
  | some i =>
      rw [h] at hwhile
      rw [← hwhile]
      rfl

/-! ## What is known of the parts -/

theorem wellFormed_parts (h : f.tree.WellFormed) :
    (∀ i ∈ f.clauses.initializer, i.WellFormed) ∧
      (∀ e ∈ f.clauses.increment, e.WellFormed) ∧ f.body.WellFormed := by
  rw [tree, Parse.loop_eq_whileForm, Grammar.whileForm] at h
  have hround : ∀ x : Option (Expr Unit),
      (x.elim f.body fun e => .block [f.body, .expression e]).WellFormed →
        (∀ e ∈ x, e.WellFormed) ∧ f.body.WellFormed := by
    rintro (_ | e) hx
    · exact ⟨nofun, hx⟩
    · refine ⟨?_, hx.1⟩
      rintro _ ⟨⟩
      exact hx.2.1
  cases hi : f.clauses.initializer with
  | none =>
      rw [hi] at h
      exact ⟨nofun, hround _ h.2.1⟩
  | some i =>
      rw [hi] at h
      refine ⟨?_, hround _ h.2.1.2.1⟩
      rintro _ ⟨⟩
      exact h.1

/-- The scope of a superclass is not right around the loop. -/
theorem scopes_super (h : f.tree.WellFormed) (hs : s.distanceTo? superName ≠ some 0) :
    (f.scopes s).distanceTo? superName ≠ some 0 := by
  have hblock : Scopes.distanceTo? s.block superName ≠ some 0 := by
    intro heq
    rw [Scopes.block, Scopes.distanceTo?_cons] at heq
    obtain ⟨d, _, hd⟩ := Option.map_eq_some_iff.mp heq
    cases hd
  rw [scopes]
  cases hi : f.clauses.initializer with
  | none => exact hs
  | some i =>
      have hw := (wellFormed_parts h).1 i hi
      cases f.initializer_of_some hi with
      | expression => exact hblock
      | varDecl =>
          have hname : superName ≠ _ := (Token.IsName.ne_super hw.1).symm
          exact (Scopes.distanceTo?_define_of_ne hname).trans_ne hblock

/-- The loop that is meant, and the one in the tree. -/
theorem resolve_padded (h : f.tree.WellFormed) (hs : s.distanceTo? superName ≠ some 0) :
    (f.resolve c s).Padded (f.padded c s) := by
  cases hincrement : f.clauses.increment with
  | none =>
      rw [padded_of_none hincrement]
      exact .plain (congrArg (Option.map _) hincrement)
  | some e =>
      have hbase := scopes_super h hs
      obtain ⟨_, hwe, hwb⟩ := wellFormed_parts h
      have hresolve : f.resolve c s =
          { f.resolve c s with increment := some (e.resolve c (f.scopes s)) } := by
        rw [resolve, hincrement, Option.map_some]
      rw [padded_of_some hincrement, hresolve]
      refine .within (exprRel hbase c [] e (hwe e hincrement)) (e.sameText_resolve c _ _)
        (stmtRel hbase c [] f.body hwb fun t ht => ?_) (f.body.sameText_resolve c _ _)
      rw [f.body_declared?] at ht
      cases ht

end ForStatement

end Lox
