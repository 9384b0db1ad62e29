import Lox.Proofs.Completion
import Lox.Proofs.Dispatch.Surroundings
import Lox.Proofs.Returns.Traces

/-!
# The first return decides

How statements complete can be read off their trace. They reach their end if there is no
`return` in it. Else the trace ends with the first `return` and the evaluation of its
value, which is what the statements complete with, and nothing is changed after that.

The statements that run in a body, also in its blocks, its branches and its loops, stand where the
resolver knows the same function and class around them. So what it refuses does not happen there:
no `return` outside of functions, and none with a value in an initializer.
-/

namespace Lox

open Eval
open Trace (Every every_none every_one every_after every_opening)

/-- A `return` is run. -/
def Task.isReturn : Task → Bool
  | .exec (.ret _ _) => true
  | _ => false

/-- The activity is a `return` that gives the value: that of its expression, or nil without
one. The machine is the one that the evaluation of the expression left. -/
def Activity.Gives (r : Activity) (v : Value) (m : Machine) : Prop :=
  ∃ n keyword value, r.budget = n + 1 ∧ r.task = .exec (.ret keyword value) ∧
    ((value = none ∧ v = .nil ∧ m = r.machine) ∨
      ∃ e, value = some e ∧ eval n e r.machine = .ok v m)

/-- Statements with these activities complete so, with this machine. Without a `return`
they reach their end. The first `return` and its value are the last activities, and after
them only the environment changes. -/
def Completion.Ends (l : List Activity) (m : Machine) : Completion → Prop
  | .normal => ∀ a ∈ l, a.task.isReturn = false
  | .returned v => ∃ (before : List Activity) (r : Activity) (m₁ : Machine),
      l = before ++ Eval.steps r.budget r.task r.machine ∧
        (∀ a ∈ before, a.task.isReturn = false) ∧ r.Gives v m₁ ∧ m = { m₁ with env := m.env }

/-- Whenever the step completes, its trace ends so. -/
def Follows (t : Trace) (x : Eval Completion) : Prop :=
  ∀ m k m', x m = .ok k m' → k.Ends (t m) m'

namespace Completion.Ends

variable {l before : List Activity} {m : Machine} {k : Completion}

theorem append (h : k.Ends l m) (hbefore : ∀ a ∈ before, a.task.isReturn = false) :
    k.Ends (before ++ l) m := by
  cases k with
  | normal => exact List.forall_mem_append.mpr ⟨hbefore, h⟩
  | returned v =>
      obtain ⟨first, r, m₁, rfl, hfirst, h⟩ := h
      exact ⟨before ++ first, r, m₁, (List.append_assoc ..).symm,
        List.forall_mem_append.mpr ⟨hbefore, hfirst⟩, h⟩

theorem cons (h : k.Ends l m) {a : Activity} (ha : a.task.isReturn = false) :
    k.Ends (a :: l) m :=
  h.append (List.forall_mem_singleton.mpr ha)

theorem at_env (h : k.Ends l m) (E : Env) : k.Ends l { m with env := E } := by
  cases k with
  | normal => exact h
  | returned v =>
      obtain ⟨first, r, m₁, hl, hfirst, hgives, hm⟩ := h
      refine ⟨first, r, m₁, hl, hfirst, hgives, ?_⟩
      rw [hm]

end Completion.Ends

/-! ## Traces that are followed -/

section

variable {α : Type} {t : Trace} {x : Eval Completion} {y : Eval α}
  {f : α → Eval Completion} {next : α → Trace}

theorem follows_of_reachesEnd (ht : Every (·.task.isReturn = false) t) (hx : ReachesEnd x) :
    Follows t x := by
  intro m k m' h
  rw [hx m k m' h]
  exact ht m

theorem follows_after (hf : ∀ a, Follows (next a) (f a)) : Follows (.after y next) (y >>= f) := by
  intro m k m' h
  rw [bind_apply] at h
  rw [Trace.after]
  cases hy : y m with
  | ok a m₁ =>
      rw [hy] at h
      exact hf a m₁ k m' h
  | abort r m₁ =>
      rw [hy] at h
      cases h

/-- Expressions are evaluated before the statement is. -/
theorem follows_andThen (ht : Every (·.task.isReturn = false) t)
    (hf : ∀ a, Follows (next a) (f a)) : Follows (t.andThen y next) (y >>= f) :=
  fun m k m' h => (follows_after hf m k m' h).append (ht m)

/-- A statement is run before others, unless it returns. -/
theorem Follows.andThen {f : Completion → Eval Completion} {next : Completion → Trace}
    (h : Follows t x)
    (hreturned : ∀ v, f (.returned v) = pure (.returned v) ∧ next (.returned v) = .none)
    (hnormal : Follows (next .normal) (f .normal)) :
    Follows (t.andThen x next) (x >>= f) := by
  intro m k m' hk
  rw [bind_apply] at hk
  rw [Trace.andThen, Trace.after]
  cases hx : x m with
  | abort r m₁ =>
      rw [hx] at hk
      cases hk
  | ok k₁ m₁ =>
      have hfirst := h m k₁ m₁ hx
      rw [hx] at hk
      cases k₁ with
      | normal => exact (hnormal m₁ k m' hk).append hfirst
      | returned v =>
          -- nothing follows a return, neither in the run nor in the trace
          obtain ⟨hf, hnext⟩ := hreturned v
          dsimp only at hk ⊢
          rw [hf] at hk
          rw [hnext]
          cases hk
          exact (List.append_nil (t m)).symm ▸ hfirst

theorem Follows.within (h : Follows t x) (E : Env) : Follows (.within E t) (Eval.within E x) := by
  intro m k m' hk
  rw [Eval.within] at hk
  cases hx : x { m with env := E } with
  | abort r m₁ =>
      simp only [hx] at hk
      cases hk
  | ok k₁ m₁ =>
      simp only [hx] at hk
      have hends := h _ k₁ m₁ hx
      cases hk
      exact hends.at_env m.env

theorem Follows.given (h : Follows t x) (p : Prop) [Decidable p] :
    Follows (.given p t) (if p then x else pure .normal) := by
  intro m k m' hk
  rw [Trace.given]
  split at hk
  · next hp =>
      rw [if_pos hp]
      exact h m k m' hk
  · next hp =>
      rw [if_neg hp]
      cases hk
      exact fun _ ha => absurd ha List.not_mem_nil

/-- Inside of something that is no `return` itself. -/
theorem Follows.self {n : Nat} {task : Task} (h : Follows (stepsInside n (steps n) task) x)
    (htask : task.isReturn = false) : Follows (steps (n + 1) task) x := by
  exact fun m k m' hk => (h m k m' hk).cons htask

end

/-! ## Statements -/

/-- In an expression there is no `return`, other than in the functions that it calls. -/
theorem every_eval_no_return (n : Nat) (e : Expr Slot) :
    Every (·.task.isReturn = false) (steps n (.eval e)) := by
  refine (every_steps_expression n (t := .eval e) rfl).imp fun a ha => ?_
  cases htask : a.task with
  | exec s =>
      rw [htask] at ha
      cases ha
  | _ => rfl

theorem follows_ret (n : Nat) (keyword : Token) (value : Option (Expr Slot)) :
    Follows (steps (n + 1) (.exec (.ret keyword value))) (exec (n + 1) (.ret keyword value)) := by
  intro m k m' h
  cases value with
  | none =>
      rw [exec] at h
      cases h
      exact ⟨[], ⟨n + 1, .exec (.ret keyword none), m⟩, m, rfl,
        (fun _ ha => absurd ha List.not_mem_nil),
        ⟨n, keyword, none, rfl, rfl, .inl ⟨rfl, rfl, rfl⟩⟩, rfl⟩
  | some e =>
      rw [exec, bind_apply] at h
      cases he : eval n e m with
      | abort r m₁ =>
          rw [he] at h
          cases h
      | ok v m₁ =>
          rw [he] at h
          cases h
          exact ⟨[], ⟨n + 1, .exec (.ret keyword (some e)), m⟩, m', rfl,
            (fun _ ha => absurd ha List.not_mem_nil),
            ⟨n, keyword, some e, rfl, rfl, .inr ⟨e, rfl, he⟩⟩, rfl⟩

/-- With this budget the completion of statements follows their traces. -/
structure StatementsFollow (n : Nat) : Prop where
  exec : ∀ s, Follows (steps n (.exec s)) (exec n s)
  execAll : ∀ ss, Follows (steps n (.execAll ss)) (execAll n ss)
  loop : ∀ c s, Follows (steps n (.loop c s)) (loop n c s)

section

variable {n : Nat} (ih : StatementsFollow n)
include ih

theorem exec_follows (s : Stmt Slot) : Follows (steps (n + 1) (.exec s)) (exec (n + 1) s) := by
  cases s with
  | ret keyword value => exact follows_ret n keyword value
  | expression e =>
      refine Follows.self (follows_of_reachesEnd (every_eval_no_return n e) ?_) rfl
      exact (statementsReachEnd (n + 1)).exec _ rfl
  | print e =>
      refine Follows.self (follows_of_reachesEnd (every_eval_no_return n e) ?_) rfl
      exact (statementsReachEnd (n + 1)).exec _ rfl
  | varDecl name initializer =>
      refine Follows.self (follows_of_reachesEnd ?_ ?_) rfl
      · cases initializer with
        | none => exact every_none
        | some e => exact every_eval_no_return n e
      · exact (statementsReachEnd (n + 1)).exec _ rfl
  | block body =>
      rw [exec]
      -- that the frame is made comes first, and the body in it
      have hblock (outer : Env) := follows_andThen (y := enter "block" outer)
        (every_opening (n := n) (o := .block body) (x := enter "block" outer) fun _ _ => rfl)
        fun E => (ih.execAll body).within E
      refine Follows.self ?_ rfl
      exact follows_after (y := environment) hblock
  | ifThen c a =>
      rw [exec]
      refine Follows.self (follows_andThen (every_eval_no_return n c) fun v => ?_) rfl
      exact (ih.exec a).given (v.truthy = true)
  | ifElse c a b =>
      rw [exec]
      refine Follows.self (follows_andThen (every_eval_no_return n c) fun v => ?_) rfl
      split
      · exact ih.exec a
      · exact ih.exec b
  | whileLoop c a =>
      rw [exec]
      refine Follows.self ?_ rfl
      exact ih.loop c a
  | function f =>
      refine Follows.self (follows_of_reachesEnd every_none ?_) rfl
      exact (statementsReachEnd (n + 1)).exec _ rfl
  | classDecl name superclass methods =>
      refine Follows.self (follows_of_reachesEnd ?_ ?_) rfl
      · cases superclass with
        | none => exact every_none
        | some parent =>
            exact (every_one fun _ => rfl).andThen fun _ => every_after fun _ =>
              every_opening fun _ _ => rfl
      · exact (statementsReachEnd (n + 1)).exec _ rfl

theorem execAll_follows (ss : List (Stmt Slot)) :
    Follows (steps (n + 1) (.execAll ss)) (execAll (n + 1) ss) := by
  refine Follows.self ?_ rfl
  cases ss with
  | nil =>
      rw [execAll]
      exact follows_of_reachesEnd every_none reachesEnd_pure
  | cons s ss =>
      rw [execAll]
      exact (ih.exec s).andThen (fun v => ⟨rfl, rfl⟩) (ih.execAll ss)

theorem loop_follows (c : Expr Slot) (s : Stmt Slot) :
    Follows (steps (n + 1) (.loop c s)) (loop (n + 1) c s) := by
  rw [loop]
  refine Follows.self (follows_andThen (every_eval_no_return n c) fun v => ?_) rfl
  refine Follows.given ?_ (v.truthy = true)
  exact (ih.exec s).andThen (fun v => ⟨rfl, rfl⟩) (ih.loop c s)

end

/-- How statements complete is read off their traces. -/
theorem statementsFollow (n : Nat) : StatementsFollow n := by
  induction n with
  | zero =>
      constructor
      · intro s m k m' h
        rw [exec] at h
        cases h
      · intro ss m k m' h
        rw [execAll] at h
        cases h
      · intro c s m k m' h
        rw [loop] at h
        cases h
  | succ n ih => exact ⟨exec_follows ih, execAll_follows ih, loop_follows ih⟩

/-! ## Where a body returns -/

section

variable {programs : List (List (Stmt Slot))} {p : Place} {around : Surroundings}

/-- If a statement is run, it is one of the programs, with these kinds of function and class
around it. -/
def Activity.StandsIn (programs : List (List (Stmt Slot))) (around : Surroundings)
    (a : Activity) : Prop :=
  ∀ s, a.task = .exec s → ∃ p, Occurs programs p (.stmt s) ∧ p.surroundings = around

/-! ## Statements of a body -/

theorem every_eval_standsIn (n : Nat) (e : Expr Slot) :
    Every (·.StandsIn programs around) (steps n (.eval e)) := by
  refine (every_steps_expression n (t := .eval e) rfl).imp fun a ha s htask => ?_
  rw [htask] at ha
  cases ha

/-- With this budget the statements that run in a body stand where the body does. -/
structure StatementsStand (programs : List (List (Stmt Slot))) (n : Nat) : Prop where
  exec : ∀ {p s}, Occurs programs p (.stmt s) →
    Every (·.StandsIn programs p.surroundings) (steps n (.exec s))
  execAll : ∀ {p ss}, Occurs programs p (.body ss) →
    Every (·.StandsIn programs p.surroundings) (steps n (.execAll ss))
  loop : ∀ {p c s}, Occurs programs p (.stmt s) →
    Every (·.StandsIn programs p.surroundings) (steps n (.loop c s))

section

variable {n : Nat} (ih : StatementsStand programs n)
include ih

theorem exec_stands {s : Stmt Slot} (h : Occurs programs p (.stmt s)) :
    Every (·.StandsIn programs p.surroundings) (steps (n + 1) (.exec s)) := by
  refine every_steps_succ (fun m t ht => ?_) ?_
  · cases ht
    exact ⟨p, h, rfl⟩
  cases s with
  | expression e | print e => exact every_eval_standsIn n e
  | varDecl name initializer =>
      cases initializer with
      | none => exact every_none
      | some e => exact every_eval_standsIn n e
  | block body =>
      have hbody := ih.execAll (h.inside List.mem_cons_self)
      have hopening (outer : Env) : Every (·.StandsIn programs p.surroundings)
          (.opening n (.block body) (enter "block" outer)) :=
        every_opening fun E m s hs => by cases hs
      have hblock (outer : Env) :=
        (hopening outer).andThen (x := enter "block" outer) hbody.within
      exact every_after (x := environment) hblock
  | ifThen c a =>
      refine (every_eval_standsIn n c).andThen fun v => Every.given ?_ _
      exact ih.exec (h.inside (List.mem_cons_of_mem _ List.mem_cons_self))
  | ifElse c a b =>
      refine (every_eval_standsIn n c).andThen fun v => ?_
      split
      · exact ih.exec (h.inside (by simp [Fragment.inside]))
      · exact ih.exec (h.inside (by simp [Fragment.inside]))
  | whileLoop c a => exact ih.loop (h.inside (List.mem_cons_of_mem _ List.mem_cons_self))
  | function f => exact every_none
  | ret keyword value =>
      cases value with
      | none => exact every_none
      | some e => exact every_eval_standsIn n e
  | classDecl name superclass methods =>
      cases superclass with
      | none => exact every_none
      | some parent =>
          refine (every_one fun m s hs => by cases hs).andThen fun _ => every_after fun _ => ?_
          exact every_opening fun E m s hs => by cases hs

theorem execAll_stands {ss : List (Stmt Slot)} (h : Occurs programs p (.body ss)) :
    Every (·.StandsIn programs p.surroundings) (steps (n + 1) (.execAll ss)) := by
  refine every_steps_succ (fun m t ht => by cases ht) ?_
  cases ss with
  | nil => exact every_none
  | cons s ss =>
      have hrest := ih.execAll (h.inside (List.mem_cons_of_mem _ List.mem_cons_self))
      rw [Place.surroundings_after] at hrest
      refine (ih.exec (h.inside List.mem_cons_self)).andThen fun k => ?_
      cases k with
      | normal => exact hrest
      | returned v => exact every_none

theorem loop_stands {c : Expr Slot} {s : Stmt Slot} (h : Occurs programs p (.stmt s)) :
    Every (·.StandsIn programs p.surroundings) (steps (n + 1) (.loop c s)) := by
  refine every_steps_succ (fun m t ht => by cases ht) ?_
  refine (every_eval_standsIn n c).andThen fun v => Every.given ?_ _
  refine (ih.exec h).andThen fun k => ?_
  cases k with
  | normal => exact ih.loop h
  | returned v => exact every_none

end

theorem statementsStand (programs : List (List (Stmt Slot))) (n : Nat) :
    StatementsStand programs n := by
  induction n with
  | zero =>
      constructor
      · intro p s h
        refine every_one fun m t ht => ?_
        cases ht
        exact ⟨p, h, rfl⟩
      · exact fun _ => every_one fun m t ht => by cases ht
      · exact fun _ => every_one fun m t ht => by cases ht
  | succ n ih => exact ⟨exec_stands ih, execAll_stands ih, loop_stands ih⟩

/-! ## Refused returns -/

/-- A `return` is in a function, and has no value in an initializer. -/
theorem Occurs.ret (haccepted : ∀ program ∈ programs, Accepted program) {keyword : Token}
    {value : Option (Expr Slot)} (h : Occurs programs p (.stmt (.ret keyword value))) :
    p.surroundings.function ≠ .none ∧
      (p.surroundings.function = .initializer → value = none) := by
  obtain ⟨_, s, y, _, hf, heq⟩ := h.surrounded haccepted
  cases y with
  | ret keyword' value' =>
      cases heq
      obtain ⟨hreturn, _⟩ := List.append_eq_nil_iff.mp hf
      obtain ⟨hnone, hvalue⟩ := List.append_eq_nil_iff.mp hreturn
      refine ⟨fun heq => ?_, fun heq => ?_⟩
      · rw [if_pos heq] at hnone
        cases hnone
      · cases value' with
        | none => rfl
        | some e =>
            rw [if_pos ⟨rfl, heq⟩] at hvalue
            cases hvalue
  | _ => cases heq

theorem mem_steps_self (n : Nat) (t : Task) (m : Machine) : ⟨n, t, m⟩ ∈ steps n t m := by
  cases n with
  | zero => exact List.mem_singleton.mpr rfl
  | succ n => exact List.mem_cons_self

/-- What statements return is nil if they stand in an initializer, and they do not return
outside of functions. -/
theorem Completion.Ends.returned (haccepted : ∀ program ∈ programs, Accepted program)
    {l : List Activity} {m : Machine} {v : Value} (h : Completion.Ends l m (.returned v))
    (hl : ∀ a ∈ l, a.StandsIn programs around) :
    around.function ≠ .none ∧ (around.function = .initializer → v = .nil) := by
  obtain ⟨before, r, m₁, rfl, _, ⟨n, keyword, value, _, htask, hvalue⟩, _⟩ := h
  have hr := hl r (List.mem_append_right before (mem_steps_self r.budget r.task r.machine))
  obtain ⟨p, hoccurs, rfl⟩ := hr _ htask
  obtain ⟨hfunction, hinitializer⟩ := hoccurs.ret haccepted
  refine ⟨hfunction, fun hk => ?_⟩
  rcases hvalue with ⟨_, hv, _⟩ | ⟨e, he, _⟩
  · exact hv
  · rw [hinitializer hk] at he
    cases he

end

end Lox
