import Lox.Proofs.Activities
import Lox.Proofs.Simulation.Relations

/-!
# Steps that simulate each other

A judgment about two steps on related machines, and a rule for every way to build a
step. Two steps simulate each other if they end alike, in a later world, back in the
environments they began in; and if every activity of the first was begun with a
machine that some machine is related to, in a world that the final one knows of.
The first also has to announce every frame that it makes.
-/

namespace Lox

theorem Eval.bind_apply {α β : Type} (x : Eval α) (f : α → Eval β) (m : Machine) :
    (x >>= f) m = match x m with
      | .ok a m => f a m
      | .abort reason m => .abort reason m := rfl

theorem Eval.within_machine {α : Type} (E : Lox.Env) (x : Eval α) (m : Machine) :
    (within E x m).machine = { (x { m with env := E }).machine with env := m.env } := by
  rw [within]
  cases x { m with env := E } <;> rfl

theorem Eval.ok_of_within {α : Type} {E : Lox.Env} {x : Eval α} {m m' : Machine} {v : α}
    (h : within E x m = .ok v m') : ∃ m₁, x { m with env := E } = .ok v m₁ := by
  rw [within] at h
  cases hx : x { m with env := E } with
  | ok u m₁ =>
      rw [hx] at h
      cases h
      exact ⟨m₁, rfl⟩
  | abort r m₁ =>
      rw [hx] at h
      cases h

theorem Eval.reporting_machine {α : Type} (t : Token) (x : Eval α) (m : Machine) :
    (reporting t x m).machine = (x m).machine := by
  rw [reporting]
  rcases x m with _ | ⟨_ | _ | _ | _, _⟩ <;> rfl

theorem Eval.ok_of_reporting {α : Type} {t : Token} {x : Eval α} {m m' : Machine} {v : α}
    (h : reporting t x m = .ok v m') : x m = .ok v m' := by
  rw [reporting] at h
  rcases hx : x m with ⟨u, m₁⟩ | ⟨_ | _ | _ | _, m₁⟩
  · rw [hx] at h
    exact h
  all_goals
    rw [hx] at h
    cases h

theorem Machine.interpretWith_machine (budget : Nat) (m : Machine)
    (program : List (Stmt Slot)) :
    (m.interpretWith budget program).2 = (Eval.execUnit budget program m.fresh).machine := by
  rw [interpretWith]
  rcases Eval.execUnit budget program m.fresh with _ | ⟨_ | _ | _ | _, _⟩ <;> rfl

/-- The faults of references that do not find their frames. -/
def Fault.IsMiss : Fault → Prop
  | .distance _ => True
  | .unresolvedSuper => True
  | _ => False

namespace Comparison

variable (C : Comparison)

/-- Reasons to abort that are the same but for places and for the names of variables. -/
inductive AbortRel : Abort → Abort → Prop
  | error {fault : RuntimeFault} {t t' : Token} :
      AbortRel (.error ⟨fault, t⟩) (.error ⟨fault, t'⟩)
  | failure {message : String} : AbortRel (.failure message) (.failure message)
  | misplaced {f f' : DistanceFault} :
      C.Misses → AbortRel (.fault (.distance f)) (.fault (.distance f'))
  | fault {f : Fault} : (f.IsMiss → C.Misses) → AbortRel (.fault f) (.fault f)
  | spent : AbortRel .spent .spent

/-- Results that end alike, in the environments `E` and `E'`. -/
def ResultRel {α : Type} (w : C.World) (E E' : Lox.Env) (R : α → α → Prop) :
    Result α → Result α → Prop
  | .ok a m, .ok a' m' => m.env = E ∧ m'.env = E' ∧ C.MachineRel w m m' ∧ R a a'
  | .abort r m, .abort r' m' => m.env = E ∧ m'.env = E' ∧ C.MachineRel w m m' ∧ C.AbortRel r r'
  | _, _ => False

/-- Related tasks in the environments `E` and `E'`. -/
inductive TaskRel (w : C.World) (E E' : Lox.Env) : Task → Task → Prop
  | eval {p : C.Spot} {e e' : Expr Slot} :
      C.Env w p E E' → C.ExprRel p e e' → TaskRel w E E' (.eval e) (.eval e')
  | evalAll {p : C.Spot} {es es' : List (Expr Slot)} :
      C.Env w p E E' → C.ExprsRel p es es' → TaskRel w E E' (.evalAll es) (.evalAll es')
  | call {v v' : Value} {vs vs' : List Value} :
      C.ValueRel w v v' → List.Forall₂ (C.ValueRel w) vs vs' → v.arity? = some vs.length →
      TaskRel w E E' (.call v vs) (.call v' vs')
  | exec {p q : C.Spot} {s s' : Stmt Slot} :
      C.Env w p E E' → C.StmtRel p s s' q → TaskRel w E E' (.exec s) (.exec s')
  | execAll {p : C.Spot} {ss ss' : List (Stmt Slot)} :
      C.Env w p E E' → C.StmtsRel p ss ss' → TaskRel w E E' (.execAll ss) (.execAll ss')
  | loop {p : C.Spot} {c c' : Expr Slot} {s s' : Stmt Slot} :
      C.Env w p E E' → C.ExprRel p c c' → C.StmtRel p s s' p →
      TaskRel w E E' (.loop c s) (.loop c' s')
  | unit {p : C.Spot} {ss ss' : List (Stmt Slot)} :
      C.Env w p E E' → C.StmtsRel p ss ss' → TaskRel w E E' (.unit ss) (.unit ss')
  | opens {p q : C.Spot} {o o' : Opening} {D D' : Lox.Env} :
      C.Opens p o o' q → C.Env w q D D' → TaskRel w E E' (.opens o D) (.opens o' D')

/-- The activity is related to another one, in a world that `w` knows of. -/
def Matched (w : C.World) (a : Activity) : Prop :=
  ∃ w₀ t' m', C.Later w₀ w ∧ C.MachineRel w₀ a.machine m' ∧
    C.TaskRel w₀ a.machine.env m'.env a.task t'

/-- Every frame that the step makes is announced by an activity. -/
def Announces {α : Type} (vis : Visits) (x : Eval α) (m : Machine) : Prop :=
  ∀ k, m.frames.size ≤ k → k < (x m).machine.frames.size →
    ∃ a o E, vis m a ∧ a.task = .opens o (k :: E)

/-- From the machines `m` and `m'` the steps end alike, and what the first visits is
matched and announces its frames. -/
def Simulates {α : Type} (w : C.World) (R : C.World → α → α → Prop) (vis : Visits)
    (x y : Eval α) (m m' : Machine) : Prop :=
  ∃ w', C.Later w w' ∧ C.ResultRel w' m.env m'.env (R w') (x m) (y m') ∧
    (∀ a, vis m a → C.Matched w' a) ∧ Announces vis x m

variable {C} {α β : Type} {w : C.World} {m m' : Machine} {vis vis' : Visits}
  {R R' : C.World → α → α → Prop} {x y : Eval α}

theorem Matched.later {w' : C.World} {a : Activity} (h : C.Matched w a) (hw : C.Later w w') :
    C.Matched w' a := by
  obtain ⟨w₀, t', m', h₀, hm, ht⟩ := h
  exact ⟨w₀, t', m', C.later_trans h₀ hw, hm, ht⟩

theorem ResultRel.imp {E E' : Lox.Env} {R R' : α → α → Prop} {r r' : Result α}
    (h : C.ResultRel w E E' R r r') (hR : ∀ a a', R a a' → R' a a') :
    C.ResultRel w E E' R' r r' := by
  cases r <;> cases r'
  · exact ⟨h.1, h.2.1, h.2.2.1, hR _ _ h.2.2.2⟩
  · exact h
  · exact h
  · exact h

/-- A step that makes no frame need not announce any. -/
theorem announces_of_size (h : (x m).machine.frames.size ≤ m.frames.size) :
    Announces vis x m :=
  fun _ hk hk' => absurd (Nat.lt_of_lt_of_le hk' h) (Nat.not_lt.mpr hk)

theorem Simulates.imp (h : C.Simulates w R vis x y m m') (hvis : ∀ a, vis' m a ↔ vis m a)
    (hR : ∀ w' a a', C.Later w w' → R w' a a' → R' w' a a') :
    C.Simulates w R' vis' x y m m' := by
  obtain ⟨w', hw, hr, hv, hn⟩ := h
  refine ⟨w', hw, hr.imp fun a a' => hR w' a a' hw, fun a ha => hv a ((hvis a).mp ha), ?_⟩
  intro k hk hk'
  obtain ⟨a, o, E, ha, htask⟩ := hn k hk hk'
  exact ⟨a, o, E, (hvis a).mpr ha, htask⟩

/-- A step that ends where it began visits nothing. -/
theorem simulates_pure {a a' : α} (hm : C.MachineRel w m m') (h : R w a a') :
    C.Simulates w R .none (pure a) (pure a') m m' :=
  ⟨w, C.later_refl w, ⟨rfl, rfl, hm, h⟩, fun _ h => h.elim, announces_of_size (Nat.le_refl _)⟩

theorem simulates_abort {r r' : Abort} (hm : C.MachineRel w m m') (h : C.AbortRel r r') :
    C.Simulates w R .none (Eval.abort r) (Eval.abort r') m m' :=
  ⟨w, C.later_refl w, ⟨rfl, rfl, hm, h⟩, fun _ h => h.elim, announces_of_size (Nat.le_refl _)⟩

theorem simulates_error {fault : RuntimeFault} {t t' : Token} (hm : C.MachineRel w m m') :
    C.Simulates w R .none (Eval.error fault t) (Eval.error fault t') m m' :=
  simulates_abort hm .error

theorem simulates_fault {f : Fault} (hm : C.MachineRel w m m') (hf : f.IsMiss → C.Misses) :
    C.Simulates w R .none (Eval.fault f) (Eval.fault f) m m' :=
  simulates_abort hm (.fault hf)

/-- Machines that a step has left, with the world it ended in. -/
structure Left (C : Comparison) (w : C.World) (m m' : Machine) (w₁ : C.World)
    (m₁ m₁' : Machine) : Prop where
  later : C.Later w w₁
  machine : C.MachineRel w₁ m₁ m₁'
  env : m₁.env = m.env
  env' : m₁'.env = m'.env

/-- What was related for a spot still is. -/
theorem Left.spot {w₁ : C.World} {m₁ m₁' : Machine} {p : C.Spot}
    (h : C.Left w m m' w₁ m₁ m₁') (hp : C.Env w p m.env m'.env) :
    C.Env w₁ p m₁.env m₁'.env := by
  rw [h.env, h.env']
  exact C.env_later h.later hp

theorem Left.trans {w₁ w₂ : C.World} {m₁ m₁' m₂ m₂' : Machine} (h : C.Left w m m' w₁ m₁ m₁')
    (h' : C.Left w₁ m₁ m₁' w₂ m₂ m₂') : C.Left w m m' w₂ m₂ m₂' where
  later := C.later_trans h.later h'.later
  machine := h'.machine
  env := h'.env.trans h.env
  env' := h'.env'.trans h.env'

/-- What is related for the environments before is so for those after. -/
theorem Left.stay {w₁ w₂ : C.World} {m₁ m₁' : Machine} {p : C.Spot}
    (h : C.Left w m m' w₁ m₁ m₁') :
    C.Env w₂ p m.env m'.env ↔ C.Env w₂ p m₁.env m₁'.env := by
  rw [h.env, h.env']

/-- One step after another. -/
theorem Simulates.bind {P : C.World → β → β → Prop} {u v : Eval β} {f g : β → Eval α}
    {next : β → Visits} (h : C.Simulates w P vis u v m m')
    (hnext : ∀ w₁ m₁ m₁' b b', C.Left w m m' w₁ m₁ m₁' → u m = .ok b m₁ → P w₁ b b' →
      C.Simulates w₁ R (next b) (f b) (g b') m₁ m₁') :
    C.Simulates w R (vis.andThen u next) (u >>= f) (v >>= g) m m' := by
  obtain ⟨w₁, hw, hr, hv, hn⟩ := h
  have hbind := Eval.bind_apply u f m
  have hbind' := Eval.bind_apply v g m'
  cases hu : u m with
  | abort r m₁ =>
      cases hv' : v m' with
      | ok b' m₁' => rw [hu, hv'] at hr; exact hr.elim
      | abort r' m₁' =>
          rw [hu, hv'] at hr
          refine ⟨w₁, hw, ?_, fun a ha => ?_, fun k hk hk' => ?_⟩
          · rw [hbind, hbind', hu, hv']
            exact hr
          · rcases ha with ha | ⟨b, m₂, heq, _⟩
            · exact hv a ha
            · rw [hu] at heq
              cases heq
          · rw [hbind, hu] at hk'
            obtain ⟨a, o, E, ha, htask⟩ := hn k hk (by rw [hu]; exact hk')
            exact ⟨a, o, E, .inl ha, htask⟩
  | ok b m₁ =>
      cases hv' : v m' with
      | abort r' m₁' => rw [hu, hv'] at hr; exact hr.elim
      | ok b' m₁' =>
          rw [hu, hv'] at hr
          obtain ⟨henv, henv', hm₁, hP⟩ := hr
          obtain ⟨w₂, hw₂, hr₂, hv₂, hn₂⟩ := hnext w₁ m₁ m₁' b b' ⟨hw, hm₁, henv, henv'⟩ hu hP
          refine ⟨w₂, C.later_trans hw hw₂, ?_, fun a ha => ?_, fun k hk hk' => ?_⟩
          · rw [hbind, hbind', hu, hv', ← henv, ← henv']
            exact hr₂
          · rcases ha with ha | ⟨b₀, m₂, heq, ha⟩
            · exact (hv a ha).later hw₂
            · rw [hu] at heq
              cases heq
              exact hv₂ a ha
          · rw [hbind, hu] at hk'
            rcases Nat.lt_or_ge k m₁.frames.size with hlt | hge
            · obtain ⟨a, o, E, ha, htask⟩ := hn k hk (by rw [hu]; exact hlt)
              exact ⟨a, o, E, .inl ha, htask⟩
            · obtain ⟨a, o, E, ha, htask⟩ := hn₂ k hge hk'
              exact ⟨a, o, E, .inr ⟨b, m₁, hu, ha⟩, htask⟩

/-- A step after one that visits nothing. -/
theorem Simulates.after {P : C.World → β → β → Prop} {u v : Eval β} {f g : β → Eval α}
    {next : β → Visits} (h : C.Simulates w P .none u v m m')
    (hnext : ∀ w₁ m₁ m₁' b b', C.Left w m m' w₁ m₁ m₁' → u m = .ok b m₁ → P w₁ b b' →
      C.Simulates w₁ R (next b) (f b) (g b') m₁ m₁') :
    C.Simulates w R (.after u next) (u >>= f) (v >>= g) m m' :=
  (h.bind hnext).imp (fun _ => ⟨.inr, fun ha => ha.resolve_left id⟩) fun _ _ _ _ hR => hR

/-- A step that visits nothing after another. -/
theorem Simulates.map {P : C.World → β → β → Prop} {u v : Eval β} {f g : β → Eval α}
    (h : C.Simulates w P vis u v m m')
    (hnext : ∀ w₁ m₁ m₁' b b', C.Left w m m' w₁ m₁ m₁' → P w₁ b b' →
      C.Simulates w₁ R .none (f b) (g b') m₁ m₁') :
    C.Simulates w R vis (u >>= f) (v >>= g) m m' :=
  (h.bind fun w₁ m₁ m₁' b b' hl _ hP => hnext w₁ m₁ m₁' b b' hl hP).imp
    (fun _ => ⟨.inl, fun ha => ha.resolve_right fun ⟨_, _, _, h⟩ => h⟩) fun _ _ _ _ hR => hR

/-- Under a condition that holds, its activities are those of the step. -/
theorem Simulates.given {p : Prop} (h : p → C.Simulates w R vis x y m m') (hp : p) :
    C.Simulates w R (.given p vis) x y m m' :=
  (h hp).imp (fun _ => ⟨fun ha => ha.2, fun ha => ⟨hp, ha⟩⟩) fun _ _ _ _ hR => hR

/-- Under a condition that does not hold, nothing is visited. -/
theorem Simulates.not_given {p : Prop} (h : C.Simulates w R .none x y m m') (hp : ¬ p) :
    C.Simulates w R (.given p vis) x y m m' :=
  h.imp (fun _ => ⟨fun ha => hp ha.1, False.elim⟩) fun _ _ _ _ hR => hR

/-- Steps in environments of their own come back to where they began. -/
theorem Simulates.within {E E' : Lox.Env}
    (h : C.Simulates w R vis x y { m with env := E } { m' with env := E' }) :
    C.Simulates w R (.within E vis) (Eval.within E x) (Eval.within E' y) m m' := by
  obtain ⟨w', hw, hr, hv, hn⟩ := h
  have hframes : (Eval.within E x m).machine.frames = (x { m with env := E }).machine.frames := by
    rw [Eval.within_machine]
  refine ⟨w', hw, ?_, hv, fun k hk hk' => hn k hk (hframes ▸ hk')⟩
  simp only [Eval.within]
  cases hx : x { m with env := E } <;> cases hy : y { m' with env := E' }
  all_goals rw [hx, hy] at hr
  · obtain ⟨_, _, hm, hR⟩ := hr
    exact ⟨rfl, rfl, hm.at_env _ _, hR⟩
  · exact hr.elim
  · exact hr.elim
  · obtain ⟨_, _, hm, hR⟩ := hr
    exact ⟨rfl, rfl, hm.at_env _ _, hR⟩

/-- An error of a native function is reported alike at any place. -/
theorem Simulates.reporting {t t' : Token} (h : C.Simulates w R vis x y m m') :
    C.Simulates w R vis (Eval.reporting t x) (Eval.reporting t' y) m m' := by
  obtain ⟨w', hw, hr, hv, hn⟩ := h
  refine ⟨w', hw, ?_, hv, fun k hk hk' => hn k hk (Eval.reporting_machine t x m ▸ hk')⟩
  simp only [Eval.reporting]
  cases hx : x m <;> cases hy : y m'
  all_goals rw [hx, hy] at hr
  · exact hr
  · exact hr.elim
  · exact hr.elim
  · obtain ⟨he, he', hm, ha⟩ := hr
    cases ha with
    | failure => exact ⟨he, he', hm, .error⟩
    | error => exact ⟨he, he', hm, .error⟩
    | misplaced hmiss => exact ⟨he, he', hm, .misplaced hmiss⟩
    | fault hf => exact ⟨he, he', hm, .fault hf⟩
    | spent => exact ⟨he, he', hm, .spent⟩

/-- A related task may stand for a step that visits nothing. -/
theorem Simulates.adding {n : Nat} {t t' : Task} (h : C.Simulates w R .none x y m m')
    (hm : C.MachineRel w m m') (ht : C.TaskRel w m.env m'.env t t') :
    C.Simulates w R (.one n t) x y m m' := by
  obtain ⟨w', hw, hr, _, hn⟩ := h
  refine ⟨w', hw, hr, fun a ha => ?_, fun k hk hk' => ?_⟩
  · cases ha
    exact ⟨w, t', m', hw, hm, ht⟩
  · obtain ⟨_, _, _, ha, _⟩ := hn k hk hk'
    exact ha.elim

/-- An activity visits itself. -/
theorem Simulates.visits {n : Nat} {t t' : Task} (hm : C.MachineRel w m m')
    (ht : C.TaskRel w m.env m'.env t t')
    (h : C.Simulates w R (Eval.visitsInside n (Eval.visits n) t) x y m m') :
    C.Simulates w R (Eval.visits (n + 1) t) x y m m' := by
  obtain ⟨w', hw, hr, hv, hn⟩ := h
  refine ⟨w', hw, hr, fun a ha => ?_, fun k hk hk' => ?_⟩
  · rcases ha with rfl | ha
    · exact ⟨w, t', m', hw, hm, ht⟩
    · exact hv a ha
  · obtain ⟨a, o, E, ha, htask⟩ := hn k hk hk'
    exact ⟨a, o, E, .inr ha, htask⟩

theorem simulates_spent {t t' : Task} (hm : C.MachineRel w m m')
    (ht : C.TaskRel w m.env m'.env t t') :
    C.Simulates w R (Eval.visits 0 t) Eval.spent Eval.spent m m' := by
  refine ⟨w, C.later_refl w, ⟨rfl, rfl, hm, .spent⟩, fun a ha => ?_,
    announces_of_size (Nat.le_refl _)⟩
  cases ha
  exact ⟨w, t', m', C.later_refl w, hm, ht⟩

end Comparison
end Lox
