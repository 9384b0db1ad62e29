import Lox.Proofs.Forests
import Lox.Proofs.Scoping.Order
import Mathlib.Logic.Relation

/-!
# Distances predict what a search finds

A stack of scopes stands beside an environment: for every scope there is a frame that binds the
names of the scope and no others, and outermost there is a frame for which no scope stands. The
position of a scope that declares a name is then the distance of the nearest frame that binds
it, and a name that no scope declares can only be bound outermost.

Scopes and frames stay side by side as long as they change together. What has to be excluded is
that a name that is bound at one level appears at another one too, and in a forest it cannot,
since an environment comes by each frame once.
-/

namespace Lox

namespace Frames

variable {α : Type}

/-- The environment has for every scope a frame that binds exactly the names of the scope, and
behind them the frame `root`. -/
inductive Matches (F : Frames α) (root : FrameId) : Scopes → Env → Prop
  | root : Matches F root [] [root]
  | level {scope : Scope} {s : Scopes} {k : FrameId} {E : Env} :
      (∀ name, scope.isDeclared name = (F.binding? k name).isSome) → Matches F root s E →
      Matches F root (scope :: s) (k :: E)

/-- To define a name is to assign it without a hop. -/
theorem assignAt_zero (F : Frames α) {E : Env} (hE : E ≠ []) (name : String) (v : α) :
    F.assignAt E 0 name v = .ok (F.define E name v) := by
  cases E with
  | nil => exact absurd rfl hE
  | cons k E => rfl

namespace Matches

variable {F F' : Frames α} {root : FrameId} {s : Scopes} {E : Env} {name : String}

/-- Where the scopes have a name, the nearest frame that binds it is found. -/
theorem nearestAt (h : F.Matches root s E) {d : Nat} (hd : s.distanceTo? name = some d) :
    F.NearestAt E name d := by
  induction h generalizing d with
  | root => cases hd
  | @level scope s k E hk h ih =>
      rw [Scopes.distanceTo?_cons] at hd
      by_cases hdeclared : scope.isDeclared name = true
      · rw [if_pos hdeclared] at hd
        cases hd
        exact nearestAt_zero (by rw [← hk, hdeclared])
      · rw [if_neg hdeclared] at hd
        obtain ⟨e, he, rfl⟩ := Option.map_eq_some_iff.mp hd
        refine (nearestAt_succ ?_).mpr (ih he)
        rw [hk] at hdeclared
        simpa using hdeclared

/-- A name that no scope has is searched outermost. -/
theorem get?_root (h : F.Matches root s E) (hd : s.distanceTo? name = none) :
    F.get? E name = F.binding? root name := by
  induction h with
  | root => simp [get?]
  | @level scope s k E hk h ih =>
      rw [Scopes.distanceTo?_cons] at hd
      by_cases hdeclared : scope.isDeclared name = true
      · rw [if_pos hdeclared] at hd
        cases hd
      · rw [if_neg hdeclared, Option.map_eq_none_iff] at hd
        have hunbound : F.binding? k name = none := by
          rw [hk] at hdeclared
          simpa using hdeclared
        rw [get?_cons, hunbound, Option.none_or, ih hd]

theorem ne_nil (h : F.Matches root s E) : E ≠ [] := by
  cases h <;> simp

/-- It is only the names that the frames of the environment bind that count. -/
theorem congr (h : F.Matches root s E)
    (hsame : ∀ k ∈ E, ∀ n, (F'.binding? k n).isSome = (F.binding? k n).isSome) :
    F'.Matches root s E := by
  induction h with
  | root => exact .root
  | level hk h ih =>
      refine .level (fun n => ?_) (ih fun j hj => hsame j (List.mem_cons_of_mem _ hj))
      rw [hk, hsame _ List.mem_cons_self]

/-- A new scope without names goes beside a new frame. -/
theorem enter (h : F.Matches root s E) (scopeLabel label : String) :
    (F.enter label E).2.Matches root ({ label := scopeLabel } :: s) (F.enter label E).1 := by
  rw [env_enter]
  refine .level (fun n => ?_) (h.congr fun k _ n => by rw [binding?_enter])
  rw [binding?_enter, binding?_of_size_le (Nat.le_refl _)]
  rfl

/-- A name is declared in one of the scopes and bound in the frame beside it. -/
theorem bindAt (h : F.Matches root s E) (hE : E.Nodup) {d : Nat} {k : FrameId}
    (hk : E[d]? = some k) (hsize : k < F.size) {mark : Scope → Scope}
    (hmark : ∀ scope n, (mark scope).isDeclared n = true ↔ n = name ∨ scope.isDeclared n = true)
    (v : α) : (F.bind k name v).Matches root (s.modify d mark) E := by
  induction h generalizing d with
  | root =>
      rw [List.modify_nil]
      exact .root
  | @level scope s j E hj h ih =>
      obtain ⟨hnotmem, hnodup⟩ := List.nodup_cons.mp hE
      cases d with
      | zero =>
          cases hk
          refine .level (fun n => ?_) (h.congr fun i hi n => ?_)
          · rw [binding?_bind F hsize, Bool.eq_iff_iff, hmark, hj]
            by_cases hn : n = name <;> simp [hn]
          · have hne : ¬ (i = k ∧ n = name) := by
              rintro ⟨rfl, _⟩
              exact hnotmem hi
            rw [binding?_bind F hsize, if_neg hne]
      | succ d =>
          rw [List.getElem?_cons_succ] at hk
          have hne : j ≠ k := by
            rintro rfl
            exact hnotmem (List.mem_of_getElem? hk)
          refine .level (fun n => ?_) (ih hnodup hk)
          rw [hj, binding?_bind F hsize, if_neg fun h => hne h.1]

end Matches

end Frames

/-! ## Scopes beside an environment -/

/-- A stack of scopes and an environment of a forest. -/
structure Paired (α : Type) where
  forest : Forest α
  scopes : Scopes
  env : Env

namespace Paired

variable {α : Type}

/-- Scopes and frames change together. -/
inductive Step : Paired α → Paired α → Prop
  /-- A new scope is pushed, and a new frame is made. -/
  | push {f : Forest α} {s : Scopes} {E : Env} (scopeLabel label : String) :
      Step ⟨f, s, E⟩
        ⟨f.make label E, { label := scopeLabel } :: s, (f.frames.enter label E).1⟩
  /-- A scope that has names is pushed, beside a frame inside the environment that binds the
  same names. -/
  | inside {f : Forest α} {scope : Scope} {s : Scopes} {k : FrameId} {E : Env} :
      k :: E ∈ f.envs → (∀ name, scope.isDeclared name = (f.frames.binding? k name).isSome) →
      Step ⟨f, s, E⟩ ⟨f, scope :: s, k :: E⟩
  | pop {f : Forest α} {scope : Scope} {s : Scopes} {k : FrameId} {E : Env} :
      Step ⟨f, scope :: s, k :: E⟩ ⟨f, s, E⟩
  | declare {f : Forest α} {s : Scopes} {E : Env} (name : String) (v : α) :
      Step ⟨f, s, E⟩ ⟨{ f with frames := f.frames.define E name v }, s.declare name, E⟩
  | define {f : Forest α} {s : Scopes} {E : Env} (name : String) (v : α) :
      Step ⟨f, s, E⟩ ⟨{ f with frames := f.frames.define E name v }, s.define name, E⟩
  /-- The same some levels further out. -/
  | declareAt {f : Forest α} {F : Frames α} {s : Scopes} {E : Env} {d : Nat} {name : String}
      {v : α} : f.frames.assignAt E d name v = .ok F →
      Step ⟨f, s, E⟩ ⟨{ f with frames := F }, s.modify d (·.declare name), E⟩
  | defineAt {f : Forest α} {F : Frames α} {s : Scopes} {E : Env} {d : Nat} {name : String}
      {v : α} : f.frames.assignAt E d name v = .ok F →
      Step ⟨f, s, E⟩ ⟨{ f with frames := F }, s.modify d (·.define name), E⟩

/-- Where the scopes have a name, by name one finds what is at the distance that they give. What
they do not have, by name one finds outermost or nowhere. -/
structure Predicts (p : Paired α) (root : FrameId) : Prop where
  inner : ∀ name d, p.scopes.distanceTo? name = some d →
    ∃ v, p.forest.frames.get? p.env name = some v ∧ p.forest.frames.getAt p.env d name = .ok v
  outermost : ∀ name, p.scopes.distanceTo? name = none →
    p.forest.frames.get? p.env name = p.forest.frames.binding? root name

/-- The scopes stand beside an environment of the forest. -/
structure Along (p : Paired α) (root : FrameId) : Prop where
  standing : p.forest.Standing
  env : p.env ∈ p.forest.envs
  levels : p.forest.frames.Matches root p.scopes p.env

variable {p p' : Paired α} {f : Forest α} {s : Scopes} {E : Env} {root : FrameId}

theorem Along.predicts (h : p.Along root) : p.Predicts root where
  inner := by
    intro name d hd
    obtain ⟨k, v, hhop, hv, hget, _⟩ := (h.levels.nearestAt hd).found
    exact ⟨v, hget, Frames.getAt_eq hhop hv⟩
  outermost := fun _ => h.levels.get?_root

/-- A name is bound and declared at one level. -/
theorem Along.bindAt (h : Along ⟨f, s, E⟩ root) {d : Nat} {name : String} {v : α} {F : Frames α}
    (hF : f.frames.assignAt E d name v = .ok F) {mark : Scope → Scope}
    (hmark : ∀ scope n, (mark scope).isDeclared n = true ↔ n = name ∨ scope.isDeclared n = true) :
    Along ⟨{ f with frames := F }, s.modify d mark, E⟩ root := by
  have hhas : f.Has E := .inr h.env
  rw [Frames.assignAt] at hF
  split at hF
  · cases hF
  · next k hk =>
      cases hF
      have hnodup : E.Nodup := (h.standing.pairwise hhas).imp Nat.ne_of_gt
      have hsize := h.standing.lt_size hhas (List.mem_of_getElem? hk)
      exact ⟨h.standing.of_envs rfl (Frames.size_bind ..), h.env,
        h.levels.bindAt hnodup hk hsize hmark v⟩

theorem Along.step (h : p.Along root) (hstep : p.Step p') : p'.Along root := by
  cases hstep with
  | push scopeLabel label =>
      obtain ⟨i, hi⟩ := Array.mem_iff_getElem?.mp h.env
      refine ⟨h.standing.make label (.inr ⟨i, hi⟩), Array.mem_push_self, ?_⟩
      exact h.levels.enter scopeLabel label
  | inside hE hnames => exact ⟨h.standing, hE, .level hnames h.levels⟩
  | pop =>
      cases h.levels with
      | level _ hlevels =>
          have houter := (h.standing.has (.inr h.env)).2
          exact ⟨h.standing, houter.resolve_left hlevels.ne_nil, hlevels⟩
  | @declare _ s _ name v =>
      have hmodify : s.declare name = s.modify 0 (·.declare name) := by cases s <;> rfl
      rw [hmodify]
      exact h.bindAt (Frames.assignAt_zero _ h.levels.ne_nil name v) fun scope n =>
        Scope.isDeclared_declare scope name n
  | @define _ s _ name v =>
      have hmodify : s.define name = s.modify 0 (·.define name) := by cases s <;> rfl
      rw [hmodify]
      exact h.bindAt (Frames.assignAt_zero _ h.levels.ne_nil name v) fun scope n =>
        Scope.isDeclared_define scope name n
  | @declareAt _ _ _ _ _ name _ hF =>
      exact h.bindAt hF fun scope n => Scope.isDeclared_declare scope name n
  | @defineAt _ _ _ _ _ name _ hF =>
      exact h.bindAt hF fun scope n => Scope.isDeclared_define scope name n

theorem Along.steps (h : p.Along root) (hsteps : Relation.ReflTransGen Step p p') :
    p'.Along root := by
  induction hsteps with
  | refl => exact h
  | tail _ hstep ih => exact ih.step hstep

/-- Scopes that match an environment of a forest, level by level, predict what is found from
there, and so they do after all that is done to scopes and frames together. -/
theorem predicts_kept (ops : List (Forest.Operation α)) (hE : E ∈ (Forest.grown ops).envs)
    (hlevels : (Forest.grown ops).frames.Matches root s E)
    (hsteps : Relation.ReflTransGen Step ⟨Forest.grown ops, s, E⟩ p) :
    p.forest.frames.Matches root p.scopes p.env ∧ p.Predicts root := by
  have hstart : Along ⟨Forest.grown ops, s, E⟩ root :=
    ⟨Forest.standing_grown ops, hE, hlevels⟩
  have hend := hstart.steps hsteps
  exact ⟨hend.levels, hend.predicts⟩

/-- From the globals into a function that has a variable of the same name as one of them, and on
into a block. -/
theorem predicts_kept_shadowed :
    let f : Forest Nat := Forest.grown
      [.new "globals" none, .define 0 "a" 1, .define 0 "x" 4]
    [0] ∈ f.envs ∧ f.frames.Matches 0 [] [0] ∧
      ∃ p, Relation.ReflTransGen Step ⟨f, [], [0]⟩ p ∧ p.env = [2, 1, 0] ∧
        p.scopes.distanceTo? "a" = some 1 ∧ p.forest.frames.get? p.env "a" = some 2 ∧
        p.scopes.distanceTo? "x" = none ∧ p.forest.frames.get? p.env "x" = some 4 ∧
        p.forest.frames.Matches 0 p.scopes p.env ∧ p.Predicts 0 := by
  intro f
  have hE : [0] ∈ f.envs := by decide +kernel
  have hsteps := ((Relation.ReflTransGen.refl (r := Step) (a := ⟨f, [], [0]⟩)).tail
    (.push "f" "f")).tail (.define "a" 2) |>.tail (.push "block" "block")
  refine ⟨hE, .root, _, hsteps, rfl, by decide +kernel, by decide +kernel, by decide +kernel,
    by decide +kernel, ?_⟩
  exact predicts_kept _ hE .root hsteps

end Paired

end Lox
