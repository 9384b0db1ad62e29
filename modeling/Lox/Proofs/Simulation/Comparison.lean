import Lox.Proofs.Activities
import Lox.Proofs.Frames
import Mathlib.Data.List.Forall2

/-!
# Comparing two runs

Two runs of the evaluator that differ in their frames and in how their references
find them, and in nothing else, do the same. What the difference is depends on the
purpose, so it is a parameter: a `Comparison`.

A comparison has worlds and spots. A world is what is known about the frames that
were made up to some moment, and knowledge only grows. A spot is a place in the
text, with what is known there about the scopes around it. Environments are related
at a world for a spot. The fields that are laws say that every operation on frames
keeps things related, in the same or in a later world; nothing else of the evaluator
touches frames, so nothing else has to be assumed.

In one kind of comparison the second store keeps each variable of the first in another frame or
under another name, as long as no two variables share a place. What binds and what looks up a
variable in the first store then does the same in the second, at the variable's place there.
-/

namespace Lox

/-- Tokens that read the same, wherever they stand. -/
structure Token.Alike (t t' : Token) : Prop where
  kind : t.kind = t'.kind
  lexeme : t.lexeme = t'.lexeme

/-- The tokens are replaced by others that read the same. -/
def KeepsTexts (f : Token → Token) : Prop :=
  ∀ t : Token, t.Alike (f t)

/-- Why a variable was not found: it is not where its distance says, or no global
has its name. -/
inductive Missing where
  | misplaced (fault : DistanceFault)
  | undefined

namespace Frames

variable {α : Type}

/-- The variable that a reference finds. -/
def seek (frames : Frames α) (env : Env) (name : String) : Slot → Except Missing α
  | some distance => (frames.getAt env distance name).mapError .misplaced
  | none =>
    match frames.get? globalEnv name with
    | some v => .ok v
    | none => .error .undefined

/-- What a reference finds is bound in some frame. -/
theorem exists_binding?_of_seek {F : Frames α} {E : Env} {name : String} {slot : Slot} {v : α}
    (h : F.seek E name slot = .ok v) : ∃ k, F.binding? k name = some v := by
  cases slot with
  | none =>
      simp only [seek, get?_globalEnv] at h
      split at h
      · next u hu =>
          cases h
          exact ⟨0, hu⟩
      · cases h
  | some d =>
      simp only [seek] at h
      cases hx : F.getAt E d name with
      | ok u =>
          rw [hx] at h
          cases h
          exact exists_binding?_of_getAt hx
      | error f =>
          rw [hx] at h
          cases h

/-- The frame that an assignment changes. -/
def target (frames : Frames α) (env : Env) (name : String) : Slot → Except Missing FrameId
  | some distance =>
    match env[distance]? with
    | some id => .ok id
    | none => .error (.misplaced .pastRoot)
  | none =>
    match frames.owner? globalEnv name with
    | some id => .ok id
    | none => .error .undefined

/-- Binds names in the innermost frame of an environment, one after the other. -/
def defineAll (frames : Frames α) (env : Env) : List (String × α) → Frames α
  | [] => frames
  | (name, v) :: rest => defineAll (frames.define env name v) env rest

@[simp]
theorem size_defineAll (F : Frames α) (E : Env) (l : List (String × α)) :
    (F.defineAll E l).size = F.size := by
  induction l generalizing F with
  | nil => rfl
  | cons x rest ih => exact (ih _).trans (size_define F E x.1 x.2)

end Frames

/-- A way to relate values. -/
abbrev ValueRelation := Value → Value → Prop

/-- The second relation relates all that the first does. -/
def ValueRelation.Extends (V V' : ValueRelation) : Prop :=
  ∀ v v', V v v' → V' v v'

/-- Two searches that end alike: both find something, or both fail for the same
kind of reason. That a distance is wrong is a reason only where `misses` allows it. -/
inductive SameSearch {α : Type} (misses : Prop) (R : α → α → Prop) :
    Except Missing α → Except Missing α → Prop
  | found {a a' : α} : R a a' → SameSearch misses R (.ok a) (.ok a')
  | misplaced {f f' : DistanceFault} :
      misses → SameSearch misses R (.error (.misplaced f)) (.error (.misplaced f'))
  | undefined : SameSearch misses R (.error .undefined) (.error .undefined)

/-- Searches by distance that end alike. -/
theorem SameSearch.getAt_cases {misses : Prop} {V : ValueRelation} {F F' : Frames Value}
    {E E' : Env} {d d' : Nat} {name : String}
    (h : SameSearch misses V (F.seek E name (some d)) (F'.seek E' name (some d'))) :
    (misses ∧ ∃ f f', F.getAt E d name = .error f ∧ F'.getAt E' d' name = .error f') ∨
      ∃ v v', F.getAt E d name = .ok v ∧ F'.getAt E' d' name = .ok v' ∧ V v v' := by
  simp only [Frames.seek] at h
  cases hf : F.getAt E d name <;> cases hf' : F'.getAt E' d' name
  all_goals rw [hf, hf'] at h
  · cases h with
    | misplaced hmiss => exact .inl ⟨hmiss, _, _, rfl, rfl⟩
  · cases h
  · cases h
  · cases h with
    | found hv => exact .inr ⟨_, _, rfl, rfl, hv⟩

/-- What two runs are compared by. -/
structure Comparison where
  /-- Can a reference fail to find its frame? -/
  Misses : Prop
  /-- What the second run has printed already when the first one begins. -/
  past : Array String := #[]
  World : Type
  /-- The second world knows all that the first does. -/
  Later : World → World → Prop
  Spot : Type
  /-- The environments are related for code at the spot. -/
  Env : World → Spot → Lox.Env → Lox.Env → Prop
  /-- The stores are related, given how values are. -/
  Store : World → ValueRelation → Frames Value → Frames Value → Prop
  /-- References that mean the same. -/
  Refers : Spot → Expr Slot → Expr Slot → Prop
  /-- Declarations of a name, with the spot of the initializer and that after them. -/
  Declares : Spot → Token → Token → Spot → Spot → Prop
  /-- Scopes that are opened, with the spot inside. -/
  Opens : Spot → Opening → Opening → Spot → Prop
  later_refl (w : World) : Later w w
  later_trans {u v w : World} : Later u v → Later v w → Later u w
  env_later {w w' : World} {p : Spot} {E E' : Lox.Env} : Later w w' → Env w p E E' → Env w' p E E'
  seek {w : World} {V : ValueRelation} {p : Spot} {E E' : Lox.Env} {F F' : Frames Value}
    {t t' : Token} {slot slot' : Slot} {node : Token → Slot → Expr Slot} :
    node = .var ∨ node = .thisRef → Refers p (node t slot) (node t' slot') → Env w p E E' →
      Store w V F F' →
      SameSearch Misses V (F.seek E t.lexeme slot) (F'.seek E' t'.lexeme slot')
  target {w : World} {V : ValueRelation} {p : Spot} {E E' : Lox.Env} {F F' : Frames Value}
    {t t' : Token} {slot slot' : Slot} {e e' : Expr Slot} :
    Refers p (.assign t slot e) (.assign t' slot' e') → Env w p E E' → Store w V F F' →
      SameSearch Misses
        (fun id id' => ∃ w', Later w w' ∧ ∀ V' v v', V.Extends V' → V' v v' →
          Store w' V' (F.bind id t.lexeme v) (F'.bind id' t'.lexeme v'))
        (F.target E t.lexeme slot) (F'.target E' t'.lexeme slot')
  superclass {w : World} {V : ValueRelation} {p : Spot} {E E' : Lox.Env} {F F' : Frames Value}
    {t t' method method' : Token} {slot slot' : Slot} :
    Refers p (.superRef t method slot) (.superRef t' method' slot') → Env w p E E' →
      Store w V F F' →
      (Misses ∧ slot = none ∧ slot' = none) ∨
        ∃ d d', slot = some d ∧ slot' = some d' ∧
          SameSearch Misses V (F.seek E superName (some d)) (F'.seek E' superName (some d')) ∧
          SameSearch Misses V (F.seek E thisName (some (d - 1)))
            (F'.seek E' thisName (some (d' - 1)))
  receiver {w : World} {V : ValueRelation} {p q : Spot} {f f' : FunDecl Slot} {E E' : Lox.Env}
    {F F' : Frames Value} :
    Opens p (.receiver f) (.receiver f') q → Env w q E E' → Store w V F F' →
      SameSearch Misses V (F.seek E thisName (some 0)) (F'.seek E' thisName (some 0))
  pending {w : World} {p q r : Spot} {t t' : Token} {E E' : Lox.Env} :
    Declares p t t' q r → Env w p E E' → Env w q E E'
  declare {w : World} {V : ValueRelation} {p q r : Spot} {t t' : Token} {E E' : Lox.Env}
    {F F' : Frames Value} :
    Declares p t t' q r → Env w p E E' → Store w V F F' →
      ∃ w', Later w w' ∧ Env w' r E E' ∧ ∀ V' v v', V.Extends V' → V' v v' →
        Store w' V' (F.define E t.lexeme v) (F'.define E' t'.lexeme v')
  redeclare {w : World} {V : ValueRelation} {p q r : Spot} {t t' : Token}
    {E E' : Lox.Env} {F F' : Frames Value} {v v' : Value} :
    Declares p t t' q r → Env w r E E' → Store w V F F' → V v v' →
      Store w V (F.define E t.lexeme v) (F'.define E' t'.lexeme v')
  opens {w : World} {V : ValueRelation} {p q : Spot} {o o' : Opening} {E E' : Lox.Env}
    {F F' : Frames Value} (label label' : String) :
    Opens p o o' q → o.initial.length = o'.initial.length → Env w p E E' → Store w V F F' →
      ∃ w', Later w w' ∧ Env w' q (F.enter label E).1 (F'.enter label' E').1 ∧
        ∀ V' vs vs', V.Extends V' → List.Forall₂ V' vs vs' → vs.length = o.initial.length →
          Store w' V'
            ((F.enter label E).2.defineAll (F.enter label E).1 (o.initial.zip vs))
            ((F'.enter label' E').2.defineAll (F'.enter label' E').1 (o'.initial.zip vs'))

/-! ## Variables that are kept elsewhere -/

/-- Where a second store keeps what a first one keeps under a name in a frame. -/
structure Placement where
  place : FrameId → String → FrameId × String
  injective : ∀ {k j : FrameId} {n m : String}, place k n = place j m → k = j ∧ n = m

/-- The stores bind related values, each in its place. -/
def Placement.Relates (P : Placement) (V : ValueRelation) (F F' : Frames Value) : Prop :=
  ∀ k n, Option.Rel V (F.binding? k n) (F'.binding? (P.place k n).1 (P.place k n).2)

namespace Placement.Relates

variable {P P' : Placement} {V V' : ValueRelation} {F F' : Frames Value} {E E' : Env}
  {k k' : FrameId} {n n' : String}

theorem imp (h : P.Relates V F F') (hV : V.Extends V') : P.Relates V' F F' := by
  intro k n
  have hrel := h k n
  generalize F.binding? k n = v at hrel
  generalize F'.binding? (P.place k n).1 (P.place k n).2 = v' at hrel
  cases hrel with
  | none => exact .none
  | some hv => exact .some (hV _ _ hv)

theorem at_place (h : P.Relates V F F') (hplace : P.place k n = (k', n')) :
    Option.Rel V (F.binding? k n) (F'.binding? k' n') := by
  have hrel := h k n
  rwa [hplace] at hrel

theorem bind (h : P.Relates V F F') (hplace : P.place k n = (k', n')) (hk : k < F.size)
    (hk' : k' < F'.size) {v v' : Value} (hv : V v v') :
    P.Relates V (F.bind k n v) (F'.bind k' n' v') := by
  intro j m
  rw [Frames.binding?_bind F hk, Frames.binding?_bind F' hk']
  by_cases hjm : j = k ∧ m = n
  · obtain ⟨rfl, rfl⟩ := hjm
    rw [if_pos ⟨rfl, rfl⟩, if_pos ⟨by rw [hplace], by rw [hplace]⟩]
    exact .some hv
  · have hne : ¬ ((P.place j m).1 = k' ∧ (P.place j m).2 = n') := fun heq =>
      hjm (P.injective ((Prod.ext heq.1 heq.2).trans hplace.symm))
    rw [if_neg hjm, if_neg hne]
    exact h j m

theorem enter (h : P.Relates V F F') (label label' : String) (E E' : Env) :
    P.Relates V (F.enter label E).2 (F'.enter label' E').2 := by
  intro k n
  rw [Frames.binding?_enter, Frames.binding?_enter]
  exact h k n

/-- Places of frames that were not made yet may change. -/
theorem extend (h : P.Relates V F F') (hmade : ∀ k n, k < F.size → P'.place k n = P.place k n)
    (hnew : ∀ k n, F.size ≤ k → F'.size ≤ (P'.place k n).1) : P'.Relates V F F' := by
  intro k n
  rcases Nat.lt_or_ge k F.size with hk | hk
  · rw [hmade k n hk]
    exact h k n
  · rw [Frames.binding?_of_size_le hk, Frames.binding?_of_size_le (hnew k n hk)]
    exact .none

/-! ## Searches -/

theorem seek_local (h : P.Relates V F F') (hplace : P.place k n = (k', n')) {d d' : Nat}
    (hd : E[d]? = some k) (hd' : E'[d']? = some k') :
    SameSearch True V (F.seek E n (some d)) (F'.seek E' n' (some d')) := by
  have hrel := h.at_place hplace
  simp only [Frames.seek, Frames.getAt, hd, hd']
  generalize F.binding? k n = v at hrel
  generalize F'.binding? k' n' = v' at hrel
  cases hrel with
  | none => exact .misplaced trivial
  | some hv => exact .found hv

theorem seek_global (h : P.Relates V F F') (hplace : P.place 0 n = (0, n')) (E E' : Env) :
    SameSearch True V (F.seek E n none) (F'.seek E' n' none) := by
  have hrel := h.at_place hplace
  simp only [Frames.seek, Frames.get?_globalEnv]
  generalize F.binding? 0 n = v at hrel
  generalize F'.binding? 0 n' = v' at hrel
  cases hrel with
  | none => exact .undefined
  | some hv => exact .found hv

/-- A bound global variable that the second store keeps in a frame at a distance. -/
theorem seek_moved (h : P.Relates V F F') (hplace : P.place 0 n = (k', n'))
    (hbound : (F.binding? 0 n).isSome) {d' : Nat} (hd' : E'[d']? = some k') :
    SameSearch True V (F.seek E n none) (F'.seek E' n' (some d')) := by
  have hrel := h.at_place hplace
  simp only [Frames.seek, Frames.get?_globalEnv, Frames.getAt, hd']
  generalize F.binding? 0 n = v at hrel hbound
  generalize F'.binding? k' n' = v' at hrel
  cases hrel with
  | none => cases hbound
  | some hv => exact .found hv

theorem target_global (h : P.Relates V F F') (hplace : P.place 0 n = (0, n')) (E E' : Env) :
    SameSearch True (fun id id' => id = 0 ∧ id' = 0) (F.target E n none)
      (F'.target E' n' none) := by
  have hrel := h.at_place hplace
  simp only [Frames.target, Frames.owner?_globalEnv]
  generalize F.binding? 0 n = v at hrel
  generalize F'.binding? 0 n' = v' at hrel
  cases hrel with
  | none => exact .undefined
  | some _ => exact .found ⟨rfl, rfl⟩

end Placement.Relates

end Lox
