import Lox.Proofs.Scoping.Resolved
import Lox.Proofs.Simulation.Evaluation

/-!
# Chains of frames and scopes around places

A run is compared with itself. What is known about its frames is what each was made
for, in which environment, and which names it binds for good. An environment belongs
to a place if its frames were made for the scopes of the place, one by one, and bind
the names that can be read there. Every law of a comparison is then a fact about one
frame: the one that is made, or the one whose names change.
-/

namespace Lox

/-- What is known about the frames of a run. -/
structure FrameLog where
  size : Nat
  /-- What a frame was made for, and inside which environment. -/
  made : FrameId → Option (Opening × Env)
  /-- Names that a frame binds. -/
  bound : FrameId → String → Prop

namespace FrameLog

/-- What is known later. -/
structure Later (w w' : FrameLog) : Prop where
  size : w.size ≤ w'.size
  made : ∀ k x, w.made k = some x → w'.made k = some x
  bound : ∀ k n, w.bound k n → w'.bound k n

theorem Later.refl (w : FrameLog) : w.Later w :=
  ⟨Nat.le_refl _, fun _ _ h => h, fun _ _ h => h⟩

theorem Later.trans {u v w : FrameLog} (h : u.Later v) (h' : v.Later w) : u.Later w :=
  ⟨Nat.le_trans h.size h'.size, fun k x hx => h'.made k x (h.made k x hx),
    fun k n hn => h'.bound k n (h.bound k n hn)⟩

/-- The log after a frame has bound names. -/
def bind (w : FrameLog) (id : FrameId) (names : List String) : FrameLog :=
  { w with bound := fun k n => w.bound k n ∨ k = id ∧ n ∈ names }

/-- The log after a frame was made. -/
def make (w : FrameLog) (o : Opening) (E : Env) : FrameLog :=
  { w with
    size := w.size + 1
    made := fun k => if k = w.size then some (o, E) else w.made k }

variable {w w' : FrameLog}

theorem later_bind (id : FrameId) (names : List String) : w.Later (w.bind id names) :=
  ⟨Nat.le_refl _, fun _ _ h => h, fun _ _ h => .inl h⟩

/-- The environment belongs to the place. -/
inductive Chain (w : FrameLog) : Place → Env → Prop
  | global : Chain w [] globalEnv
  | frame {l : Level} {p : Place} {k : FrameId} {E : Env} :
      w.made k = some (l.opening, E) → k ≠ 0 →
      (∀ n, l.scope.isDefined n = true → w.bound k n) → Chain w p E → Chain w (l :: p) (k :: E)

variable {p : Place} {E : Env}

theorem Chain.later (h : Chain w p E) (hw : w.Later w') : Chain w' p E := by
  induction h with
  | global => exact .global
  | frame hmade hk hbound _ ih =>
      exact .frame (hw.made _ _ hmade) hk (fun n hn => hw.bound _ n (hbound n hn)) ih

/-- The frame at a distance was made for the scope at that distance. -/
theorem Chain.at (h : Chain w p E) {d : Nat} {l : Level} (hl : p[d]? = some l) :
    ∃ k, E[d]? = some k ∧ E.drop d = k :: E.drop (d + 1) ∧ k ≠ 0 ∧
      w.made k = some (l.opening, E.drop (d + 1)) ∧
      ∀ n, l.scope.isDefined n = true → w.bound k n := by
  induction h generalizing d with
  | global => cases hl
  | frame hmade hk hbound _ ih =>
      cases d with
      | zero =>
          cases hl
          exact ⟨_, rfl, rfl, hk, hmade, hbound⟩
      | succ d => exact ih hl

/-- What the stores of the two runs have in common. -/
structure Store (w : FrameLog) (V : ValueRelation) (F F' : Frames Value) : Prop where
  size : F.size = w.size
  size' : F'.size = w.size
  global : 0 < w.size
  values : ∀ k n, Option.Rel V (F.binding? k n) (F'.binding? k n)
  bound : ∀ k n, w.bound k n → (F.binding? k n).isSome = true
  logged : ∀ k x, w.made k = some x → k ≠ 0 ∧ k < w.size
  complete : ∀ k, k ≠ 0 → k < w.size → (w.made k).isSome = true
  declared : ∀ k o E n, w.made k = some (o, E) → (F.binding? k n).isSome = true → o.Declares n

variable {V V' : ValueRelation} {F F' : Frames Value}

theorem optionRel_imp {x y : Option Value} (h : Option.Rel V x y) (hV : V.Extends V') :
    Option.Rel V' x y := by
  cases h with
  | none => exact .none
  | some hv => exact .some (hV _ _ hv)

theorem Store.imp (h : Store w V F F') (hV : V.Extends V') : Store w V' F F' :=
  { h with values := fun k n => optionRel_imp (h.values k n) hV }

/-- Binding a name that the scope of the frame declares. -/
theorem Store.bind (h : Store w V F F') {id : FrameId} {name : String} {v v' : Value}
    (hid : id < w.size) (hv : V v v')
    (hdeclares : ∀ o E, w.made id = some (o, E) → o.Declares name) :
    Store (w.bind id [name]) V (F.bind id name v) (F'.bind id name v') where
  size := (Frames.size_bind ..).trans h.size
  size' := (Frames.size_bind ..).trans h.size'
  global := h.global
  values := by
    intro k n
    rw [Frames.binding?_bind F (h.size ▸ hid), Frames.binding?_bind F' (h.size' ▸ hid)]
    split
    · exact .some hv
    · exact h.values k n
  bound := by
    intro k n hn
    rw [Frames.binding?_bind F (h.size ▸ hid)]
    split
    · rfl
    · next hne =>
        rcases hn with hn | ⟨hk, hmem⟩
        · exact h.bound k n hn
        · exact absurd ⟨hk, List.mem_singleton.mp hmem⟩ hne
  logged := h.logged
  complete := h.complete
  declared := by
    intro k o E n hmade hn
    rw [Frames.binding?_bind F (h.size ▸ hid)] at hn
    split at hn
    · next heq =>
        obtain ⟨rfl, rfl⟩ := heq
        exact hdeclares o E hmade
    · exact h.declared k o E n hmade hn

/-- A log that claims less about what is bound. -/
theorem Store.forget {w₁ : FrameLog} (h : Store w V F F') (hsize : w₁.size = w.size)
    (hmade : w₁.made = w.made) (hbound : ∀ k n, w₁.bound k n → w.bound k n) :
    Store w₁ V F F' where
  size := h.size.trans hsize.symm
  size' := h.size'.trans hsize.symm
  global := hsize ▸ h.global
  values := h.values
  bound := fun k n hn => h.bound k n (hbound k n hn)
  logged := by
    rw [hmade, hsize]
    exact h.logged
  complete := by
    rw [hmade, hsize]
    exact h.complete
  declared := by
    rw [hmade]
    exact h.declared

theorem Store.bind_same (h : Store w V F F') {id : FrameId} {name : String} {v v' : Value}
    (hid : id < w.size) (hv : V v v')
    (hdeclares : ∀ o E, w.made id = some (o, E) → o.Declares name) :
    Store w V (F.bind id name v) (F'.bind id name v') :=
  (h.bind hid hv hdeclares).forget rfl rfl fun _ _ hn => .inl hn

/-- Binding several names, each to its value. -/
theorem Store.defineAll {id : FrameId} {names : List String} {vs vs' : List Value}
    (h : Store w V F F') (hid : id < w.size) (hvs : List.Forall₂ V vs vs')
    (hlen : vs.length = names.length)
    (hdeclares : ∀ n ∈ names, ∀ o E, w.made id = some (o, E) → o.Declares n) :
    Store (w.bind id names) V (F.defineAll (id :: E) (names.zip vs))
      (F'.defineAll (id :: E) (names.zip vs')) := by
  induction names generalizing w F F' vs vs' with
  | nil => exact h.forget rfl rfl fun k n hn => hn.resolve_right fun hn => nomatch hn.2
  | cons name names ih =>
      cases hvs with
      | nil => cases hlen
      | cons hv hvs =>
          have hstep := h.bind hid hv (hdeclares name List.mem_cons_self)
          refine (ih hstep hid hvs (Nat.succ.inj hlen) fun n hn =>
            hdeclares n (List.mem_cons_of_mem _ hn)).forget rfl rfl fun k n hn => ?_
          rcases hn with hn | ⟨hk, hn⟩
          · exact .inl (.inl hn)
          · rcases List.mem_cons.mp hn with rfl | hn
            · exact .inl (.inr ⟨hk, List.mem_singleton_self _⟩)
            · exact .inr ⟨hk, hn⟩

theorem Store.later_make (h : Store w V F F') (o : Opening) (E : Env) : w.Later (w.make o E) where
  size := Nat.le_succ _
  made := by
    intro k x hx
    show (if k = w.size then some (o, E) else w.made k) = some x
    rw [if_neg (Nat.ne_of_lt (h.logged k x hx).2)]
    exact hx
  bound := fun _ _ h => h

/-- Making a frame. -/
theorem Store.make (h : Store w V F F') (o : Opening) (E : Env) (label label' : String)
    (D D' : Env) : Store (w.make o E) V (F.enter label D).2 (F'.enter label' D').2 where
  size := (Frames.size_enter ..).trans (congrArg (· + 1) h.size)
  size' := (Frames.size_enter ..).trans (congrArg (· + 1) h.size')
  global := Nat.succ_pos _
  values := by
    intro k n
    rw [Frames.binding?_enter, Frames.binding?_enter]
    exact h.values k n
  bound := by
    intro k n hn
    rw [Frames.binding?_enter]
    exact h.bound k n hn
  logged := by
    intro k x hx
    simp only [FrameLog.make] at hx
    split at hx
    · next hk => exact ⟨hk ▸ Nat.ne_of_gt h.global, hk ▸ Nat.lt_succ_self _⟩
    · exact ⟨(h.logged k x hx).1, Nat.lt_succ_of_lt (h.logged k x hx).2⟩
  complete := by
    intro k hk hlt
    simp only [FrameLog.make] at hlt ⊢
    split
    · rfl
    · next hne => exact h.complete k hk (Nat.lt_of_le_of_ne (Nat.le_of_lt_succ hlt) hne)
  declared := by
    intro k o' E' n hmade hn
    rw [Frames.binding?_enter] at hn
    simp only [FrameLog.make] at hmade
    split at hmade
    · next hk =>
        have hlt := Frames.lt_size_of_binding? hn
        rw [h.size, hk] at hlt
        exact absurd hlt (Nat.lt_irrefl _)
    · exact h.declared k o' E' n hmade hn

/-- A name that both stores bind is found in both. -/
theorem Store.getAt (h : Store w V F F') {misses : Prop} {d : Nat} {k : FrameId} {name : String}
    (hk : E[d]? = some k) (hbound : w.bound k name) :
    SameSearch misses V (F.seek E name (some d)) (F'.seek E name (some d)) := by
  have hrel := h.values k name
  have hsome := h.bound k name hbound
  cases hv : F.binding? k name with
  | none =>
      rw [hv] at hsome
      cases hsome
  | some v =>
      cases hv' : F'.binding? k name with
      | none =>
          rw [hv, hv'] at hrel
          cases hrel
      | some v' =>
          rw [hv, hv'] at hrel
          cases hrel with
          | some hrel =>
              simp only [Frames.seek, Frames.getAt_eq_ok hk hv, Frames.getAt_eq_ok hk hv']
              exact .found hrel

/-- Outside of all scopes both stores find something or neither does. -/
theorem Store.getGlobal (h : Store w V F F') {misses : Prop} (E E' : Env) (name : String) :
    SameSearch misses V (F.seek E name none) (F'.seek E' name none) := by
  have hrel := h.values 0 name
  simp only [Frames.seek, Frames.get?_globalEnv]
  generalize F.binding? 0 name = x at hrel
  generalize F'.binding? 0 name = x' at hrel
  cases hrel with
  | none => exact .undefined
  | some hv => exact .found hv

end FrameLog

/-! ## References -/

namespace Place

variable {p : Place} {c : ClassKind} {n : String} {d : Nat}

/-- Where a name is found there is a scope that declares it. -/
theorem level_of_distance (h : p.scopes.distanceTo? n = some d) :
    ∃ l, p[d]? = some l ∧ l.scope.isDeclared n = true := by
  obtain ⟨scope, hscope, hdeclared⟩ := distanceTo?_eq_some h
  rw [scopes, List.getElem?_map, Option.map_eq_some_iff] at hscope
  obtain ⟨l, hl, rfl⟩ := hscope
  exact ⟨l, hl, hdeclared⟩

/-- A name that is not pending can be read where it is found. -/
theorem Sound.defined (h : p.Sound c) (hpending : p.scopes.isPending n = false)
    (hd : p.scopes.distanceTo? n = some d) :
    ∃ l, p[d]? = some l ∧ l.scope.isDefined n = true := by
  obtain ⟨l, hl, hdeclared⟩ := level_of_distance hd
  refine ⟨l, hl, ?_⟩
  cases d with
  | zero =>
      cases p with
      | nil => cases hl
      | cons head rest =>
          cases hl
          have hhead : (l.scope.isDeclared n && !l.scope.isDefined n) = false := hpending
          rw [hdeclared] at hhead
          simpa using hhead
  | succ d =>
      cases p with
      | nil => cases hl
      | cons head rest => exact h.settled l (List.mem_of_getElem? hl) n hdeclared

/-- The names of the language can be read wherever they are found. -/
theorem Sound.defined_reserved (h : p.Sound c) (hn : n = thisName ∨ n = superName)
    (hd : p.scopes.distanceTo? n = some d) :
    ∃ l, p[d]? = some l ∧ l.scope.isDefined n = true := by
  obtain ⟨l, hl, hdeclared⟩ := level_of_distance hd
  exact ⟨l, hl, h.reserved l (List.mem_of_getElem? hl) n hn hdeclared⟩

end Place

namespace Fragment

open Place

variable {p : Place} {slot : Slot} {t : Token}

/-- A variable has the distance at which its scope is, and can be read there. -/
theorem Resolved.read {node : Token → Slot → Expr Slot} (hnode : node = .var ∨ node = .thisRef)
    (h : Resolved p (.expr (node t slot))) :
    slot = p.scopes.distanceTo? t.lexeme ∧
      ∀ d, slot = some d → ∃ l, p[d]? = some l ∧ l.scope.isDefined t.lexeme = true := by
  obtain ⟨c, y, hp, hw, hf, heq⟩ := h
  rcases hnode with rfl | rfl
  · cases y with
    | var name slot' =>
        cases heq
        refine ⟨rfl, fun d hd => hp.defined ?_ hd⟩
        simp only [Expr.scopeFaults] at hf
        split at hf
        · cases hf
        · next h => simpa using h
    | _ => cases heq
  · cases y with
    | thisRef keyword slot' =>
        cases heq
        simp only [Expr.scopeFaults] at hf
        split at hf
        · cases hf
        · next hc =>
            rw [if_neg hc]
            exact ⟨rfl, fun d hd => hp.defined_reserved (.inl hw) hd⟩
    | _ => cases heq

/-- An assignment has the distance at which its scope is. -/
theorem Resolved.assigned {value : Expr Slot} (h : Resolved p (.expr (.assign t slot value))) :
    slot = p.scopes.distanceTo? t.lexeme ∧
      ∀ d, slot = some d →
        ∃ l, p[d]? = some l ∧ l.scope.isDeclared t.lexeme = true ∧
          l.opening.Declares t.lexeme := by
  obtain ⟨c, y, hp, hw, hf, heq⟩ := h
  cases y with
  | assign name slot' value' =>
      cases heq
      refine ⟨rfl, fun d hd => ?_⟩
      obtain ⟨l, hl, hdeclared⟩ := level_of_distance hd
      exact ⟨l, hl, hdeclared, hp.declared l (List.mem_of_getElem? hl) _ hdeclared⟩
  | _ => cases heq

/-- `super` has a distance, and one hop nearer is the receiver. -/
theorem Resolved.superRef {method : Token} (h : Resolved p (.expr (.superRef t method slot))) :
    t.lexeme = superName ∧ slot = p.scopes.distanceTo? superName ∧
      ∃ d l l', slot = some (d + 1) ∧ p[d + 1]? = some l ∧ l.scope.isDefined superName = true ∧
        p[d]? = some l' ∧ l'.scope.isDefined thisName = true := by
  obtain ⟨c, y, hp, hw, hf, heq⟩ := h
  cases y with
  | superRef keyword method' slot' =>
      cases heq
      have hsuper : t.lexeme = superName := hw
      cases c with
      | none => cases hf
      | plain => cases hf
      | derived =>
          rw [if_pos rfl, hsuper]
          obtain ⟨d, hd⟩ := Option.isSome_iff_exists.mp (hp.super rfl)
          obtain ⟨l, hl, hdefined⟩ := hp.defined_reserved (.inr rfl) hd
          obtain ⟨d', l', rfl, hl', hthis⟩ := hp.receiver d hd
          exact ⟨rfl, rfl, d', l, l', hd, hl, hdefined, hl', hthis⟩
  | _ => cases heq

end Fragment
end Lox
