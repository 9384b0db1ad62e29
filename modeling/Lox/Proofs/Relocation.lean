import Lox.Proofs.Simulation.Evaluation
import Lox.Proofs.Simulation.Plain

/-!
# Programs at another place of the source

Where its tokens stand makes no difference to a program, except for the places that
errors are reported at. Two runs of it keep the same frames and the same objects, and
the functions in them are the same but for the places of tokens. What was printed
before makes no difference either, nor does the last value.
-/

namespace Lox

/-- Stores with the same frames that bind the same names to related values. -/
structure SameStore (V : ValueRelation) (F F' : Frames Value) : Prop where
  size : F.size = F'.size
  bindings : ∀ k n, Option.Rel V (F.binding? k n) (F'.binding? k n)

namespace SameStore

variable {V V' : ValueRelation} {F F' : Frames Value}

theorem imp (h : SameStore V F F') (hV : V.Extends V') : SameStore V' F F' := by
  refine ⟨h.size, fun k n => ?_⟩
  have hrel := h.bindings k n
  generalize F.binding? k n = v at hrel
  generalize F'.binding? k n = v' at hrel
  cases hrel with
  | none => exact .none
  | some hv => exact .some (hV _ _ hv)

theorem bind (h : SameStore V F F') (id : FrameId) (name : String) {v v' : Value}
    (hv : V v v') : SameStore V (F.bind id name v) (F'.bind id name v') := by
  refine ⟨by rw [Frames.size_bind, Frames.size_bind, h.size], fun k n => ?_⟩
  rcases Nat.lt_or_ge id F.size with hid | hid
  · rw [Frames.binding?_bind F hid, Frames.binding?_bind F' (h.size ▸ hid)]
    split
    · exact .some hv
    · exact h.bindings k n
  · rw [Frames.binding?_bind_of_size_le F hid, Frames.binding?_bind_of_size_le F' (h.size ▸ hid)]
    exact h.bindings k n

theorem define (h : SameStore V F F') (E : Env) (name : String) {v v' : Value} (hv : V v v') :
    SameStore V (F.define E name v) (F'.define E name v') := by
  cases E with
  | nil => exact h
  | cons id E => exact h.bind id name hv

theorem defineAll (h : SameStore V F F') (E : Env) (names : List String) {vs vs' : List Value}
    (hvs : List.Forall₂ V vs vs') :
    SameStore V (F.defineAll E (names.zip vs)) (F'.defineAll E (names.zip vs')) := by
  induction hvs generalizing names F F' with
  | nil => cases names <;> exact h
  | cons hv _ ih =>
      cases names with
      | nil => exact h
      | cons name names => exact ih (h.define E name hv) names

theorem enter (h : SameStore V F F') (label label' : String) (E : Env) :
    SameStore V (F.enter label E).2 (F'.enter label' E).2 := by
  refine ⟨by rw [Frames.size_enter, Frames.size_enter, h.size], fun k n => ?_⟩
  rw [Frames.binding?_enter, Frames.binding?_enter]
  exact h.bindings k n

theorem seek (h : SameStore V F F') (E : Env) (name : String) (slot : Slot) :
    SameSearch True V (F.seek E name slot) (F'.seek E name slot) := by
  cases slot with
  | none =>
      have hrel := h.bindings 0 name
      simp only [Frames.seek, Frames.get?_globalEnv]
      generalize F.binding? 0 name = v at hrel
      generalize F'.binding? 0 name = v' at hrel
      cases hrel with
      | none => exact .undefined
      | some hv => exact .found hv
  | some d =>
      simp only [Frames.seek, Frames.getAt]
      cases E[d]? with
      | none => exact .misplaced trivial
      | some k =>
          have hrel := h.bindings k name
          simp only []
          generalize F.binding? k name = v at hrel
          generalize F'.binding? k name = v' at hrel
          cases hrel with
          | none => exact .misplaced trivial
          | some hv => exact .found hv

theorem target (h : SameStore V F F') (E : Env) (name : String) (slot : Slot) :
    SameSearch True Eq (F.target E name slot) (F'.target E name slot) := by
  cases slot with
  | none =>
      have hrel := h.bindings 0 name
      simp only [Frames.target, Frames.owner?_globalEnv]
      generalize F.binding? 0 name = v at hrel
      generalize F'.binding? 0 name = v' at hrel
      cases hrel with
      | none => exact .undefined
      | some _ => exact .found rfl
  | some d =>
      simp only [Frames.target]
      cases E[d]? with
      | none => exact .misplaced trivial
      | some k => exact .found rfl

end SameStore

/-- Runs of the same program at two places of a source, of which the second begins when
something was printed already. -/
def relocation (past : Array String) : Comparison where
  Misses := True
  past := past
  World := Unit
  Later _ _ := True
  Spot := Unit
  Env _ _ E E' := E = E'
  Store _ V F F' := SameStore V F F'
  Refers _ e e' := SameReference e e'
  Declares _ t t' _ _ := t.Alike t'
  Opens _ o o' _ := o.initial = o'.initial
  later_refl _ := trivial
  later_trans _ _ := trivial
  env_later _ hE := hE
  seek := by
    intro _ V _ E E' F F' t t' slot slot' node hnode hr hE hF
    subst hE
    rcases hnode with rfl | rfl
    all_goals
      cases hr with
      | _ ht =>
          rw [← ht.lexeme]
          exact hF.seek E t.lexeme slot
  target := by
    intro _ V _ E E' F F' t t' slot slot' e e' hr hE hF
    subst hE
    cases hr with
    | assign ht =>
        have hfound := hF.target E t.lexeme slot
        rw [← ht.lexeme]
        generalize F.target E t.lexeme slot = a at hfound
        generalize F'.target E t.lexeme slot = a' at hfound
        cases hfound with
        | misplaced hmiss => exact .misplaced hmiss
        | undefined => exact .undefined
        | found hid =>
            subst hid
            exact .found ⟨(), trivial, fun V' v v' hV hv => (hF.imp hV).bind _ _ hv⟩
  superclass := by
    intro _ V _ E E' F F' t t' method method' slot slot' hr hE hF
    subst hE
    cases hr with
    | superRef _ =>
        cases slot with
        | none => exact .inl ⟨trivial, rfl, rfl⟩
        | some d => exact .inr ⟨d, d, rfl, rfl, hF.seek E superName _, hF.seek E thisName _⟩
  receiver := by
    intro _ V _ _ _ _ E E' F F' _ hE hF
    subst hE
    exact hF.seek E thisName _
  pending _ hE := hE
  declare := by
    intro _ V _ _ _ t t' E E' F F' ht hE hF
    subst hE
    refine ⟨(), trivial, rfl, fun V' v v' hV hv => ?_⟩
    rw [← ht.lexeme]
    exact (hF.imp hV).define E t.lexeme hv
  redeclare := by
    intro _ V _ _ _ t t' E E' F F' v v' ht hE hF hv
    subst hE
    rw [← ht.lexeme]
    exact hF.define E t.lexeme hv
  opens := by
    intro _ V _ _ o o' E E' F F' label label' ho _ hE hF
    subst hE
    have henv : (F.enter label E).1 = (F'.enter label' E).1 :=
      congrArg (· :: E) hF.size
    refine ⟨(), trivial, henv, fun V' vs vs' hV hvs _ => ?_⟩
    rw [← ho, ← henv]
    exact ((hF.imp hV).enter label label' E).defineAll _ o.initial hvs

namespace Relocation

/-! ## Trees -/

section

variable {past : Array String}

theorem plainSpots : (relocation past).PlainSpots fun _ => True where
  refers _ h := h
  declares _ h := h
  opens _ h := ⟨(), trivial, h⟩

theorem stmtsRel_map {f : Token → Token} (hf : KeepsTexts f) (n : Nat) (ss : List (Stmt Slot)) :
    (relocation past).StmtsRel () ss (Stmt.mapAll f (fun _ => id) n ss) :=
  plainSpots.stmtsRel trivial hf n ss

/-! ## Machines -/

theorem funRel_self (d : FunDecl Slot) : (relocation past).FunRel () d d :=
  plainSpots.funRel_self trivial d

theorem classRel_self (c : Class) : (relocation past).ClassRel () c c := by
  have hbody : ∀ b : ClassBody, (relocation past).BodyRel () b b := by
    intro b
    refine ⟨rfl, rfl, List.forall₂_same.mpr fun x _ => ⟨rfl, ?_⟩, rfl⟩
    cases x.2 with
    | closure c => exact .closure (p := ()) (q := ()) rfl rfl (funRel_self _) rfl
    | native n => exact .native
  induction c with
  | root b => exact .root (hbody b)
  | derived b c ih => exact .derived (hbody b) ih

theorem valueRel_self (v : Value) : (relocation past).ValueRel () v v := by
  induction v with
  | nil => exact .nil
  | bool b => exact .bool
  | number x => exact .number
  | text s => exact .text
  | function id c => exact .function ⟨(), rfl, funRel_self _, rfl, fun _ =>
      ⟨(), c.declaration, c.declaration, rfl⟩⟩
  | native id n => exact .native
  | nativeMethod id n v ih => exact .nativeMethod ih
  | cls c => exact .cls (classRel_self c)
  | object ref => exact .object
  | unassigned => exact .unassigned

theorem instanceRel_self (i : Instance) : (relocation past).InstanceRel () i i where
  cls := classRel_self i.cls
  fields := List.forall₂_same.mpr fun x _ => ⟨rfl, valueRel_self x.2⟩
  elements := by
    cases i.elements with
    | none => exact .none
    | some vs => exact .some (List.forall₂_same.mpr fun v _ => valueRel_self v)

/-- A machine before a unit, and the same machine going on after what it has printed. -/
theorem machineRel_fresh (m : Machine) : (relocation m.output).MachineRel () m.fresh m where
  frames := by
    refine ⟨rfl, fun k n => ?_⟩
    show Option.Rel _ (m.frames.binding? k n) (m.frames.binding? k n)
    cases m.frames.binding? k n with
    | none => exact .none
    | some v => exact .some (valueRel_self v)
  objects := List.forall₂_same.mpr fun i _ => instanceRel_self i
  nextId := rfl
  output := Array.append_empty.symm
  vectorClass := classRel_self m.vectorClass
  devices := ⟨rfl, rfl, rfl⟩

end

end Relocation
end Lox
