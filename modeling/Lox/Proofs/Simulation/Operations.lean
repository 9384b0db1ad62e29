import Lox.Proofs.Simulation.Steps
import Lox.Proofs.Simulation.Values

/-!
# The operations of the evaluator on related machines

One lemma for each operation that is not part of the recursion. Those on frames
rest on the laws of the comparison, the others on related values looking the same.
-/

namespace Lox
namespace Comparison

open Eval

variable {C : Comparison} {w : C.World} {m m' : Machine} {p q r : C.Spot}

/-! ## Variables -/

theorem lookUp_eq (name : Token) (slot : Slot) (m : Machine) :
    lookUp name slot m = match m.frames.seek m.env name.lexeme slot with
      | .ok .unassigned => .abort (.error ⟨.unassignedVariable, name⟩) m
      | .ok v => .ok v m
      | .error (.misplaced f) => .abort (.fault (.distance f)) m
      | .error .undefined => .abort (.error ⟨.undefinedVariable, name⟩) m := by
  cases slot with
  | none =>
      simp only [lookUp, Frames.seek]
      cases m.frames.get? globalEnv name.lexeme with
      | none => rfl
      | some v => cases v <;> rfl
  | some d =>
      simp only [lookUp, Frames.seek]
      cases m.frames.getAt m.env d name.lexeme with
      | error f => rfl
      | ok v => cases v <;> rfl

theorem assign_eq (name : Token) (slot : Slot) (v : Value) (m : Machine) :
    assign name slot v m = match m.frames.target m.env name.lexeme slot with
      | .ok id => .ok () { m with frames := m.frames.bind id name.lexeme v }
      | .error (.misplaced f) => .abort (.fault (.distance f)) m
      | .error .undefined => .abort (.error ⟨.undefinedVariable, name⟩) m := by
  cases slot with
  | none =>
      simp only [assign, Frames.target]
      cases m.frames.owner? globalEnv name.lexeme <;> rfl
  | some d =>
      simp only [assign, Frames.target]
      cases m.env[d]? <;> rfl

/-- Looking a variable up changes nothing. -/
theorem lookUp_machine (name : Token) (slot : Slot) (m : Machine) :
    (lookUp name slot m).machine = m := by
  rw [lookUp_eq]
  split <;> rfl

theorem lookUp_simulates {t t' : Token} {slot slot' : Slot} {node : Token → Slot → Expr Slot}
    (hnode : node = .var ∨ node = .thisRef) (hr : C.Refers p (node t slot) (node t' slot'))
    (he : C.Env w p m.env m'.env) (hm : C.MachineRel w m m') :
    C.Simulates w C.ValueRel .none (lookUp t slot) (lookUp t' slot') m m' := by
  have hfound := C.seek hnode hr he hm.frames
  refine ⟨w, C.later_refl w, ?_, fun _ h => h.elim,
    announces_of_size (Nat.le_of_eq (by rw [lookUp_machine]))⟩
  rw [lookUp_eq, lookUp_eq]
  generalize m.frames.seek m.env t.lexeme slot = a at hfound
  generalize m'.frames.seek m'.env t'.lexeme slot' = a' at hfound
  cases hfound with
  | misplaced hmiss => exact ⟨rfl, rfl, hm, .misplaced hmiss⟩
  | undefined => exact ⟨rfl, rfl, hm, .error⟩
  | found hv =>
      cases hv with
      | unassigned => exact ⟨rfl, rfl, hm, .error⟩
      | nil => exact ⟨rfl, rfl, hm, .nil⟩
      | bool => exact ⟨rfl, rfl, hm, .bool⟩
      | number => exact ⟨rfl, rfl, hm, .number⟩
      | text => exact ⟨rfl, rfl, hm, .text⟩
      | function hc => exact ⟨rfl, rfl, hm, .function hc⟩
      | native => exact ⟨rfl, rfl, hm, .native⟩
      | nativeMethod hv => exact ⟨rfl, rfl, hm, .nativeMethod hv⟩
      | cls hc => exact ⟨rfl, rfl, hm, .cls hc⟩
      | object => exact ⟨rfl, rfl, hm, .object⟩

/-- Nothing is claimed about the result. -/
abbrev anyUnit : C.World → Unit → Unit → Prop := fun _ _ _ => True

theorem assign_simulates {t t' : Token} {slot slot' : Slot} {e e' : Expr Slot} {v v' : Value}
    (hr : C.Refers p (.assign t slot e) (.assign t' slot' e')) (he : C.Env w p m.env m'.env)
    (hm : C.MachineRel w m m') (hv : C.ValueRel w v v') :
    C.Simulates w anyUnit .none (assign t slot v) (assign t' slot' v') m m' := by
  have hfound := C.target hr he hm.frames
  have hsize : (assign t slot v m).machine.frames.size ≤ m.frames.size := by
    rw [assign_eq]
    split
    · exact Nat.le_of_eq (Frames.size_bind ..)
    · exact Nat.le_refl _
    · exact Nat.le_refl _
  have hresult : ∃ w', C.Later w w' ∧ C.ResultRel w' m.env m'.env (fun _ _ => True)
      (assign t slot v m) (assign t' slot' v' m') := by
    rw [assign_eq, assign_eq]
    generalize m.frames.target m.env t.lexeme slot = a at hfound
    generalize m'.frames.target m'.env t'.lexeme slot' = a' at hfound
    cases hfound with
    | misplaced hmiss => exact ⟨w, C.later_refl w, rfl, rfl, hm, .misplaced hmiss⟩
    | undefined => exact ⟨w, C.later_refl w, rfl, rfl, hm, .error⟩
    | found hid =>
        obtain ⟨w', hw, hstore⟩ := hid
        refine ⟨w', hw, rfl, rfl, hm.later hw ?_, trivial⟩
        exact hstore _ v v' (extends_later hw) (hv.later hw)
  obtain ⟨w', hw, hr⟩ := hresult
  exact ⟨w', hw, hr, fun _ h => h.elim, announces_of_size hsize⟩

theorem define_simulates {t t' : Token} {v v' : Value} (hd : C.Declares p t t' q r)
    (he : C.Env w p m.env m'.env) (hm : C.MachineRel w m m')
    (hv : ∀ w', C.Later w w' → C.Env w' r m.env m'.env → C.ValueRel w' v v') :
    C.Simulates w (fun w' _ _ => C.Env w' r m.env m'.env) .none (define t.lexeme v)
      (define t'.lexeme v') m m' := by
  obtain ⟨w', hw, he', hstore⟩ := C.declare hd he hm.frames
  refine ⟨w', hw, ⟨rfl, rfl, hm.later hw ?_, he'⟩, fun _ h => h.elim,
    announces_of_size (Nat.le_of_eq (Frames.size_define ..))⟩
  exact hstore _ v v' (extends_later hw) (hv w' hw he')

theorem redefine_simulates {t t' : Token} {v v' : Value} (hd : C.Declares p t t' q r)
    (he : C.Env w r m.env m'.env) (hm : C.MachineRel w m m') (hv : C.ValueRel w v v') :
    C.Simulates w anyUnit .none (define t.lexeme v) (define t'.lexeme v') m m' :=
  ⟨w, C.later_refl w,
    ⟨rfl, rfl, hm.later (C.later_refl w) (C.redeclare hd he hm.frames hv), trivial⟩,
    fun _ h => h.elim, announces_of_size (Nat.le_of_eq (Frames.size_define ..))⟩

theorem bindAll_eq (env : Lox.Env) (l : List (String × Value)) (m : Machine) :
    bindAll env l m = .ok () { m with frames := m.frames.defineAll env l } := by
  induction l generalizing m with
  | nil => rfl
  | cons x rest ih =>
      obtain ⟨name, v⟩ := x
      simp only [bindAll, Frames.defineAll, ih]

theorem freshId_simulates (hm : C.MachineRel w m m') :
    C.Simulates w (fun _ id id' => id = id') .none freshId freshId m m' := by
  refine ⟨w, C.later_refl w, ⟨rfl, rfl, ?_, hm.nextId⟩, fun _ h => h.elim,
    announces_of_size (Nat.le_refl _)⟩
  exact ⟨hm.1, hm.2, congrArg (· + 1) hm.3, hm.4, hm.5, hm.6⟩

theorem setLastValue_simulates (v v' : Value) (hm : C.MachineRel w m m') :
    C.Simulates w anyUnit .none (setLastValue v) (setLastValue v') m m' := by
  refine ⟨w, C.later_refl w, ⟨rfl, rfl, ?_, trivial⟩, fun _ h => h.elim,
    announces_of_size (Nat.le_refl _)⟩
  exact ⟨hm.1, hm.2, hm.3, hm.4, hm.5, hm.6⟩

theorem textOf_simulates {v v' : Value} (hm : C.MachineRel w m m') (hv : C.ValueRel w v v') :
    C.Simulates w (fun _ s s' => s = s') .none (textOf v) (textOf v') m m' := by
  refine ⟨w, C.later_refl w, ?_, fun _ h => h.elim,
    announces_of_size (Nat.le_of_eq (by rw [textOf_eq]; rfl))⟩
  rw [textOf_eq, textOf_eq]
  exact ⟨rfl, rfl, hm, hm.render hv⟩

theorem readClock_simulates (hm : C.MachineRel w m m') :
    C.Simulates w C.ValueRel .none readClock readClock m m' := by
  obtain ⟨hreadings, hticks, hwriting⟩ := hm.devices
  refine ⟨w, C.later_refl w, ⟨rfl, rfl, ?_, ?_⟩, fun _ h => h.elim,
    announces_of_size (Nat.le_refl _)⟩
  · exact ⟨hm.1, hm.2, hm.3, hm.4, hm.5, hreadings, congrArg (· + 1) hticks, hwriting⟩
  · rw [hreadings, hticks]
    exact .number

theorem print_simulates (s : String) (hm : C.MachineRel w m m') :
    C.Simulates w anyUnit .none (print s) (print s) m m' := by
  refine ⟨w, C.later_refl w, ⟨rfl, rfl, ?_, trivial⟩, fun _ h => h.elim,
    announces_of_size (Nat.le_refl _)⟩
  refine ⟨hm.1, hm.2, hm.3, ?_, hm.5, hm.6⟩
  rw [hm.output, Array.push_append]

/-! ## Operators -/

theorem unaryOp_simulates {operator operator' : Token} {v v' : Value}
    (ho : operator.Alike operator') (hm : C.MachineRel w m m') (hv : C.ValueRel w v v') :
    C.Simulates w C.ValueRel .none (unaryOp operator v) (unaryOp operator' v') m m' := by
  have ht := hv.truthy
  simp only [unaryOp, ← ho.kind]
  cases hv <;> cases operator.kind <;>
    first
      | exact simulates_error hm
      | exact simulates_pure hm .number
      | exact simulates_pure hm (ht ▸ .bool)

theorem arithmetic_rel (kind : TokenKind) (x y : Float) :
    C.ValueRel w (arithmetic kind x y) (arithmetic kind x y) := by
  cases kind <;> first | exact .number | exact .bool | exact .nil

theorem binaryOp_eq {operator : Token} (a b : Value) (h : operator.kind ≠ .equalEqual)
    (h' : operator.kind ≠ .bangEqual) :
    binaryOp operator a b = match a, b with
      | .text s, .text t =>
        if operator.kind = .plus then pure (.text (s ++ t)) else error .operandsNotNumbers operator
      | .number x, .number y => pure (arithmetic operator.kind x y)
      | _, _ =>
        if operator.kind = .plus then error .badPlusOperands operator
        else error .operandsNotNumbers operator := by
  unfold binaryOp
  split
  case h_6 => split <;> simp_all
  all_goals simp_all

theorem binaryOp_simulates {operator operator' : Token} {a a' b b' : Value}
    (ho : operator.Alike operator') (hm : C.MachineRel w m m') (ha : C.ValueRel w a a')
    (hb : C.ValueRel w b b') :
    C.Simulates w C.ValueRel .none (binaryOp operator a b) (binaryOp operator' a' b') m m' := by
  have hsame := ha.same hb
  by_cases heq : operator.kind = .equalEqual
  · simp only [binaryOp, heq, ← ho.kind, ← hsame]
    exact simulates_pure hm .bool
  by_cases hne : operator.kind = .bangEqual
  · simp only [binaryOp, hne, ← ho.kind, ← hsame]
    exact simulates_pure hm .bool
  rw [binaryOp_eq a b heq hne, binaryOp_eq a' b' (ho.kind ▸ heq) (ho.kind ▸ hne), ← ho.kind]
  cases ha <;> cases hb
  case text.text =>
    simp only []
    split
    · exact simulates_pure hm .text
    · exact simulates_error hm
  case number.number => exact simulates_pure hm (arithmetic_rel _ _ _)
  all_goals
    simp only []
    split <;> exact simulates_error hm

theorem settles_eq {operator operator' : Token} {v v' : Value} (ho : operator.Alike operator')
    (hv : C.ValueRel w v v') : settles operator v = settles operator' v' := by
  simp only [settles, ho.kind, hv.truthy]

/-! ## Methods -/

/-- A step that makes the frame of a scope and gives its environment. -/
theorem opening_simulates {n : Nat} {o o' : Opening} {D D' : Lox.Env} {label label' : String}
    {vs vs' : List Value} {x y : Eval Lox.Env} (ho : C.Opens p o o' q)
    (hinitial : o.initial.length = o'.initial.length) (he : C.Env w p D D')
    (hm : C.MachineRel w m m') (hvs : List.Forall₂ (C.ValueRel w) vs vs')
    (hlen : vs.length = o.initial.length)
    (hx : x m = .ok (m.frames.enter label D).1 { m with
      frames := (m.frames.enter label D).2.defineAll (m.frames.enter label D).1
        (o.initial.zip vs) })
    (hy : y m' = .ok (m'.frames.enter label' D').1 { m' with
      frames := (m'.frames.enter label' D').2.defineAll (m'.frames.enter label' D').1
        (o'.initial.zip vs') }) :
    C.Simulates w (fun w' E E' => C.Env w' q E E') (.opening n o x) x y m m' := by
  obtain ⟨w', hw, he', hstore⟩ := C.opens label label' ho hinitial he hm.frames
  have hm' := hm.later hw (hstore _ vs vs' (extends_later hw) (forall₂_later hvs hw) hlen)
  refine ⟨w', hw, ?_, fun a ha => ?_, fun k hk hk' => ?_⟩
  · rw [hx, hy]
    exact ⟨rfl, rfl, hm', he'⟩
  · obtain ⟨E, m₁, hok, rfl⟩ := ha
    rw [hx] at hok
    cases hok
    exact ⟨w', _, _, C.later_refl w', hm', .opens ho he'⟩
  · rw [hx] at hk'
    simp only [Result.machine, Frames.size_defineAll, Frames.size_enter] at hk'
    obtain rfl : k = m.frames.size := by omega
    exact ⟨_, o, D, ⟨_, _, hx, rfl⟩, rfl⟩

theorem bindMethod_closure (c : Closure) (v : Value) :
    bindMethod (.closure c) v = (do
      let env ← receiverEnv c v
      let id ← freshId
      pure (.function id { c with env := env })) :=
  rfl

theorem bindMethod_simulates (n : Nat) {method method' : Method} {v v' : Value}
    (hm : C.MachineRel w m m') (hmethod : C.MethodRel w method method')
    (hv : C.ValueRel w v v') :
    C.Simulates w C.ValueRel (bindVisits n method v) (bindMethod method v)
      (bindMethod method' v') m m' := by
  cases hmethod with
  | native =>
      refine (freshId_simulates hm).map fun w₁ m₁ m₁' id id' hl hid => ?_
      subst hid
      exact simulates_pure hl.machine (.nativeMethod (hv.later hl.later))
  | @closure p q c c' he ho hf hi =>
      have hopen : C.Simulates w (fun w' E E' => C.Env w' q E E') (bindVisits n (.closure c) v)
          (receiverEnv c v) (receiverEnv c' v') m m' :=
        opening_simulates ho rfl he hm (.cons hv .nil) rfl rfl rfl
      rw [bindMethod_closure, bindMethod_closure]
      refine hopen.map fun w₁ m₁ m₁' E E' hl hE => ?_
      refine (freshId_simulates hl.machine).map fun w₂ m₂ m₂' id id' hl₂ hid => ?_
      subst hid
      refine simulates_pure hl₂.machine ?_
      exact .function ⟨q, C.env_later hl₂.later hE, hf, hi, fun _ => ⟨p, _, _, ho⟩⟩

theorem bindMethod_arity {method : Method} {v f : Value} {m₁ : Machine}
    (h : bindMethod method v m = .ok f m₁) : f.arity? = some method.arity := by
  cases method with
  | closure c =>
      have hstep : bindMethod (.closure c) v m = .ok (.function m.nextId
        { c with env := (m.frames.enter ("bound " ++ c.name) c.env).1 }) _ := rfl
      rw [hstep] at h
      cases h
      rfl
  | native n =>
      cases h
      rfl

/-! ## Instances -/

/-- Instances found in the store, with their places. -/
abbrev FoundRel (C : Comparison) (w : C.World) (x x' : Option (Nat × Instance)) : Prop :=
  Option.Rel (fun i i' => i.1 = i'.1 ∧ C.InstanceRel w i.2 i'.2) x x'

theorem instance?_simulates {v v' : Value} (hm : C.MachineRel w m m') (hv : C.ValueRel w v v') :
    C.Simulates w (C.FoundRel) .none (instance? v) (instance? v') m m' := by
  have hmachine : (instance? v m).machine = m := by cases v <;> rfl
  refine ⟨w, C.later_refl w, ?_, fun _ h => h.elim,
    announces_of_size (Nat.le_of_eq (by rw [hmachine]))⟩
  cases hv with
  | @object ref =>
      have hget := hm.objects.get? ref
      refine ⟨rfl, rfl, hm, ?_⟩
      generalize m.objects[ref]? = i at hget
      generalize m'.objects[ref]? = i' at hget
      cases hget with
      | none => exact .none
      | some hi => exact .some ⟨rfl, hi⟩
  | _ => exact ⟨rfl, rfl, hm, .none⟩

/-- Changing related instances alike. -/
theorem ObjectsRel.modify {o o' : Objects} (h : C.ObjectsRel w o o') (ref : Nat)
    {f f' : Instance → Instance}
    (hf : ∀ i i', C.InstanceRel w i i' → C.InstanceRel w (f i) (f' i')) :
    C.ObjectsRel w (o.modify ref f) (o'.modify ref f') := by
  unfold ObjectsRel at h ⊢
  rw [Array.toList_modify, Array.toList_modify]
  generalize o.toList = l at h
  generalize o'.toList = l' at h
  induction h generalizing ref with
  | nil => cases ref <;> exact .nil
  | cons hi hrest ih =>
      cases ref with
      | zero => exact .cons (hf _ _ hi) hrest
      | succ ref => exact .cons hi (ih ref)

theorem modify_simulates (ref : Nat) {f f' : Instance → Instance} (hm : C.MachineRel w m m')
    (hf : ∀ i i', C.InstanceRel w i i' → C.InstanceRel w (f i) (f' i')) :
    C.Simulates w anyUnit .none (modify ref f) (modify ref f') m m' := by
  refine ⟨w, C.later_refl w, ⟨rfl, rfl, ?_, trivial⟩, fun _ h => h.elim,
    announces_of_size (Nat.le_refl _)⟩
  exact ⟨hm.1, hm.2.modify ref hf, hm.3, hm.4, hm.5, hm.6⟩

theorem setField_simulates (ref : Nat) {name name' : String} {v v' : Value} (hn : name = name')
    (hm : C.MachineRel w m m') (hv : C.ValueRel w v v') :
    C.Simulates w anyUnit .none (setField ref name v) (setField ref name' v') m m' := by
  subst hn
  exact modify_simulates ref hm fun i i' hi =>
    ⟨hi.cls, TableRel.insert hi.fields name hv, hi.elements⟩

theorem allocate_simulates {c c' : Class} {vs vs' : Option (Array Value)}
    (hm : C.MachineRel w m m') (hc : C.ClassRel w c c')
    (hvs : Option.Rel (fun a a' => List.Forall₂ (C.ValueRel w) a.toList a'.toList) vs vs') :
    C.Simulates w C.ValueRel .none (allocate c vs) (allocate c' vs') m m' := by
  refine ⟨w, C.later_refl w, ⟨rfl, rfl, ?_, ?_⟩, fun _ h => h.elim,
    announces_of_size (Nat.le_refl _)⟩
  · refine ⟨hm.1, ?_, hm.3, hm.4, hm.5, hm.6⟩
    have hi : C.InstanceRel w { cls := c, elements := vs } { cls := c', elements := vs' } :=
      ⟨hc, .nil, hvs⟩
    unfold ObjectsRel
    simp only [Array.toList_push]
    exact List.rel_append hm.objects (.cons hi .nil)
  · rw [hm.objects.size]
    exact .object

theorem fieldOwner_simulates {name name' : Token} {v v' : Value} (hm : C.MachineRel w m m')
    (hv : C.ValueRel w v v') :
    C.Simulates w (fun _ ref ref' => ref = ref') .none (fieldOwner v name) (fieldOwner v' name')
      m m' := by
  cases hv with
  | object => exact simulates_pure hm rfl
  | _ => exact simulates_error hm

/-! ## Properties -/

/-- What binding the method of a property visits. -/
abbrev propertyVisits (n : Nat) (v : Value) (name : String) : Visits := fun m a =>
  ∃ method, methodOf? v name m = some method ∧ bindVisits n method v m a

theorem getProperty_object (ref : Nat) (name : Token) (m : Machine) :
    getProperty (.object ref) name m =
      match m.objects[ref]? with
      | none => error (.notAnInstance "properties") name m
      | some i =>
        match i.fields.find? name.lexeme with
        | some field => .ok field m
        | none =>
          match i.cls.findMethod? name.lexeme with
          | some method => bindMethod method (.object ref) m
          | none => error .undefinedProperty name m := by
  have hfound : instance? (.object ref) m = .ok ((m.objects[ref]?).map fun i => (ref, i)) m := rfl
  rw [getProperty, bind_apply, hfound]
  cases m.objects[ref]? with
  | none => rfl
  | some i =>
      simp only [Option.map_some]
      cases i.fields.find? name.lexeme with
      | some field => rfl
      | none => cases i.cls.findMethod? name.lexeme <;> rfl

theorem getProperty_simulates {n : Nat} {name name' : Token} {v v' : Value}
    (hn : name.Alike name') (hm : C.MachineRel w m m') (hv : C.ValueRel w v v') :
    C.Simulates w C.ValueRel (propertyVisits n v name.lexeme) (getProperty v name)
      (getProperty v' name') m m' := by
  have hno : ∀ {x y : Eval Value}, C.Simulates w C.ValueRel .none x y m m' →
      methodOf? v name.lexeme m = none →
      C.Simulates w C.ValueRel (propertyVisits n v name.lexeme) x y m m' := by
    intro x y h hnone
    refine h.imp (fun a => ⟨fun ha => ?_, False.elim⟩) fun _ _ _ _ hR => hR
    obtain ⟨method, hsome, _⟩ := ha
    rw [hnone] at hsome
    cases hsome
  cases hv with
  | @object ref =>
      have hget := hm.objects.get? ref
      unfold Simulates Announces
      rw [getProperty_object, getProperty_object, ← hn.lexeme]
      have hmethod : methodOf? (.object ref) name.lexeme m = m.objects[ref]?.bind fun i =>
        match i.fields.find? name.lexeme with
        | some _ => none
        | none => i.cls.findMethod? name.lexeme := rfl
      generalize m.objects[ref]? = i at hget hmethod
      generalize m'.objects[ref]? = i' at hget
      cases hget with
      | none => exact hno (simulates_error hm) hmethod
      | @some i i' hi =>
          have hfield := TableRel.find? hi.fields name.lexeme
          simp only [Option.bind_some] at hmethod ⊢
          generalize i.fields.find? name.lexeme = field at hfield hmethod
          generalize i'.fields.find? name.lexeme = field' at hfield
          cases hfield with
          | some hv => exact hno (simulates_pure hm hv) hmethod
          | none =>
              have hfound := hi.cls.findMethod? name.lexeme
              simp only [] at hmethod ⊢
              generalize i.cls.findMethod? name.lexeme = found at hfound hmethod
              generalize i'.cls.findMethod? name.lexeme = found' at hfound
              cases hfound with
              | none => exact hno (simulates_error hm) hmethod
              | some hf =>
                  refine (bindMethod_simulates n hm hf .object).imp
                    (fun a => ⟨fun ha => ?_, fun ha => ⟨_, hmethod, ha⟩⟩) fun _ _ _ _ hR => hR
                  obtain ⟨method, hsome, ha⟩ := ha
                  rw [hmethod] at hsome
                  cases hsome
                  exact ha
  | _ => exact hno (simulates_error hm) rfl

/-- What binding the method of a superclass visits. -/
abbrev superVisits (n : Nat) (name : String) (slot : Slot) : Visits := fun m a =>
  ∃ found receiver, superMethodOf? name slot m = some (found, receiver) ∧
    bindVisits n found receiver m a

theorem superMethod_some (method : Token) (d : Nat) (m : Machine) :
    superMethod method (some d) m =
      match m.frames.getAt m.env d superName with
      | .error f => .abort (.fault (.distance f)) m
      | .ok superclass =>
        match m.frames.getAt m.env (d - 1) thisName with
        | .error f => .abort (.fault (.distance f)) m
        | .ok receiver =>
          match superclass with
          | .cls c =>
            match c.findMethod? method.lexeme with
            | some found => bindMethod found receiver m
            | none => error .undefinedProperty method m
          | _ => fault .superNotClass m := by
  simp only [superMethod, bind_apply, environment, getAt]
  cases m.frames.getAt m.env d superName with
  | error f => rfl
  | ok superclass =>
      simp only []
      cases m.frames.getAt m.env (d - 1) thisName with
      | error f => rfl
      | ok receiver =>
          cases superclass with
          | cls c => cases hc : c.findMethod? method.lexeme <;> simp only [hc]
          | _ => rfl

theorem superMethodOf?_some (name : String) (d : Nat) (m : Machine) :
    superMethodOf? name (some d) m =
      match m.frames.getAt m.env d superName, m.frames.getAt m.env (d - 1) thisName with
      | .ok (.cls c), .ok receiver => (c.findMethod? name).map (·, receiver)
      | _, _ => none := rfl

theorem superMethod_simulates {n : Nat} {t t' method method' : Token} {slot slot' : Slot}
    (hn : method.Alike method')
    (hs : C.Refers p (.superRef t method slot) (.superRef t' method' slot'))
    (he : C.Env w p m.env m'.env) (hm : C.MachineRel w m m') :
    C.Simulates w C.ValueRel (superVisits n method.lexeme slot) (superMethod method slot)
      (superMethod method' slot') m m' := by
  have hno : ∀ {x y : Eval Value}, C.Simulates w C.ValueRel .none x y m m' →
      superMethodOf? method.lexeme slot m = none →
      C.Simulates w C.ValueRel (superVisits n method.lexeme slot) x y m m' := by
    intro x y h hnone
    refine h.imp (fun a => ⟨fun ha => ?_, False.elim⟩) fun _ _ _ _ hR => hR
    obtain ⟨found, receiver, hsome, _⟩ := ha
    rw [hnone] at hsome
    cases hsome
  rcases C.superclass hs he hm.frames with ⟨hmiss, rfl, rfl⟩ | ⟨d, d', rfl, rfl, hsuper, hthis⟩
  · exact hno (simulates_fault hm fun _ => hmiss) rfl
  unfold Simulates Announces
  rw [superMethod_some, superMethod_some, ← hn.lexeme]
  have hof := superMethodOf?_some method.lexeme d m
  rcases hsuper.getAt_cases with ⟨hmiss, f, f', hf, hf'⟩ | ⟨v, v', hv, hv', hrel⟩
  · rw [hf] at hof ⊢
    rw [hf']
    exact hno (simulates_abort hm (.misplaced hmiss)) hof
  rcases hthis.getAt_cases with ⟨hmiss, f, f', hf, hf'⟩ | ⟨u, u', hu, hu', hreceiver⟩
  · rw [hv, hf] at hof ⊢
    rw [hv', hf']
    refine hno (simulates_abort hm (.misplaced hmiss)) ?_
    cases v <;> exact hof
  rw [hv, hu] at hof ⊢
  rw [hv', hu']
  cases hrel with
  | @cls c c' hc =>
      have hfound := hc.findMethod? method.lexeme
      simp only [] at hof ⊢
      generalize c.findMethod? method.lexeme = found at hfound hof
      generalize c'.findMethod? method.lexeme = found' at hfound
      cases hfound with
      | none => exact hno (simulates_error hm) hof
      | some hf =>
          refine (bindMethod_simulates n hm hf hreceiver).imp
            (fun a => ⟨fun ha => ?_, fun ha => ⟨_, _, hof, ha⟩⟩) fun _ _ _ _ hR => hR
          obtain ⟨found, receiver, hsome, ha⟩ := ha
          rw [hof] at hsome
          cases hsome
          exact ha
  | _ => exact hno (simulates_fault hm fun h => h.elim) hof

/-! ## Classes -/

/-- What a class declaration with a superclass visits. -/
abbrev classVisits (n : Nat) (name : Token) (parent : Reference Slot)
    (methods : List (FunDecl Slot)) : Visits :=
  (Visits.one n (.eval (.var parent.name parent.slot))).andThen (superclassOf (some parent))
    fun c => .after (define name.lexeme .unassigned) fun _ =>
      .opening n (.superclass (.classDecl name (some parent) methods)) (methodEnv c)

/-- The value a class declaration finds for its superclass. -/
theorem superclassOf_simulates {n : Nat} {parent parent' : Reference Slot}
    (hr : C.Refers p (.var parent.name parent.slot) (.var parent'.name parent'.slot))
    (he : C.Env w p m.env m'.env) (hm : C.MachineRel w m m') :
    C.Simulates w (fun w' c c' => ∃ d d', c = some d ∧ c' = some d' ∧ C.ClassRel w' d d')
      (.one n (.eval (.var parent.name parent.slot))) (superclassOf (some parent))
      (superclassOf (some parent')) m m' := by
  have hstep : C.Simulates w
      (fun w' c c' => ∃ d d', c = some d ∧ c' = some d' ∧ C.ClassRel w' d d') .none
      (superclassOf (some parent)) (superclassOf (some parent')) m m' := by
    refine (lookUp_simulates (.inl rfl) hr he hm).map fun w₁ m₁ m₁' v v' hl hv => ?_
    cases hv with
    | cls hc => exact simulates_pure hl.machine ⟨_, _, rfl, rfl, hc⟩
    | _ => exact simulates_error hl.machine
  exact hstep.adding hm (.eval he (.var hr))

theorem methodTable_rel {E E' : Lox.Env} {fs fs' : List (FunDecl Slot)} (he : C.Env w p E E')
    (hfs : C.MethodsRel p fs fs') :
    TableRel (C.MethodRel w) (methodTable E fs) (methodTable E' fs') := by
  have hgo : ∀ (b b' : Bindings Method), TableRel (C.MethodRel w) b b' →
      TableRel (C.MethodRel w)
        (fs.foldl (fun b f => b.insert f.name.lexeme
          (.closure ⟨f, E, f.name.lexeme == initializerName⟩)) b)
        (fs'.foldl (fun b f => b.insert f.name.lexeme
          (.closure ⟨f, E', f.name.lexeme == initializerName⟩)) b') := by
    induction fs generalizing fs' with
    | nil =>
        cases hfs with
        | nil => exact fun _ _ h => h
    | cons f fs ih =>
        cases hfs with
        | cons ho hf hfs =>
            intro b b' hb
            simp only [List.foldl_cons, ← hf.name]
            exact ih hfs _ _ (TableRel.insert hb _ (.closure he ho hf (by rw [hf.name])))
  exact hgo [] [] .nil

theorem environment_simulates (hm : C.MachineRel w m m') :
    C.Simulates w (fun _ E E' => E = m.env ∧ E' = m'.env) .none environment environment m m' :=
  ⟨w, C.later_refl w, ⟨rfl, rfl, hm, rfl, rfl⟩, fun _ h => h.elim,
    announces_of_size (Nat.le_refl _)⟩

theorem enter_simulates {n : Nat} {E E' : Lox.Env} {body body' : List (Stmt Slot)}
    {label label' : String} (hb : C.Opens p (.block body) (.block body') q)
    (he : C.Env w p E E') (hm : C.MachineRel w m m') :
    C.Simulates w (fun w' E E' => C.Env w' q E E') (.opening n (.block body) (enter label E))
      (enter label E) (enter label' E') m m' :=
  opening_simulates hb rfl he hm .nil rfl rfl rfl

theorem methodEnv_simulates {n : Nat} {s s' : Stmt Slot} {c c' : Class}
    (hi : C.Opens p (.superclass s) (.superclass s') q) (he : C.Env w p m.env m'.env)
    (hm : C.MachineRel w m m') (hc : C.ClassRel w c c') :
    C.Simulates w (fun w' E E' => C.Env w' q E E') (.opening n (.superclass s) (methodEnv (some c)))
      (methodEnv (some c)) (methodEnv (some c')) m m' :=
  opening_simulates hi rfl he hm (.cons (.cls hc) .nil) rfl rfl rfl

theorem declareClass_plain_simulates {name name' : Token} {methods methods' : List (FunDecl Slot)}
    {b : C.Spot} (hn : name.lexeme = name'.lexeme) (hd : C.Declares p name name' b q)
    (hfs : C.MethodsRel q methods methods') (he : C.Env w p m.env m'.env)
    (hm : C.MachineRel w m m') :
    C.Simulates w (fun w' _ _ => C.Env w' q m.env m'.env) .none (declareClass name none methods)
      (declareClass name' none methods') m m' := by
  refine (simulates_pure hm (R := fun _ c c' => c = none ∧ c' = none) ⟨rfl, rfl⟩).map
    fun w₁ m₁ m₁' c c' hl₁ hc => ?_
  obtain ⟨rfl, rfl⟩ := hc
  refine (define_simulates hd (hl₁.spot he) hl₁.machine fun _ _ _ => .unassigned).map
    fun w₂ m₂ m₂' _ _ hl₂ he₂ => ?_
  have hl := hl₁.trans hl₂
  refine (environment_simulates hl₂.machine).map fun w₃ m₃ m₃' E E' hl₃ hE => ?_
  obtain ⟨rfl, rfl⟩ := hE
  refine (freshId_simulates hl₃.machine).map fun w₄ m₄ m₄' id id' hl₄ hid => ?_
  subst hid
  have hlast := hl₃.trans hl₄
  have he₄ : C.Env w₄ q m₂.env m₂'.env := C.env_later hlast.later (hl₂.stay.mp he₂)
  have hbody : C.BodyRel w₄ ⟨id, name.lexeme, methodTable m₂.env methods, false⟩
      ⟨id, name'.lexeme, methodTable m₂'.env methods', false⟩ :=
    ⟨rfl, hn, methodTable_rel he₄ hfs, rfl⟩
  refine (redefine_simulates hd (hlast.stay.mp he₄) hl₄.machine (.cls (.root hbody))).imp
    (fun _ => Iff.rfl) fun w' _ _ hw _ => ?_
  exact C.env_later hw (hl.stay.mpr he₄)

theorem declareClass_derived_simulates {n : Nat} {name name' : Token}
    {parent parent' : Reference Slot} {methods methods' : List (FunDecl Slot)} {b i : C.Spot}
    (hn : name.lexeme = name'.lexeme)
    (hd : C.Declares p name name' b q)
    (hp : C.Refers p (.var parent.name parent.slot) (.var parent'.name parent'.slot))
    (hi : C.Opens q (.superclass (.classDecl name (some parent) methods))
      (.superclass (.classDecl name' (some parent') methods')) i)
    (hfs : C.MethodsRel i methods methods') (he : C.Env w p m.env m'.env)
    (hm : C.MachineRel w m m') :
    C.Simulates w (fun w' _ _ => C.Env w' q m.env m'.env) (classVisits n name parent methods)
      (declareClass name (some parent) methods) (declareClass name' (some parent') methods')
      m m' := by
  refine (superclassOf_simulates hp he hm).bind fun w₁ m₁ m₁' c c' hl₁ _ hc => ?_
  obtain ⟨d, d', rfl, rfl, hc⟩ := hc
  refine (define_simulates hd (hl₁.spot he) hl₁.machine fun _ _ _ => .unassigned).after
    fun w₂ m₂ m₂' _ _ hl₂ _ he₂ => ?_
  have hl := hl₁.trans hl₂
  have hc₂ := hc.later hl₂.later
  refine (methodEnv_simulates hi (hl₂.stay.mp he₂) hl₂.machine hc₂).map
    fun w₃ m₃ m₃' E E' hl₃ hE => ?_
  refine (freshId_simulates hl₃.machine).map fun w₄ m₄ m₄' id id' hl₄ hid => ?_
  subst hid
  have hlast := hl₃.trans hl₄
  have he₄ : C.Env w₄ q m₂.env m₂'.env := C.env_later hlast.later (hl₂.stay.mp he₂)
  have hbody : C.BodyRel w₄ ⟨id, name.lexeme, methodTable E methods, false⟩
      ⟨id, name'.lexeme, methodTable E' methods', false⟩ :=
    ⟨rfl, hn, methodTable_rel (C.env_later hl₄.later hE) hfs, rfl⟩
  have hvalue : C.ValueRel w₄ (.cls (.derived _ d)) (.cls (.derived _ d')) :=
    .cls (.derived hbody (hc₂.later hlast.later))
  refine (redefine_simulates hd (hlast.stay.mp he₄) hl₄.machine hvalue).imp
    (fun _ => Iff.rfl) fun w' _ _ hw _ => ?_
  exact C.env_later hw (hl.stay.mpr he₄)

/-! ## Calls -/

/-- Statements that complete alike. -/
inductive CompletionRel (C : Comparison) (w : C.World) : Completion → Completion → Prop
  | normal : CompletionRel C w .normal .normal
  | returned {v v' : Value} : C.ValueRel w v v' → CompletionRel C w (.returned v) (.returned v')

theorem checkCall_simulates {v v' : Value} {count : Nat} {paren paren' : Token}
    (hm : C.MachineRel w m m') (hv : C.ValueRel w v v') :
    C.Simulates w (fun _ _ _ => v.arity? = some count) .none (checkCall v count paren)
      (checkCall v' count paren') m m' := by
  have harity := hv.arity?
  simp only [checkCall, ← harity]
  cases h : v.arity? with
  | none => exact simulates_error hm
  | some arity =>
      simp only []
      split
      · next heq => exact simulates_pure hm (by rw [heq])
      · exact simulates_error hm

theorem checkCall_ok {v : Value} {count : Nat} {paren : Token} (h : v.arity? = some count) :
    checkCall v count paren m = .ok () m := by
  simp only [checkCall, h]
  rfl

theorem callEnv_eq (c : Closure) (vs : List Value) (m : Machine) :
    callEnv c vs m = .ok (m.frames.enter ("call " ++ c.name) c.env).1 { m with
      frames := (m.frames.enter ("call " ++ c.name) c.env).2.defineAll
        (m.frames.enter ("call " ++ c.name) c.env).1
        ((Opening.call c.declaration).initial.zip vs) } := by
  simp only [callEnv, Bind.bind, enter, bindAll_eq]
  rfl

theorem callEnv_simulates {n : Nat} {c c' : Closure} {vs vs' : List Value}
    (hcall : C.Opens p (.call c.declaration) (.call c'.declaration) q)
    (hparams : c.declaration.params.length = c'.declaration.params.length)
    (he : C.Env w p c.env c'.env) (hm : C.MachineRel w m m')
    (hvs : List.Forall₂ (C.ValueRel w) vs vs')
    (hlen : vs.length = c.declaration.params.length) :
    C.Simulates w (fun w' E E' => C.Env w' q E E')
      (.opening n (.call c.declaration) (callEnv c vs)) (callEnv c vs) (callEnv c' vs') m m' :=
  opening_simulates hcall (by simpa [Opening.initial] using hparams) he hm hvs
    (by simpa [Opening.initial] using hlen) (callEnv_eq c vs m) (callEnv_eq c' vs' m')

theorem callValue_simulates {c c' : Closure} {k k' : Completion} (hc : C.ClosureRel w c c')
    (hm : C.MachineRel w m m') (hk : C.CompletionRel w k k') :
    C.Simulates w C.ValueRel .none (callValue c k) (callValue c' k') m m' := by
  obtain ⟨p, he, _, hi, hr⟩ := hc
  simp only [callValue, ← hi]
  split
  · next hinit =>
      obtain ⟨q, f, f', hr⟩ := hr hinit
      have hmachine : (getAt c.env 0 thisName m).machine = m := by
        simp only [getAt]
        split <;> rfl
      refine ⟨w, C.later_refl w, ?_, fun _ h => h.elim,
        announces_of_size (Nat.le_of_eq (by rw [hmachine]))⟩
      simp only [getAt]
      rcases (C.receiver hr he hm.frames).getAt_cases with
        ⟨hmiss, f, f', hf, hf'⟩ | ⟨v, v', hv, hv', h⟩
      · rw [hf, hf']
        exact ⟨rfl, rfl, hm, .misplaced hmiss⟩
      · rw [hv, hv']
        exact ⟨rfl, rfl, hm, h⟩
  · cases hk with
    | normal => exact simulates_pure hm .nil
    | returned hv => exact simulates_pure hm hv

end Comparison
end Lox
