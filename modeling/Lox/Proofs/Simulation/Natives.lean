import Lox.Proofs.Simulation.Operations

/-!
# Native functions on related machines

A native function sees its arguments, the vectors they refer to and the clock, and
all of these are related.
-/

namespace Lox
namespace Comparison

open Eval

variable {C : Comparison} {w : C.World} {m m' : Machine}

theorem AbortRel.failure_of_eq {s s' : String} (h : s = s') :
    C.AbortRel (.failure s) (.failure s') := by
  subst h
  exact .failure

/-- Related vectors in the same place. -/
abbrev VectorRel (C : Comparison) (w : C.World) (x x' : Nat × Array Value) : Prop :=
  x.1 = x'.1 ∧ List.Forall₂ (C.ValueRel w) x.2.toList x'.2.toList

theorem simulates_refuse {α : Type} {R : C.World → α → α → Prop} (message : String)
    (hm : C.MachineRel w m m') : C.Simulates w R .none (refuse message) (refuse message) m m' :=
  simulates_abort hm .failure

theorem vectorAt_simulates {v v' : Value} (hm : C.MachineRel w m m') (hv : C.ValueRel w v v') :
    C.Simulates w (C.VectorRel) .none (vectorAt v) (vectorAt v') m m' := by
  refine (instance?_simulates hm hv).map fun w₁ m₁ m₁' x x' hl hx => ?_
  cases hx with
  | none => exact simulates_fault hl.machine fun h => h.elim
  | @some i i' hi =>
      obtain ⟨ref, c, fields, es⟩ := i
      obtain ⟨ref', c', fields', es'⟩ := i'
      obtain ⟨rfl, hi⟩ := hi
      have helements := hi.elements
      simp only [] at helements
      cases helements with
      | none => exact simulates_fault hl.machine fun h => h.elim
      | some hes => exact simulates_pure hl.machine ⟨rfl, hes⟩

theorem forall₂_push {es es' : Array Value} {v v' : Value}
    (hes : List.Forall₂ (C.ValueRel w) es.toList es'.toList) (hv : C.ValueRel w v v') :
    List.Forall₂ (C.ValueRel w) (es.push v).toList (es'.push v').toList := by
  rw [Array.toList_push, Array.toList_push]
  exact List.rel_append hes (.cons hv .nil)

theorem appendTo_simulates {u u' v v' : Value} (hm : C.MachineRel w m m')
    (hu : C.ValueRel w u u') (hv : C.ValueRel w v v') :
    C.Simulates w C.ValueRel .none (appendTo u v) (appendTo u' v') m m' := by
  have href :
      C.Simulates w (fun _ ref ref' => ref = ref') .none (vectorRef u) (vectorRef u') m m' :=
    (vectorAt_simulates hm hu).map fun w₁ m₁ m₁' x x' hl hx => simulates_pure hl.machine hx.1
  refine href.map fun w₁ m₁ m₁' ref ref' hl heq => ?_
  subst heq
  have hv₁ := hv.later hl.later
  have hpush : ∀ i i', C.InstanceRel w₁ i i' →
      C.InstanceRel w₁ { i with elements := i.elements.map fun es => es.push v }
        { i' with elements := i'.elements.map fun es => es.push v' } := by
    intro i i' hi
    refine ⟨hi.cls, hi.fields, ?_⟩
    have helements := hi.elements
    simp only []
    generalize i.elements = es at helements
    generalize i'.elements = es' at helements
    cases helements with
    | none => exact .none
    | some hes => exact .some (forall₂_push hes hv₁)
  exact (modify_simulates ref hl.machine hpush).map fun w₂ m₂ m₂' _ _ hl₂ _ =>
    simulates_pure hl₂.machine .nil

theorem lengthOf_simulates {v v' : Value} (hm : C.MachineRel w m m') (hv : C.ValueRel w v v') :
    C.Simulates w C.ValueRel .none (lengthOf v) (lengthOf v') m m' := by
  refine (vectorAt_simulates hm hv).map fun w₁ m₁ m₁' x x' hl hx => ?_
  have hsize : x.2.size = x'.2.size := by
    rw [← Array.length_toList, ← Array.length_toList]
    exact hx.2.length_eq
  refine simulates_pure hl.machine ?_
  rw [hsize]
  exact .number

theorem element_simulates {es es' : Array Value} (index : Int) (hm : C.MachineRel w m m')
    (hes : List.Forall₂ (C.ValueRel w) es.toList es'.toList) :
    C.Simulates w C.ValueRel .none (element es index) (element es' index) m m' := by
  have hsize : es.size = es'.size := by
    rw [← Array.length_toList, ← Array.length_toList]
    exact hes.length_eq
  have hget : ∀ i : Nat, Option.Rel (C.ValueRel w) es[i]? es'[i]? := by
    intro i
    rw [← Array.getElem?_toList, ← Array.getElem?_toList]
    exact forall₂_getElem? hes i
  simp only [element, hsize]
  generalize (if index < 0 then index + (es'.size : Int) else index) = position
  split
  · exact simulates_refuse _ hm
  · have hfound := hget position.toNat
    generalize es[position.toNat]? = x at hfound
    generalize es'[position.toNat]? = x' at hfound
    cases hfound with
    | none => exact simulates_refuse _ hm
    | some hv => exact simulates_pure hm hv

theorem elementAt_simulates {u u' v v' : Value} (hm : C.MachineRel w m m')
    (hu : C.ValueRel w u u') (hv : C.ValueRel w v v') :
    C.Simulates w C.ValueRel .none (elementAt u v) (elementAt u' v') m m' := by
  have hname := hv.typeName hm.objects
  have hindex : index? v = index? v' := by cases hv <;> rfl
  simp only [elementAt, ← hindex]
  cases index? v with
  | some i =>
      exact (vectorAt_simulates hm hu).map fun w₁ m₁ m₁' x x' hl hx =>
        element_simulates i hl.machine hx.2
  | none =>
      cases hv with
      | number => exact simulates_refuse _ hm
      | _ => exact ⟨w, C.later_refl w, ⟨rfl, rfl, hm, .failure_of_eq (by simp only [hname])⟩,
          fun _ h => h.elim, announces_of_size (Nat.le_refl _)⟩

theorem runBody_simulates (n : Native) {vs vs' : List Value} (hm : C.MachineRel w m m')
    (hvs : List.Forall₂ (C.ValueRel w) vs vs') :
    C.Simulates w C.ValueRel .none (runBody n vs) (runBody n vs') m m' := by
  unfold runBody
  cases n.body with
  | clock => exact readClock_simulates hm
  | typeOf =>
      cases hvs with
      | nil => exact simulates_pure hm .nil
      | cons hv _ =>
          refine ⟨w, C.later_refl w, ⟨rfl, rfl, hm, ?_⟩, fun _ h => h.elim,
        announces_of_size (Nat.le_refl _)⟩
          rw [hv.typeName hm.objects]
          exact .text
  | append =>
      rcases hvs with _ | ⟨hu, _ | ⟨hv, _⟩⟩
      · exact simulates_pure hm .nil
      · exact simulates_pure hm .nil
      · exact appendTo_simulates hm hu hv
  | length =>
      cases hvs with
      | nil => exact simulates_pure hm .nil
      | cons hv _ => exact lengthOf_simulates hm hv
  | elementAt =>
      rcases hvs with _ | ⟨hu, _ | ⟨hv, _⟩⟩
      · exact simulates_pure hm .nil
      · exact simulates_pure hm .nil
      · exact elementAt_simulates hm hu hv
  | argument index =>
      cases index with
      | none => exact simulates_pure hm .nil
      | some i =>
          have hfound := forall₂_getElem? hvs i
          simp only []
          generalize vs[i]? = x at hfound
          generalize vs'[i]? = x' at hfound
          cases hfound with
          | none => exact simulates_refuse _ hm
          | some hv => exact simulates_pure hm hv
  | refuse message => exact simulates_refuse _ hm
  | fail message => exact simulates_refuse _ hm
  | breakDown => exact simulates_fault hm fun h => h.elim

theorem runFunction_simulates (n : Native) {vs vs' : List Value} (hm : C.MachineRel w m m')
    (hvs : List.Forall₂ (C.ValueRel w) vs vs') :
    C.Simulates w C.ValueRel .none (runFunction n vs) (runFunction n vs') m m' := by
  simp only [runFunction, hvs.length_eq]
  split
  · exact simulates_refuse _ hm
  · exact runBody_simulates n hm hvs

theorem runMethod_simulates (n : Native) {v v' : Value} {vs vs' : List Value}
    (hm : C.MachineRel w m m') (hv : C.ValueRel w v v')
    (hvs : List.Forall₂ (C.ValueRel w) vs vs') :
    C.Simulates w C.ValueRel .none (runMethod n v vs) (runMethod n v' vs') m m' := by
  have hrun := runFunction_simulates n hm (.cons hv hvs)
  cases hv with
  | nil => exact simulates_refuse _ hm
  | _ => exact hrun

end Comparison
end Lox
