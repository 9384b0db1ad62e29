import Lox.Proofs.Joining.Units
import Lox.Proofs.Printing.Reading

/-!
# Printed data reads back

Evaluating a tree that data were written down as makes a value that the data describe. Nothing
else happens on the machine but that new vectors are added behind the instances that are there.
So the text that is printed for data, with a semicolon behind it, is a program whose value is
described by the same data, and is printed with the same text.
-/

namespace Lox
namespace Shape

open Eval

theorem bind_of_ok {α β : Type} {x : Eval α} {f : α → Eval β} {a : α} {m m' : Machine}
    (h : x m = .ok a m') : (x >>= f) m = f a m' := by
  rw [bind_apply, h]

theorem steps_pos (d : Shape) : 0 < d.steps := by
  cases d <;> simp [steps]

mutual

/-- The value of the tree is described by the data, and only new instances are made. -/
theorem Written.eval {d : Shape} {e : Expr Slot} (h : Written d e) {n : Nat}
    (hn : d.steps ≤ n) (m : Machine) :
    ∃ v made, Eval.eval n e m = .ok v { m with objects := m.objects ++ made } ∧
      Describes (m.objects ++ made) d v := by
  obtain ⟨n, rfl⟩ : ∃ k, n = k + 1 := ⟨n - 1, by have := d.steps_pos; omega⟩
  match h with
  | .nil => exact ⟨.nil, #[], by rw [Eval.eval, Array.append_empty]; rfl, .nil⟩
  | .bool b => exact ⟨.bool b, #[], by rw [Eval.eval, Array.append_empty]; rfl, .bool b⟩
  | .number x => exact ⟨.number x, #[], by rw [Eval.eval, Array.append_empty]; rfl, .number x⟩
  | .negated x hminus =>
      obtain ⟨n, rfl⟩ : ∃ k, n = k + 1 := ⟨n - 1, by rw [steps] at hn; omega⟩
      refine ⟨.number (-x), #[], ?_, .number (-x)⟩
      rw [Eval.eval, bind_apply, Eval.eval, Array.append_empty]
      show unaryOp _ _ m = _
      simp only [unaryOp, hminus, Constant.toValue]
      rfl
  | .vector hs =>
      rw [steps] at hn
      obtain ⟨vs, made, heval, hvs⟩ := hs.evalAll (Nat.le_of_succ_le_succ hn) m
      let inst : Instance := { cls := m.vectorClass, elements := some vs.toArray }
      refine ⟨.object (m.objects ++ made).size, made ++ #[inst], ?_, ?_⟩
      · rw [Eval.eval]
        refine (bind_of_ok heval).trans ?_
        simp only [allocate, Array.push_eq_append, Array.append_assoc]
        rfl
      · rw [← Array.append_assoc]
        exact .vector (by simp) (rfl : inst.elements = _) (hvs.later _)

theorem WrittenAll.evalAll {ds : List Shape} {es : List (Expr Slot)} (h : WrittenAll ds es)
    {n : Nat} (hn : stepsAll ds ≤ n) (m : Machine) :
    ∃ vs made, Eval.evalAll n es m = .ok vs { m with objects := m.objects ++ made } ∧
      DescribesAll (m.objects ++ made) ds vs := by
  match h with
  | .nil =>
      rw [stepsAll] at hn
      obtain ⟨n, rfl⟩ : ∃ k, n = k + 1 := ⟨n - 1, by omega⟩
      exact ⟨[], #[], by rw [Eval.evalAll, Array.append_empty]; rfl, .nil⟩
  | .cons hd hs =>
      rw [stepsAll] at hn
      obtain ⟨n, rfl⟩ : ∃ k, n = k + 1 := ⟨n - 1, by omega⟩
      obtain ⟨v, made, heval, hv⟩ := hd.eval (n := n) (by omega) m
      obtain ⟨vs, made', hevals, hvs⟩ :=
        hs.evalAll (n := n) (by omega) { m with objects := m.objects ++ made }
      refine ⟨v :: vs, made ++ made', ?_, ?_⟩
      · rw [Eval.evalAll]
        refine (bind_of_ok heval).trans ((bind_of_ok hevals).trans ?_)
        simp only [Array.append_assoc]
        rfl
      · rw [← Array.append_assoc]
        exact .cons (hv.later made') hvs

end

/-- A statement that is such a tree completes with the value, and prints nothing. -/
theorem Written.interpretWith {d : Shape} {e : Expr Slot} (h : Written d e) {budget : Nat}
    (hbudget : d.steps + 2 ≤ budget) (m : Machine) :
    ∃ v made, m.interpretWith budget [.expression e] =
        (.completed, { m.fresh with objects := m.objects ++ made, lastValue := v }) ∧
      Describes (m.objects ++ made) d v := by
  obtain ⟨n, rfl⟩ : ∃ k, budget = k + 2 := ⟨budget - 2, by omega⟩
  obtain ⟨v, made, heval, hv⟩ := h.eval (Nat.le_of_add_le_add_right hbudget) m.fresh
  refine ⟨v, made, ?_, hv⟩
  have hexec : exec (n + 1) (.expression e) m.fresh = .ok .normal
      { m.fresh with objects := m.objects ++ made, lastValue := v } := by
    rw [exec]
    exact bind_of_ok heval
  rw [Machine.interpretWith_eq, execUnit]
  exact congrArg Result.finish (bind_of_ok hexec)

end Shape

/-- Printed data reads back. The text of a value that data describe, with a semicolon behind it,
is accepted as one expression statement. Running it, with a budget that lets the data be followed
to its end, completes with a value that the same data describe, bit for bit in its numbers, and
that has the same text; all that is left besides are the vectors of that value. -/
theorem Session.printed_readsBack {objects : Objects} {v : Value} {d : Shape} (hplain : d.Plain)
    (hv : Shape.Describes objects d v) :
    let source := v.render objects ++ ";"
    ∃ e : Expr Slot,
      (∀ im limit name, limit.reachedBy 0 = some false →
        (UnitReading.ofSource im limit name false source).accepted? = some [.expression e]) ∧
      (∀ (m : Machine) (budget : Nat), d.steps + 2 ≤ budget → ∃ u made,
        m.interpretWith budget [.expression e] =
            (.completed, { m.fresh with objects := m.objects ++ made, lastValue := u }) ∧
          Shape.Describes (m.objects ++ made) d u ∧
          u.render (m.objects ++ made) = v.render objects) ∧
      ∀ (s : Session) (name : Option String), s.settings.errorLimit.reachedBy 0 = some false →
        d.steps + 2 ≤ stepBudget →
        let after := (s.run source name).2.machine
        (s.run source name).1.outcome = .completed ∧
          Shape.Describes after.objects d after.lastValue ∧
          after.lastValue.render after.objects = v.render objects := by
  intro source
  obtain ⟨e, he, haccepted⟩ := hplain.accepted
  rw [← hv.render] at haccepted
  refine ⟨e, haccepted, fun m budget hbudget => ?_, fun s name hlimit hbudget => ?_⟩
  · obtain ⟨u, made, hrun, hu⟩ := he.interpretWith hbudget m
    exact ⟨u, made, hrun, hu, hu.render.trans hv.render.symm⟩
  · obtain ⟨houtcome, _, hsession⟩ := s.run_accepted (haccepted s.importer _ name hlimit)
    obtain ⟨u, made, hrun, hu⟩ := he.interpretWith hbudget s.machine
    rw [hsession, houtcome, hrun]
    exact ⟨rfl, hu, hu.render.trans hv.render.symm⟩

/-- A vector that holds another one twice, the negative zero, and a number with more digits than
a mantissa has. -/
theorem Session.printed_readsBack_nested :
    let large := Float.ofBits 0x4340000000000001
    let zero := Float.ofBits 0x8000000000000000
    let twelve := Float.ofBits 0xC028000000000000
    let c := NativeTable.standard.vectorClass
    let objects : Objects := #[{ cls := c, elements := some #[.number large, .nil] },
      { cls := c, elements := some #[.number zero, .object 0, .bool true, .number twelve,
        .object 0] }]
    let inner := Shape.vector [.number large, .nil]
    let d := Shape.vector [.number zero, inner, .bool true, .number twelve, inner]
    let text := "[-0, [9007199254740994, nil], true, -12, [9007199254740994, nil]]"
    let s := bare {} {} ⟨[], false⟩ (fun _ => 0)
    let after := (s.run (text ++ ";")).2.machine
    d.Plain ∧ Shape.Describes objects d (.object 1) ∧ (Value.object 1).render objects = text ∧
      s.settings.errorLimit.reachedBy 0 = some false ∧ d.steps + 2 ≤ stepBudget ∧
      (s.run (text ++ ";")).1.outcome = .completed ∧
      Shape.Describes after.objects d after.lastValue ∧
      after.lastValue.render after.objects = text := by
  intro large zero twelve c objects inner d text s after
  have hinner : inner.Plain := by
    simp only [inner, Shape.Plain, Shape.PlainAll, and_true]
    exact ⟨by decide, 9007199254740994, by decide +kernel, by decide⟩
  have hplain : d.Plain := by
    simp only [d, Shape.Plain, Shape.PlainAll, true_and, and_true, hinner]
    exact ⟨by decide, ⟨0, by decide +kernel, by decide⟩, -12, by decide +kernel, by decide⟩
  have hv' : Shape.Describes objects inner (.object 0) :=
    .vector (rfl : objects[0]? = some objects[0]) rfl (.cons (.number large) (.cons .nil .nil))
  have hv : Shape.Describes objects d (.object 1) :=
    .vector (rfl : objects[1]? = some objects[1]) rfl (.cons (.number zero) (.cons hv'
      (.cons (.bool true) (.cons (.number twelve) (.cons hv' .nil)))))
  have htext : (Value.object 1).render objects = text := by decide +kernel
  have hbudget : d.steps + 2 ≤ stepBudget := by decide +kernel
  obtain ⟨e, -, -, hrun⟩ := Session.printed_readsBack hplain hv
  rw [htext] at hrun
  obtain ⟨houtcome, hdescribes, hrender⟩ := hrun s none (by decide) hbudget
  exact ⟨hplain, hv, htext, by decide, hbudget, houtcome, hdescribes, hrender⟩

end Lox
