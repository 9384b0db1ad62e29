import Lox.Session
import Mathlib.Data.Finset.Card

/-!
# Rendering inside a path

A machine writes values with marks on the vectors that it is in the middle of. Such marks
would be seen by the next text if one of them stayed. None does: every writing takes off
the marks that it made, however it ends, so the marks are the same after it as before
(`Value.write_set`), and a machine that writes is the same machine after it.

The same texts come from `Value.renderIn`, which hands the vectors that are being written
down as a path. That no path is longer than there are instances is what makes a limit
beyond their number as good as none.
-/

namespace Lox
namespace Value

/-- The text of a value that occurs inside the vectors on `path`, with a budget of
vectors that may still be entered. -/
def renderIn (objects : Objects) : Nat → List Nat → Value → String
  | _, _, nil => "nil"
  | _, _, bool b => if b then "true" else "false"
  | _, _, number x => Layout.display.number x
  | _, _, text s => s
  | _, _, function _ c => "<fn " ++ c.name ++ ">"
  | _, _, native _ n => "<native fn " ++ n.name ++ ">"
  | _, _, nativeMethod _ n _ => "<native method " ++ n.name ++ ">"
  | _, _, cls c => c.name
  | _, _, unassigned => "UNASSIGNED"
  | 0, _, object _ => ""
  | budget + 1, path, object ref =>
    match objects[ref]? with
    | none => ""
    | some inst =>
      match inst.elements with
      | none => inst.cls.name ++ " instance"
      | some elements =>
        if path.contains ref then "[...]"
        else
          "[" ++ String.intercalate ", "
            (elements.toList.map (renderIn objects budget (ref :: path))) ++ "]"

/-- The text of a value while no vector is being written. -/
def render (objects : Objects) (v : Value) : String :=
  renderIn objects (objects.size + 1) [] v

/-! ## The marks afterwards -/

theorem writeAll_set {write : Value → List Nat → Option String × List Nat}
    (h : ∀ v writing, (write v writing).2 = writing) (vs : List Value) (writing : List Nat) :
    (writeAll write vs writing).2 = writing := by
  induction vs generalizing writing with
  | nil => rfl
  | cons v rest ih =>
      have hv := h v writing
      rw [writeAll]
      generalize write v writing = r at hv
      obtain ⟨_ | shown, after⟩ := r
      · exact hv
      · rw [← hv]
        exact ih after

/-- The mark of a vector is taken off as it was made, so nothing that is written changes
the marks. -/
theorem write_set (objects : Objects) (limit : Nat) (v : Value) (writing : List Nat) :
    (v.write objects limit writing).2 = writing := by
  induction limit generalizing v writing with
  | zero => cases v <;> rfl
  | succ limit ih =>
      cases v with
      | object ref =>
          rw [write]
          split
          · rfl
          · next elements _ =>
              split
              · rfl
              · show (writeAll (write objects limit) elements.toList (ref :: writing)).2.erase ref =
                  writing
                rw [writeAll_set ih, List.erase_cons_head]
      | _ => rfl

/-! ## The texts -/

theorem writeAll_eq {write : Value → List Nat → Option String × List Nat}
    {shown : Value → String} {writing : List Nat}
    (h : ∀ v, write v writing = (some (shown v), writing)) (vs : List Value) :
    writeAll write vs writing = (some (vs.map shown), writing) := by
  induction vs with
  | nil => rfl
  | cons v rest ih =>
      rw [writeAll, h]
      simp only [ih, Option.map_some, List.map_cons]

/-- Of the instances of a store no more are marked than there are. -/
theorem card_writing_le {objects : Objects} {writing : Finset Nat}
    (h : ∀ ref ∈ writing, ref < objects.size) : writing.card ≤ objects.size := by
  have hsub : writing ⊆ Finset.range objects.size :=
    fun ref href => Finset.mem_range.mpr (h ref href)
  simpa using Finset.card_le_card hsub

/-- The instances among the marks. -/
def marked (objects : Objects) (writing : List Nat) : Finset Nat :=
  writing.toFinset.filter (· < objects.size)

theorem card_marked_le (objects : Objects) (writing : List Nat) :
    (marked objects writing).card ≤ objects.size :=
  card_writing_le fun _ h => (Finset.mem_filter.mp h).2

theorem card_marked_cons {objects : Objects} {ref : Nat} {writing : List Nat}
    (hsize : ref < objects.size) (hnew : ref ∉ writing) :
    (marked objects (ref :: writing)).card = (marked objects writing).card + 1 := by
  have hnew' : ref ∉ marked objects writing := fun h =>
    hnew (List.mem_toFinset.mp (Finset.mem_filter.mp h).1)
  rw [marked, List.toFinset_cons, Finset.filter_insert, if_pos hsize]
  exact Finset.card_insert_of_notMem hnew'

/-- With a limit beyond the instances that are not marked, the text of a value is that inside
the path of the marks. -/
theorem write_eq_renderIn (objects : Objects) {limit : Nat} {writing : List Nat}
    (hlimit : objects.size < limit + (marked objects writing).card) (v : Value) :
    v.write objects limit writing = (some (v.renderIn objects limit writing), writing) := by
  induction limit generalizing v writing with
  | zero =>
      have hcard := card_marked_le objects writing
      omega
  | succ limit ih =>
      cases v with
      | object ref =>
          rw [write, renderIn]
          cases hinst : objects[ref]? with
          | none => simp [plainText, hinst]
          | some inst =>
              obtain ⟨cls, fields, _ | elements⟩ := inst
              · simp [plainText, hinst]
              · rw [Option.bind_some]
                dsimp only
                by_cases hmem : ref ∈ writing
                · rw [if_pos hmem, if_pos (by simpa using hmem)]
                · rw [if_neg hmem, if_neg (by simpa using hmem)]
                  have hcard := card_marked_cons (Array.getElem?_eq_some_iff.mp hinst).1 hmem
                  have hwrite : ∀ u : Value, u.write objects limit (ref :: writing) =
                      (some (u.renderIn objects limit (ref :: writing)), ref :: writing) :=
                    ih (by omega)
                  rw [writeAll_eq hwrite, List.erase_cons_head]
                  rfl
      | _ => rfl

/-- A vector that holds itself is written with dots and leaves no mark; with too small a
limit there is no text, and no mark stays either. -/
example :
    let v : Instance := ⟨.root ⟨0, "vec", [], true⟩, [], some #[.nil, .object 0]⟩
    (object 0).write #[v] 2 [] = (some "[nil, [...]]", []) ∧
      (object 0).write #[v, ⟨.root ⟨0, "vec", [], true⟩, [], some #[.object 0]⟩] 0 [] =
        (none, []) := by
  decide +kernel

end Value

/-! ## The texts of a machine -/

namespace Machine

/-- A machine that writes is the same afterwards. -/
theorem write_eq (m : Machine) (v : Value) : m.write v = (m.render v, m) := by
  have hset := Value.write_set m.objects (m.objects.size + 1) v m.writing
  rw [render, write]
  dsimp only
  rw [hset]

/-- A machine writes a value inside the vectors that it is in the middle of. -/
theorem render_eq (m : Machine) (v : Value) :
    m.render v = v.renderIn m.objects (m.objects.size + 1) m.writing := by
  rw [render, write, Value.write_eq_renderIn _ (by omega)]
  rfl

end Machine

theorem Eval.textOf_eq (v : Value) (m : Machine) : textOf v m = .ok (m.render v) m := by
  rw [textOf, m.write_eq]

end Lox
