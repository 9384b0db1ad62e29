import Lox.Proofs.Dispatch.Steps
import Lox.Proofs.Vacancy.Chronicles

/-!
# Variables without a value

A variable that is declared without an initializer is vacant until something gives it a
value: an assignment, or another declaration of its name in the same frame. Which ones
are vacant after some moments of a run is read off these moments, without a look at any
machine. The machine has a marker for it, and which variables are marked in its frames is
the other side of what is to be compared.
-/

namespace Lox

/-- Some variables: a name in a frame. -/
abbrev Marks := FrameId → String → Prop

/-- The frame of the variable that a reference with the slot names. -/
def Env.frame? (E : Env) : Slot → Option FrameId
  | some distance => E[distance]?
  | none => some 0

namespace Task

/-- In the environment the task declares the variable and gives it no value. -/
def Vacates : Task → Env → Marks
  | .exec (.varDecl t none), E, k, name => E.head? = some k ∧ name = t.lexeme
  | _, _, _, _ => False

/-- In the environment the task gives the variable a value. -/
def Fills : Task → Env → Marks
  | .eval (.assign t slot _), E, k, name => E.frame? slot = some k ∧ name = t.lexeme
  | .exec (.varDecl t (some _)), E, k, name => E.head? = some k ∧ name = t.lexeme
  | .exec (.function f), E, k, name => E.head? = some k ∧ name = f.name.lexeme
  | .exec (.classDecl t _ _), E, k, name => E.head? = some k ∧ name = t.lexeme
  | _, _, _, _ => False

/-- Does the task declare or assign a variable? -/
def writes : Task → Bool
  | .eval (.assign _ _ _) => true
  | .exec s => s.declared?.isSome
  | _ => false

theorem not_vacates {t : Task} (h : t.writes = false) (E : Env) (k : FrameId) (name : String) :
    ¬ t.Vacates E k name := by
  cases t with
  | exec s =>
      cases s with
      | varDecl => cases h
      | _ => exact id
  | _ => exact id

theorem not_fills {t : Task} (h : t.writes = false) (E : Env) (k : FrameId) (name : String) :
    ¬ t.Fills E k name := by
  cases t with
  | eval e =>
      cases e with
      | assign => cases h
      | _ => exact id
  | exec s =>
      cases s with
      | varDecl | function | classDecl => cases h
      | _ => exact id
  | _ => exact id

end Task

def Activity.Vacates (a : Activity) : Marks := a.task.Vacates a.machine.env

def Activity.Fills (a : Activity) : Marks := a.task.Fills a.machine.env

/-- The variable was declared without a value, and nothing that completed since gave it
one. -/
def Vacant (past : List Moment) : Marks := fun k name =>
  ∃ before a values m after, past = before ++ .completes a values m :: after ∧
    a.Vacates k name ∧ ∀ b us m', .completes b us m' ∈ after → ¬ b.Fills k name

/-! ## Moment by moment -/

/-- The marks after a moment. -/
def Moment.leaves (P : Marks) : Moment → Marks
  | begins _ => P
  | completes a _ _ => fun k name => a.Vacates k name ∨ P k name ∧ ¬ a.Fills k name

/-- A task that neither declares nor assigns a variable changes no marks. -/
theorem Moment.leaves_completes {t : Task} (h : t.writes = false) (P : Marks) (n : Nat)
    (m : Machine) (values : List Value) (m' : Machine) :
    (Moment.completes ⟨n, t, m⟩ values m').leaves P = P := by
  funext k name
  refine propext ?_
  show t.Vacates m.env k name ∨ P k name ∧ ¬ t.Fills m.env k name ↔ P k name
  rw [or_iff_right (Task.not_vacates h _ _ _), and_iff_left (Task.not_fills h _ _ _)]

/-- The marks after some moments. -/
def marksAfter (P : Marks) (l : List Moment) : Marks :=
  l.foldl Moment.leaves P

section

variable {P : Marks} {l l' : List Moment} {x : Moment}

theorem marksAfter_cons : marksAfter P (x :: l) = marksAfter (x.leaves P) l :=
  rfl

theorem marksAfter_append : marksAfter P (l ++ l') = marksAfter (marksAfter P l) l' :=
  List.foldl_append

/-- What is not filled in a moment. -/
theorem vacant_cons {k : FrameId} {name : String} :
    Vacant (x :: l) k name ↔ Vacant l k name ∨
      ∃ a values m, x = .completes a values m ∧ a.Vacates k name ∧
        ∀ b us m', .completes b us m' ∈ l → ¬ b.Fills k name := by
  constructor
  · rintro ⟨before, a, values, m, after, heq, hvacates, hafter⟩
    rcases List.cons_eq_append_iff.mp heq with ⟨rfl, hcons⟩ | ⟨before', rfl, rfl⟩
    · obtain ⟨hx, rfl⟩ := List.cons_eq_cons.mp hcons
      exact .inr ⟨a, values, m, hx.symm, hvacates, hafter⟩
    · exact .inl ⟨before', a, values, m, after, rfl, hvacates, hafter⟩
  · rintro (⟨before, a, values, m, after, rfl, hvacates, hafter⟩ | ⟨a, values, m, rfl, hvacates, h⟩)
    · exact ⟨x :: before, a, values, m, after, rfl, hvacates, hafter⟩
    · exact ⟨[], a, values, m, l, rfl, hvacates, h⟩

/-- A variable is marked after some moments if it is vacant after them, or was marked
before and has not been filled. -/
theorem marksAfter_iff {k : FrameId} {name : String} :
    marksAfter P l k name ↔ Vacant l k name ∨
      P k name ∧ ∀ b values m, .completes b values m ∈ l → ¬ b.Fills k name := by
  induction l generalizing P with
  | nil =>
      refine ⟨fun h => .inr ⟨h, fun _ _ _ hb => absurd hb List.not_mem_nil⟩, ?_⟩
      rintro (⟨before, _, _, _, _, heq, _⟩ | ⟨h, _⟩)
      · exact absurd heq.symm (List.append_ne_nil_of_right_ne_nil _ (List.cons_ne_nil _ _))
      · exact h
  | cons x l ih =>
      rw [marksAfter_cons, ih, vacant_cons, or_assoc]
      refine or_congr_right ?_
      cases x with
      | begins a => simp [Moment.leaves]
      | completes a values m =>
          simp only [Moment.leaves, List.mem_cons, Moment.completes.injEq]
          constructor
          · rintro ⟨hvacates | ⟨hP, ha⟩, hl⟩
            · exact .inl ⟨a, values, m, ⟨rfl, rfl, rfl⟩, hvacates, hl⟩
            · refine .inr ⟨hP, fun b us m' hb => ?_⟩
              rcases hb with ⟨rfl, _, _⟩ | hb
              · exact ha
              · exact hl b us m' hb
          · rintro (⟨_, _, _, ⟨rfl, rfl, rfl⟩, hvacates, hl⟩ | ⟨hP, hl⟩)
            · exact ⟨.inl hvacates, hl⟩
            · exact ⟨.inr ⟨hP, hl a values m (.inl ⟨rfl, rfl, rfl⟩)⟩,
                fun b us m' hb => hl b us m' (.inr hb)⟩

/-- Where nothing was marked before. -/
theorem marksAfter_eq_vacant (h : ∀ k name, ¬ P k name) : marksAfter P l = Vacant l := by
  funext k name
  refine propext (marksAfter_iff.trans (or_iff_left fun hP => h k name hP.1))

end

/-! ## Marks in frames -/

namespace Frames

/-- The variables that are marked. -/
def marks (F : Frames Value) : Marks := fun k name =>
  F.binding? k name = some .unassigned

variable {F : Frames Value} {id k : FrameId} {name n : String} {v : Value}

theorem marks_bind (hv : v ≠ .unassigned) :
    (F.bind id name v).marks k n ↔ F.marks k n ∧ ¬ (k = id ∧ n = name) := by
  rw [marks, marks]
  rcases Nat.lt_or_ge id F.size with hid | hid
  · rw [binding?_bind F hid]
    by_cases heq : k = id ∧ n = name
    · rw [if_pos heq]
      exact iff_of_false (fun h => hv (Option.some.inj h)) fun h => h.2 heq
    · rw [if_neg heq]
      exact (and_iff_left heq).symm
  · rw [binding?_bind_of_size_le F hid]
    refine (and_iff_left_of_imp fun h heq => ?_).symm
    -- there is no frame to find a mark in
    rw [heq.1, binding?_of_size_le hid] at h
    cases h

theorem marks_bind_unassigned (hid : id < F.size) :
    (F.bind id name .unassigned).marks k n ↔ k = id ∧ n = name ∨ F.marks k n := by
  rw [marks, marks, binding?_bind F hid]
  by_cases heq : k = id ∧ n = name
  · rw [if_pos heq]
    exact iff_of_true rfl (.inl heq)
  · rw [if_neg heq]
    exact (or_iff_right heq).symm

theorem marks_define {E : Env} (hv : v ≠ .unassigned) :
    (F.define E name v).marks k n ↔ F.marks k n ∧ ¬ (E.head? = some k ∧ n = name) := by
  cases E with
  | nil =>
      refine (and_iff_left ?_).symm
      rintro ⟨h, _⟩
      cases h
  | cons id E =>
      rw [define, marks_bind hv, List.head?_cons, Option.some.injEq, eq_comm (a := id)]

/-- A frame that is made with values in it has no marks. -/
theorem marks_opened {E : Env} {l : List (String × Value)} (hl : ∀ x ∈ l, x.2 ≠ .unassigned)
    (label : String) : ((F.enter label E).2.defineAll (F.size :: E) l).marks = F.marks := by
  funext k n
  rw [marks, marks]
  by_cases hk : k = F.size
  · subst hk
    rw [binding?_of_size_le (Nat.le_refl _)]
    refine propext (iff_of_false (fun h => ?_) nofun)
    rcases binding?_defineAll_cases h with hnone | hmem
    · rw [binding?_enter, binding?_of_size_le (Nat.le_refl _)] at hnone
      cases hnone
    · exact hl _ hmem rfl
  · rw [binding?_defineAll_of_ne hk, binding?_enter]

end Frames

def Machine.marks (m : Machine) : Marks := m.frames.marks

end Lox
