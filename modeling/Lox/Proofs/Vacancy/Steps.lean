import Lox.Proofs.Context.Restoring
import Lox.Proofs.Vacancy.Concealment

/-!
# Moments in which the marker is concealed

A moment is proper if its machine conceals the marker, exactly the variables are marked
that should be, and no value is the marker that goes into a call, comes out of the
evaluator or is shown. A step hides the marker if all moments of its chronicle are proper,
the machine after it has the marks that they leave, and what it prints are their texts.
Steps that follow each other do so together. The moment in which an activity completes is
where marks change and texts are printed, so an activity that declares or assigns a
variable or prints owes an argument there, and no other does.
-/

namespace Lox

open Eval

/-! ## Proper moments -/

/-- The machine at a moment. -/
def Moment.machine : Moment → Machine
  | begins a => a.machine
  | completes _ _ m => m

/-- The values that go into a call, and those that come out of an activity. -/
def Moment.values : Moment → List Value
  | begins ⟨_, .call callee arguments, _⟩ => callee :: arguments
  | begins _ => []
  | completes _ values _ => values

/-- The class is the one that a class statement makes on the machine. -/
structure Class.MadeBy (c : Class) (name : Token) (methods : List (FunDecl Slot)) (m : Machine) :
    Prop where
  id : c.id = m.nextId
  name : c.name = name.lexeme
  methods : ∃ E, c.body.methods = methodTable E methods

/-- The variables `P` are marked before the moment. -/
structure Moment.Proper (P : Marks) (x : Moment) : Prop where
  conceals : x.machine.Conceals
  marks : x.machine.marks = x.leaves P
  values : ∀ v ∈ x.values, v.Given
  shown : ∀ v m, x.shown? = some (v, m) → v.Given ∧ m.Conceals
  /-- When a class statement is over, its name is bound to its class. -/
  classes : ∀ a values m name superclass methods, x = .completes a values m →
    a.task = .exec (.classDecl name superclass methods) →
      ∃ k c, a.machine.env.head? = some k ∧
        m.frames.binding? k name.lexeme = some (.cls c) ∧ c.MadeBy name methods a.machine

/-- The moments are proper one after the other. -/
def ProperFrom (P : Marks) : List Moment → Prop
  | [] => True
  | x :: l => x.Proper P ∧ ProperFrom (x.leaves P) l

theorem properFrom_append {P : Marks} {l l' : List Moment} :
    ProperFrom P (l ++ l') ↔ ProperFrom P l ∧ ProperFrom (marksAfter P l) l' := by
  induction l generalizing P with
  | nil => exact (and_iff_right trivial).symm
  | cons x l ih =>
      rw [List.cons_append, ProperFrom, ProperFrom, ih, marksAfter_cons, and_assoc]

/-- A moment among others that are proper. -/
theorem ProperFrom.at {P : Marks} {past rest : List Moment} {x : Moment}
    (h : ProperFrom P (past ++ x :: rest)) : x.Proper (marksAfter P past) :=
  (properFrom_append.mp h).2.1

theorem proper_begins {a : Activity} (hm : a.machine.Conceals)
    (hvalues : ∀ v ∈ (Moment.begins a).values, v.Given) :
    (Moment.begins a).Proper a.machine.marks :=
  ⟨hm, rfl, hvalues, (fun _ _ h => by cases h), fun _ _ _ _ _ _ h => by cases h⟩

/-! ## Steps -/

/-- What the activity declares, if anything, is a name of the program, in a frame that
there is. -/
def Activity.Plain (a : Activity) : Prop :=
  ∀ s t, a.task = .exec s → s.declared? = some t →
    t.IsName ∧ ∃ k E, a.machine.env = k :: E ∧ k < a.machine.frames.size

/-- The moments are proper, the machine that the step leaves has the marks that they leave,
and it has printed their texts. -/
structure Concealed {α : Type} (l : List Moment) (Q : α → Prop) (x : Eval α) (m : Machine) :
    Prop where
  conceals : (x m).machine.Conceals
  marks : (x m).machine.marks = marksAfter m.marks l
  output : (x m).machine.output.toList = m.output.toList ++ textsOf l
  value : ∀ v m', x m = .ok v m' → Q v
  proper : ProperFrom m.marks l

/-- The marker stays hidden during the step, if nothing is declared on the way but names
of the program. -/
def Hides {α : Type} (c : Chronicle) (Q : α → Prop) (x : Eval α) (m : Machine) : Prop :=
  (∀ a, .begins a ∈ c m → a.Plain) → Concealed (c m) Q x m

section

variable {α β : Type} {c : Chronicle} {P : β → Prop} {Q : α → Prop} {x : Eval α} {y : Eval β}
  {f : β → Eval α} {next : β → Chronicle} {m : Machine}

/-- A quiet step with nothing to tell. -/
theorem Quiet.hides (h : Quiet Q x m) : Hides .none Q x m :=
  fun _ => ⟨h.conceals, h.marks, by rw [h.output]; exact (List.append_nil _).symm, h.value, trivial⟩

/-- A step that does the same, with the same moments. -/
theorem Hides.congr {c' : Chronicle} {x' : Eval α} (h : Hides c Q x m) (hc : c' m = c m)
    (hx : x' m = x m) : Hides c' Q x' m := by
  intro hplain
  rw [hc] at hplain ⊢
  obtain ⟨hconceals, hmarks, houtput, hvalue, hproper⟩ := h hplain
  exact ⟨hx ▸ hconceals, hx ▸ hmarks, hx ▸ houtput, hx ▸ hvalue, hproper⟩

theorem Hides.imp {Q' : α → Prop} (h : Hides c Q x m) (hQ : ∀ v, Q v → Q' v) :
    Hides c Q' x m := by
  intro hplain
  obtain ⟨hconceals, hmarks, houtput, hvalue, hproper⟩ := h hplain
  exact ⟨hconceals, hmarks, houtput, fun v m' hx => hQ v (hvalue v m' hx), hproper⟩

/-- A step after another one. -/
theorem Hides.bind (h : Hides c P y m)
    (hnext : ∀ b m₁, m₁.Conceals → P b → Hides (next b) Q (f b) m₁) :
    Hides (c.andThen y next) Q (y >>= f) m := by
  intro hplain
  obtain ⟨hconceals, hmarks, houtput, hvalue, hproper⟩ :=
    h fun a ha => hplain a (List.mem_append_left _ ha)
  cases hy : y m with
  | ok b m₁ =>
      have hbind : (y >>= f) m = f b m₁ := by rw [bind_apply, hy]
      have hmoments : c.andThen y next m = c m ++ next b m₁ := by
        rw [Chronicle.andThen, Chronicle.after, hy]
      rw [hy] at hconceals hmarks houtput
      rw [hmoments] at hplain ⊢
      obtain ⟨hconceals₁, hmarks₁, houtput₁, hvalue₁, hproper₁⟩ :=
        hnext b m₁ hconceals (hvalue b m₁ hy)
          fun a ha => hplain a (List.mem_append_right _ ha)
      -- the second step begins with the marks that the first one leaves
      rw [show m₁.marks = marksAfter m.marks (c m) from hmarks] at hmarks₁ hproper₁
      refine ⟨hbind ▸ hconceals₁, ?_, ?_, fun v m' hv => hvalue₁ v m' (hbind ▸ hv),
        properFrom_append.mpr ⟨hproper, hproper₁⟩⟩
      · rw [hbind, hmarks₁, marksAfter_append]
      · rw [hbind, houtput₁, show m₁.output.toList = _ from houtput, textsOf_append,
          List.append_assoc]
  | abort r m₁ =>
      have hbind : (y >>= f) m = .abort r m₁ := by rw [bind_apply, hy]
      have hmoments : c.andThen y next m = c m := by
        rw [Chronicle.andThen, Chronicle.after, hy]
        exact List.append_nil _
      rw [hy] at hconceals hmarks houtput
      rw [hmoments]
      refine ⟨hbind ▸ hconceals, hbind ▸ hmarks, hbind ▸ houtput, fun v m' hv => ?_, hproper⟩
      rw [hbind] at hv
      cases hv

theorem Hides.within {E : Env} (h : Hides c Q x { m with env := E }) :
    Hides (.within E c) Q (Eval.within E x) m := by
  intro hplain
  obtain ⟨hconceals, hmarks, houtput, hvalue, hproper⟩ := h hplain
  refine ⟨?_, ?_, ?_, fun u m' hu => ?_, hproper⟩
  · rw [Eval.within_machine]
    exact hconceals.at_env m.env
  · rw [Eval.within_machine]
    exact hmarks
  · rw [Eval.within_machine]
    exact houtput
  · obtain ⟨m₁, hx⟩ := Eval.ok_of_within hu
    exact hvalue u m₁ hx

theorem Hides.reporting {t : Token} (h : Hides c Q x m) : Hides c Q (Eval.reporting t x) m := by
  intro hplain
  obtain ⟨hconceals, hmarks, houtput, hvalue, hproper⟩ := h hplain
  have hmachine := Eval.reporting_machine t x m
  exact ⟨hmachine ▸ hconceals, hmachine ▸ hmarks, hmachine ▸ houtput,
    fun v m' hv => hvalue v m' (Eval.ok_of_reporting hv), hproper⟩

end

/-! ## Activities -/

/-- How an activity ends after its inner moments. If it completes that is proper and prints
its text, and if it is aborted the marks are as they were and nothing more is printed. -/
structure Closes {α : Type} (a : Activity) (l : List Moment) (g : α → List Value) (Q : α → Prop)
    (r : Result α) : Prop where
  proper : ProperFrom a.machine.marks l
  completes : ∀ v m', r = .ok v m' →
    Q v ∧ (Moment.completes a (g v) m').Proper (marksAfter a.machine.marks l) ∧
      m'.output.toList = a.machine.output.toList ++ textsOf (l ++ [.completes a (g v) m'])
  aborts : ∀ reason m', r = .abort reason m' →
    m'.Conceals ∧ m'.marks = marksAfter a.machine.marks l ∧
      m'.output.toList = a.machine.output.toList ++ textsOf l

section

variable {α : Type} {n : Nat} {t : Task} {g : α → List Value} {Q : α → Prop} {x : Eval α}
  {m : Machine} {l : List Moment}

/-- Nothing is shown but by a print statement. -/
theorem Moment.shown?_completes (h : ∀ e, t ≠ .exec (.print e)) (values : List Value)
    (m' : Machine) : (Moment.completes ⟨n, t, m⟩ values m').shown? = none := by
  cases t with
  | exec s =>
      cases s with
      | print e => exact absurd rfl (h e)
      | _ => cases n <;> rfl
  | _ => cases n <;> rfl

theorem textsOf_completes (h : ∀ e, t ≠ .exec (.print e)) (values : List Value) (m' : Machine) :
    textsOf (l ++ [.completes ⟨n, t, m⟩ values m']) = textsOf l := by
  have hnone : (Moment.completes ⟨n, t, m⟩ values m').text? = none := by
    rw [Moment.text?, Moment.shown?_completes h]
    rfl
  rw [textsOf_append, textsOf, textsOf, List.filterMap_cons_none hnone]
  exact List.append_nil _

/-- Nothing changes in the moment in which such an activity completes. -/
theorem Concealed.closes (h : Concealed l Q x m) (ht : t.writes = false)
    (hprint : ∀ e, t ≠ .exec (.print e)) (hg : ∀ v, Q v → ∀ u ∈ g v, u.Given) :
    Closes ⟨n, t, m⟩ l g Q (x m) := by
  obtain ⟨hconceals, hmarks, houtput, hvalue, hproper⟩ := h
  refine ⟨hproper, fun v m' hv => ?_, fun r m' hr => ?_⟩
  · rw [hv] at hconceals hmarks houtput
    refine ⟨hvalue v m' hv, ⟨hconceals, ?_, hg v (hvalue v m' hv), ?_, ?_⟩, ?_⟩
    · exact hmarks.trans (Moment.leaves_completes ht ..).symm
    · rw [Moment.shown?_completes hprint]
      nofun
    · rintro a values m'' name superclass methods heq htask
      cases heq
      rw [show t = .exec (.classDecl name superclass methods) from htask] at ht
      cases ht
    · rw [textsOf_completes hprint]
      exact houtput
  · rw [hr] at hconceals hmarks houtput
    exact ⟨hconceals, hmarks, houtput⟩

/-- The chronicle of an activity is what is inside of it between its two moments. -/
theorem Closes.hides (hm : m.Conceals) (hperform : perform (n + 1) t m = (x m).map g)
    (hvalues : ∀ v ∈ (Moment.begins ⟨n + 1, t, m⟩).values, v.Given)
    (h : (∀ a, .begins a ∈ chronicle (n + 1) t m → a.Plain) →
      Closes ⟨n + 1, t, m⟩ (chronicleInside n (chronicle n) t m) g Q (x m)) :
    Hides (chronicle (n + 1) t) Q x m := by
  intro hplain
  obtain ⟨hproper, hcompletes, haborts⟩ := h hplain
  have hbegins := proper_begins (a := ⟨n + 1, t, m⟩) hm hvalues
  cases hx : x m with
  | ok v m' =>
      obtain ⟨hv, hend, houtput⟩ := hcompletes v m' hx
      rw [hx] at hperform
      rw [chronicle_succ, ending_of_ok hperform]
      refine ⟨?_, ?_, ?_, fun u m'' hu => ?_, hbegins,
        properFrom_append.mpr ⟨hproper, hend, trivial⟩⟩
      · rw [hx]
        exact hend.conceals
      · rw [hx, marksAfter_cons, marksAfter_append]
        exact hend.marks
      · rw [hx]
        exact houtput
      · rw [hx] at hu
        cases hu
        exact hv
  | abort r m' =>
      obtain ⟨hconceals, hmarks, houtput⟩ := haborts r m' hx
      rw [hx] at hperform
      rw [chronicle_succ, ending_of_abort hperform]
      refine ⟨?_, ?_, ?_, fun u m'' hu => ?_, hbegins, properFrom_append.mpr ⟨hproper, trivial⟩⟩
      · rw [hx]
        exact hconceals
      · rw [hx, marksAfter_cons, marksAfter_append]
        exact hmarks
      · rw [hx, List.append_nil]
        exact houtput
      · rw [hx] at hu
        cases hu

/-- An activity that neither declares nor assigns nor prints anything. -/
theorem Hides.self (h : Hides (chronicleInside n (chronicle n) t) Q x m) (hm : m.Conceals)
    (ht : t.writes = false) (hprint : ∀ e, t ≠ .exec (.print e))
    (hperform : perform (n + 1) t m = (x m).map g)
    (hvalues : ∀ v ∈ (Moment.begins ⟨n + 1, t, m⟩).values, v.Given)
    (hg : ∀ v, Q v → ∀ u ∈ g v, u.Given) : Hides (chronicle (n + 1) t) Q x m := by
  refine Closes.hides hm hperform hvalues fun hplain => (h fun a ha => ?_).closes ht hprint hg
  exact hplain a (List.mem_cons_of_mem _ (List.mem_append_left _ ha))

/-- Without a budget there is nothing but the beginning. -/
theorem hides_spent (hm : m.Conceals) (hvalues : ∀ v ∈ (Moment.begins ⟨0, t, m⟩).values, v.Given)
    (hx : x m = .abort .spent m) : Hides (chronicle 0 t) Q x m := by
  refine fun _ => ⟨hx ▸ hm, hx ▸ rfl, ?_, fun v m' hv => ?_, proper_begins hm hvalues, trivial⟩
  · rw [hx]
    exact (List.append_nil _).symm
  · rw [hx] at hv
    cases hv

end

end Lox
