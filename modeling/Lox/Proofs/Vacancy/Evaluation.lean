import Lox.Proofs.Preservation.Evaluation
import Lox.Proofs.Vacancy.Declarations

/-!
# Evaluation hides the marker

All values that an activity gives come from a constant, from a variable that was looked up, from
a field, an element or a receiver, or from an activity inside of it. Where variables are declared
and assigned and where values are shown, the moment in which the activity completes is looked at
by itself.
-/

namespace Lox

open Eval

variable {m : Machine} {n : Nat}

/-- What a task takes is given in the moment in which it begins. -/
theorem Task.Takes.given {t : Task} (h : t.Takes Value.Given) :
    ∀ v ∈ (Moment.begins ⟨n, t, m⟩).values, v.Given := by
  intro v hv
  cases t with
  | call f vs =>
      rcases List.mem_cons.mp hv with rfl | hv
      · exact h.1
      · exact h.2 v hv
  | _ => cases hv

/-- That the marker stays hidden, in all moments. -/
def concealment : Judgement where
  World := Unit
  Later _ _ := True
  Machine _ m := m.Conceals
  Value _ v := v.Given
  Begins _ _ t := t.Takes Value.Given
  Plain t := t.writes = false ∧ ∀ e, t ≠ .exec (.print e)
  Step _ _ chr _ Q x m := Hides chr (Q ()) x m
  value_later _ hv := hv
  constant _ c := by cases c <;> exact trivial
  part _ ht := Task.takes_part ht
  callable _ hf hvs _ := ⟨hf, hvs⟩
  at_env hm _ := hm.at_env _
  congr h hx _ hchr := h.congr hchr hx
  imp _ _ hQ h := h.imp fun v hv => hQ () v trivial hv
  stays hm hx hmeets := by
    refine (quiet_of_machine hx hm fun v m' hv => ?_).hides
    rw [hv] at hmeets
    exact hmeets
  sequence _ h hf := h.bind fun b m₁ hm₁ hb => hf b m₁ () trivial hm₁ (fun _ => id) hb
  within _ h := h.within
  reporting h := h.reporting
  self hplain hm ht hperform hvalues h :=
    h.self hm hplain.1 hplain.2 hperform ht.given (hvalues ())
  spent _ hm ht _ := hides_spent hm ht.given rfl
  lookUp name slot hm := (quiet_lookUp hm name slot).hides
  getProperty _ _ name hm hv := (quiet_getProperty hm name hv).hides
  setField ref name _ hm hv := (quiet_setField hm ref name hv).hides
  superMethod _ _ method slot hm _ := (quiet_superMethod hm method slot).hides
  callEnv _ _ c _ hm h := (quiet_callEnv hm c h.2).hides
  receiver E hm := (quiet_getAt hm E 0 (.inl rfl)).hides
  setLastValue hm hv := (quiet_setLastValue hm hv).hides
  block _ _ hm _ := (quiet_block hm _).hides

/-! ## Activities of their own -/

/-- What is inside of an activity is part of its chronicle. -/
theorem plain_inside {t : Task} (h : ∀ a, .begins a ∈ chronicle (n + 1) t m → a.Plain) :
    ∀ a, .begins a ∈ chronicleInside n (chronicle n) t m → a.Plain :=
  fun a ha => h a (List.mem_cons_of_mem _ (List.mem_append_left _ ha))

/-- A new instance of a class. -/
theorem quiet_new (hm : m.Conceals) (c : Class) :
    Quiet Value.Given (allocate c (if c.body.isVector then some #[] else none)) m :=
  quiet_allocate hm c forall_mem_new

/-- A vector with the values of its expressions. -/
theorem quiet_vector {vs : List Value} (hm : m.Conceals) (hvs : ∀ v ∈ vs, v.Given) :
    Quiet Value.Given (allocate m.vectorClass (some vs.toArray)) m :=
  quiet_allocate hm _ (forall_mem_literal hvs)

/-- Looking a superclass up is like reading a variable. -/
theorem superclass_hides {superclass : Option (Reference Slot)} {name : Token}
    {methods : List (FunDecl Slot)}
    (h : ∀ r ∈ superclass, Hides (chronicle n (.eval (.var r.name r.slot))) Value.Given
      (eval n (.var r.name r.slot)) m)
    (hplain : ∀ a, .begins a ∈ chronicleInside n (chronicle n)
      (.exec (.classDecl name superclass methods)) m → a.Plain) :
    let l := chronicleInside n (chronicle n) (.exec (.classDecl name superclass methods)) m
    ProperFrom m.marks l ∧ marksAfter m.marks l = m.marks ∧ textsOf l = [] := by
  cases superclass with
  | none => exact ⟨trivial, rfl, rfl⟩
  | some r =>
      have hmachine := eval_var_machine n r.name r.slot m
      obtain ⟨_, hmarks, houtput, _, hproper⟩ := h r rfl hplain
      rw [hmachine] at hmarks houtput
      exact ⟨hproper, hmarks.symm, List.self_eq_append_right.mp houtput⟩

/-- A statement that a moment of its own is owed. -/
theorem statement_hides {s : Stmt Slot} (hm : m.Conceals)
    (h : (∀ a, .begins a ∈ chronicle (n + 1) (.exec s) m → a.Plain) →
      Closes ⟨n + 1, .exec s, m⟩ (chronicleInside n (chronicle n) (.exec s) m) Completion.values
        Completion.Given (exec (n + 1) s m)) :
    concealment.Executes () (n + 1) s m :=
  Closes.hides hm rfl (fun _ hv => absurd hv List.not_mem_nil) h

/-- The evaluator hides the marker. -/
def concealing : Preservation where
  toJudgement := concealment
  routine {t} ht := by
    cases t with
    | eval e =>
        cases e with
        | assign => cases ht
        | _ => exact ⟨rfl, fun _ h => by cases h⟩
    | exec s =>
        cases s with
        | print | varDecl | function | classDecl => cases ht
        | _ => exact ⟨rfl, fun _ h => by cases h⟩
    | _ => exact ⟨rfl, fun _ h => by cases h⟩
  assign hm _ hvalue :=
    Closes.hides hm rfl (fun _ hv => absurd hv List.not_mem_nil) fun hplain =>
      closes_assign (hvalue (plain_inside hplain))
  vector := Judgement.makesVector ⟨rfl, fun _ h => by cases h⟩
    fun hm hvs => (quiet_vector hm hvs).hides
  native hm h := Judgement.runsNative ⟨rfl, fun _ h => by cases h⟩
    (quiet_runFunction hm _ h.2).hides hm h
  nativeMethod {w m n id f receiver vs} hm h :=
    Judgement.runsNativeMethod ⟨rfl, fun _ h => by cases h⟩
      (quiet_runMethod hm f (show receiver.Given from h.1) h.2).hides hm h
  construct hm h := by
    refine Judgement.constructs (fun _ v => Value.Given v) ⟨rfl, fun _ h => by cases h⟩
      (quiet_new hm _).hides id (fun h₁ ho _ => ?_) hm h
    exact (quiet_bindMethod h₁.machine _ ho).hides.imp fun f hf _ _ => ⟨hf, h.2⟩
  print hm _ he := statement_hides hm fun hplain => closes_print (he (plain_inside hplain))
  varDecl {w m n name initializer} hm _ he := statement_hides hm fun hplain => by
    cases initializer with
    | none => exact closes_vacates hm (hplain _ List.mem_cons_self)
    | some value => exact closes_varDecl (he value rfl (plain_inside hplain))
  function hm _ := statement_hides hm fun _ => closes_function hm
  classDecl hm _ hsuper := statement_hides hm fun hplain => by
    obtain ⟨hproper, hmarks, htexts⟩ := superclass_hides hsuper (plain_inside hplain)
    exact closes_classDecl hm hproper hmarks htexts (hplain _ List.mem_cons_self)

end Lox
