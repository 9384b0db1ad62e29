import Lox.Proofs.Dispatch.Ledger
import Lox.Proofs.Natives.Operations

/-!
# Steps and the ledger

Three things that a step does are written down: a frame is made for a scope, an instance
is made, and everything else that changes is bound to names of the program or kept by
instances. A step leads on if it leaves a machine that is as a later ledger says. Steps
one after the other lead on, since a ledger only grows.
-/

namespace Lox

variable {programs : List (List (Stmt Slot))}

/-! ## Growth -/

namespace Ledger

/-- One more frame. -/
def opened (w : Ledger programs) (o : Origin) : Ledger programs :=
  { w with size := w.size + 1, made := fun k => if k = w.size then some o else w.made k }

/-- One more instance. -/
def allocated (w : Ledger programs) (ref : Nat) (c : Class) : Ledger programs :=
  { w with classes := fun r => if r = ref then some c else w.classes r }

variable {w : Ledger programs} {o : Origin} {ref : Nat} {c : Class}

@[simp]
theorem made_opened (w : Ledger programs) (o : Origin) :
    (w.opened o).made w.size = some o :=
  if_pos rfl

@[simp]
theorem classes_allocated (w : Ledger programs) (ref : Nat) (c : Class) :
    (w.allocated ref c).classes ref = some c :=
  if_pos rfl

theorem Sound.later_opened (h : w.Sound) (o : Origin) : w.Later (w.opened o) where
  size := Nat.le_succ _
  made k x hk := by
    exact (if_neg (Nat.ne_of_lt (h.bounds k x hk).2)).trans hk
  classes _ _ hc := hc

theorem later_allocated (h : w.classes ref = none) (c : Class) :
    w.Later (w.allocated ref c) where
  size := Nat.le_refl _
  made _ _ hk := hk
  classes r x hx := by
    refine (if_neg ?_).trans hx
    rintro rfl
    rw [h] at hx
    cases hx

theorem Sound.opened (h : w.Sound) (ho : o.Sound w) : (w.opened o).Sound := by
  have hlater := h.later_opened o
  refine ⟨Nat.succ_pos _, fun k x hk => ?_, fun k x hk => ?_,
    fun ref c hc => (h.classes ref c hc).later hlater⟩
  all_goals
    rw [Ledger.opened] at hk
    dsimp only at hk
    split at hk
  · next heq => exact ⟨heq ▸ Nat.ne_of_gt h.positive, heq ▸ Nat.lt_succ_self _⟩
  · exact ⟨(h.bounds k x hk).1, Nat.lt_succ_of_lt (h.bounds k x hk).2⟩
  · cases hk
    exact ho.later hlater
  · exact (h.origins k x hk).later hlater

theorem Sound.allocated (h : w.Sound) (hnone : w.classes ref = none) (hc : c.Sound w) :
    (w.allocated ref c).Sound := by
  have hlater := later_allocated hnone c
  refine ⟨h.positive, h.bounds, fun k o hk => (h.origins k o hk).later hlater,
    fun r x hx => ?_⟩
  rw [Ledger.allocated] at hx
  dsimp only at hx
  split at hx
  · cases hx
    exact hc.later hlater
  · exact (h.classes r x hx).later hlater

end Ledger

/-! ## Frames -/

namespace Frames

variable {α : Type} {F : Frames α}

/-- Other frames stay as they are. -/
theorem binding?_define_of_ne {E : Env} {k j : FrameId} (h : j ≠ k) (name n : String) (v : α) :
    (F.define (k :: E) name v).binding? j n = F.binding? j n := by
  rcases Nat.lt_or_ge k F.size with hk | hk
  · rw [define, binding?_bind F hk, if_neg (fun heq => h heq.1)]
  · exact binding?_bind_of_size_le F hk name v j n

theorem binding?_defineAll_of_ne {E : Env} {k j : FrameId} (h : j ≠ k) (n : String)
    (l : List (String × α)) : (F.defineAll (k :: E) l).binding? j n = F.binding? j n := by
  induction l generalizing F with
  | nil => rfl
  | cons x rest ih => exact ih.trans (binding?_define_of_ne h x.1 n x.2)

theorem binding?_defineAll_cases {E : Env} {k : FrameId} {n : String} {u : α}
    {l : List (String × α)} (h : (F.defineAll E l).binding? k n = some u) :
    F.binding? k n = some u ∨ (n, u) ∈ l := by
  induction l generalizing F with
  | nil => exact .inl h
  | cons x rest ih =>
      rcases ih h with hdefined | hmem
      · rcases binding?_define_cases hdefined with hF | ⟨rfl, rfl⟩
        · exact .inl hF
        · exact .inr List.mem_cons_self
      · exact .inr (List.mem_cons_of_mem x hmem)

end Frames

/-! ## Machines -/

namespace Machine.Sound

variable {w : Ledger programs} {m : Machine}

/-- Which environment is current does not matter. -/
theorem at_env (h : m.Sound w) (E : Env) : { m with env := E }.Sound w :=
  ⟨h.ledger, h.size, h.held, h.values, h.classes, h.instances, h.vectorClass⟩

/-- A name of the program is bound. -/
theorem bind (h : m.Sound w) (id : FrameId) {name : String} {v : Value}
    (hthis : name ≠ thisName) (hsuper : name ≠ superName) (hv : v.Sound w) :
    { m with frames := m.frames.bind id name v }.Sound w := by
  refine ⟨h.ledger, (Frames.size_bind ..).trans h.size, fun k o n hk hn => ?_,
    fun k n u hu => ?_, h.classes, h.instances, h.vectorClass⟩
  · have hne : n ≠ name := by
      rintro rfl
      revert hn
      cases o.opening <;> simp [Opening.reserved?, hthis.symm, hsuper.symm]
    rcases Nat.lt_or_ge id m.frames.size with hid | hid
    · rw [Frames.binding?_bind m.frames hid, if_neg fun heq => hne heq.2]
      exact h.held k o n hk hn
    · rw [Frames.binding?_bind_of_size_le m.frames hid]
      exact h.held k o n hk hn
  · rcases Frames.binding?_bind_cases hu with hu | ⟨rfl, rfl⟩
    · exact h.values k n u hu
    · exact hv

theorem define (h : m.Sound w) (E : Env) {name : Token} (hname : name.IsName) {v : Value}
    (hv : v.Sound w) : { m with frames := m.frames.define E name.lexeme v }.Sound w := by
  cases E with
  | nil => exact h
  | cons id E => exact h.bind id hname.ne_this hname.ne_super hv

/-- A frame is made, and what it is made for is bound in it. -/
theorem opens (h : m.Sound w) {o : Origin} (ho : o.Sound w) {l : List (String × Value)}
    (hl : ∀ x ∈ l, x.2.Sound w)
    (hheld : ∀ name, o.opening.reserved? = some name → l = [(name, o.held)])
    (label : String) :
    { m with
      frames := (m.frames.enter label o.outer).2.defineAll (m.frames.size :: o.outer) l }.Sound
      (w.opened o) := by
  have hlater := h.ledger.later_opened o
  refine ⟨h.ledger.opened ho, ?_, fun k x name hk hname => ?_, fun k n u hu => ?_, h.classes,
    fun ref i hi => (h.instances ref i hi).later hlater, h.vectorClass.later hlater⟩
  · rw [Frames.size_defineAll, Frames.size_enter, h.size]
    rfl
  · rw [Ledger.opened] at hk
    dsimp only at hk
    split at hk
    · next heq =>
        cases hk
        rw [hheld name hname, heq, ← h.size]
        have hsize : m.frames.size < (m.frames.enter label o.outer).2.size := by
          rw [Frames.size_enter]
          exact Nat.lt_succ_self _
        exact (Frames.binding?_bind _ hsize _ _ _ _).trans (if_pos ⟨rfl, rfl⟩)
    · next hne =>
        rw [Frames.binding?_defineAll_of_ne (h.size ▸ hne), Frames.binding?_enter]
        exact h.held k x name hk hname
  · rcases Frames.binding?_defineAll_cases hu with hu | hu
    · rw [Frames.binding?_enter] at hu
      exact (h.values k n u hu).later hlater
    · exact (hl _ hu).later hlater

/-- An instance is made. -/
theorem push (h : m.Sound w) {i : Instance} (hi : i.Sound w) (hc : i.cls.Sound w) :
    w.Later (w.allocated m.objects.size i.cls) ∧
      { m with objects := m.objects.push i }.Sound (w.allocated m.objects.size i.cls) := by
  have hnone : w.classes m.objects.size = none := by
    rw [h.classes, Array.getElem?_eq_none (Nat.le_refl _)]
    rfl
  have hlater := Ledger.later_allocated hnone i.cls
  refine ⟨hlater, h.ledger.allocated hnone hc, h.size, h.held,
    fun k n v hv => (h.values k n v hv).later hlater, fun ref => ?_, fun ref j hj => ?_,
    h.vectorClass.later hlater⟩
  · rw [Ledger.allocated, Array.getElem?_push]
    dsimp only
    split
    · rfl
    · exact h.classes ref
  · rw [Array.getElem?_push] at hj
    split at hj
    · cases hj
      exact hi.later hlater
    · exact (h.instances ref j hj).later hlater

/-- An instance is changed. -/
theorem modify (h : m.Sound w) (ref : Nat) {f : Instance → Instance}
    (hcls : ∀ i, (f i).cls = i.cls) (hf : ∀ i : Instance, i.Sound w → (f i).Sound w) :
    { m with objects := m.objects.modify ref f }.Sound w := by
  refine ⟨h.ledger, h.size, h.held, h.values, fun r => ?_, fun r j hj => ?_, h.vectorClass⟩
  · rw [h.classes, Array.getElem?_modify]
    split
    · cases m.objects[r]? with
      | none => rfl
      | some i => exact congrArg some (hcls i).symm
    · rfl
  · rw [Array.getElem?_modify] at hj
    split at hj
    · obtain ⟨i, hi, rfl⟩ := Option.map_eq_some_iff.mp hj
      exact hf i (h.instances r i hi)
    · exact h.instances r j hj

/-- The variable at a distance. -/
theorem getAt (h : m.Sound w) {E : Env} {d : Nat} {name : String} {v : Value}
    (hv : m.frames.getAt E d name = .ok v) : v.Sound w := by
  obtain ⟨k, hk⟩ := Frames.exists_binding?_of_getAt hv
  exact h.values k name v hk

theorem seek (h : m.Sound w) {E : Env} {name : String} {slot : Slot} {v : Value}
    (hv : m.frames.seek E name slot = .ok v) : v.Sound w := by
  obtain ⟨k, hk⟩ := Frames.exists_binding?_of_seek hv
  exact h.values k name v hk

/-- The instance that a reference leads to. -/
theorem instance_of_object (h : m.Sound w) {ref : Nat} (hv : (Value.object ref).Sound w) :
    ∃ i, m.objects[ref]? = some i ∧ i.Sound w ∧ i.cls.Sound w ∧ w.classes ref = some i.cls := by
  obtain ⟨c, hc⟩ := hv
  have hfound := h.classes ref
  rw [hc] at hfound
  obtain ⟨i, hi, rfl⟩ := Option.map_eq_some_iff.mp hfound.symm
  exact ⟨i, hi, h.instances ref i hi, h.ledger.classes ref _ hc, hc⟩

end Machine.Sound

/-! ## Activities -/

/-- The task is one of the programs, at a place that the environment belongs to. -/
def Task.Sound (w : Ledger programs) (E : Env) : Task → Prop
  | .eval e => ∃ p, Occurs programs p (.expr e) ∧ w.Around p E
  | .evalAll es => ∃ p, (∀ e ∈ es, Occurs programs p (.expr e)) ∧ w.Around p E
  | .call callee arguments => callee.Sound w ∧ ∀ v ∈ arguments, v.Sound w
  | .exec s => ∃ p, Occurs programs p (.stmt s) ∧ w.Around p E
  | .execAll body => ∃ p, Occurs programs p (.body body) ∧ w.Around p E
  | .loop c s => ∃ p, Occurs programs p (.expr c) ∧ Occurs programs p (.stmt s) ∧ w.Around p E
  | .unit program => Occurs programs [] (.body program) ∧ w.Around [] E
  | .opens opening env => ∃ k o, env = k :: o.outer ∧ w.made k = some o ∧ o.opening = opening

/-- The machine that an activity begins with was as the ledger said then. -/
def Activity.Sound (w : Ledger programs) (a : Activity) : Prop :=
  ∃ w₀ : Ledger programs, w₀.Later w ∧ a.machine.Sound w₀ ∧ a.task.Sound w₀ a.machine.env

theorem Activity.Sound.later {w w' : Ledger programs} {a : Activity} (h : a.Sound w)
    (hw : w.Later w') : a.Sound w' := by
  obtain ⟨w₀, hw₀, h⟩ := h
  exact ⟨w₀, hw₀.trans hw, h⟩

/-! ## Steps -/

section

variable {α β : Type} {w : Ledger programs} {vis vis' : Visits}
  {Q Q' : Ledger programs → α → Prop} {x : Eval α} {m : Machine}

/-- The machine that the step leaves is as a later ledger says, in the environment that
it began in. Its value is a `Q`, and all that it visits is sound. -/
def Leads (w : Ledger programs) (vis : Visits) (Q : Ledger programs → α → Prop) (x : Eval α)
    (m : Machine) : Prop :=
  ∃ w', w.Later w' ∧ (x m).machine.Sound w' ∧ (x m).machine.env = m.env ∧
    (∀ v m', x m = .ok v m' → Q w' v) ∧ ∀ a, vis m a → a.Sound w'

/-- Nothing is asked of the value of a step. -/
abbrev someValue (_ : Ledger programs) (_ : α) : Prop := True

theorem Leads.imp (h : Leads w vis Q x m) (hvis : ∀ a, vis' m a → vis m a)
    (hQ : ∀ w' v, w.Later w' → Q w' v → Q' w' v) : Leads w vis' Q' x m := by
  obtain ⟨w', hw, hm, henv, hvalue, hvisits⟩ := h
  exact ⟨w', hw, hm, henv, fun v m' hx => hQ w' v hw (hvalue v m' hx),
    fun a ha => hvisits a (hvis a ha)⟩

/-- A step that does the same from the machine. -/
theorem Leads.congr {y : Eval α} (h : Leads w vis Q x m) (heq : y m = x m) :
    Leads w vis Q y m := by
  unfold Leads
  rw [heq]
  exact h

theorem leads_of_ok {w' : Ledger programs} {v : α} {m' : Machine} (hx : x m = .ok v m')
    (hw : w.Later w') (hm : m'.Sound w') (henv : m'.env = m.env) (hv : Q w' v) :
    Leads w .none Q x m := by
  refine ⟨w', hw, ?_, ?_, fun u m'' hu => ?_, fun _ h => h.elim⟩
  · rw [hx]
    exact hm
  · rw [hx]
    exact henv
  · rw [hx] at hu
    cases hu
    exact hv

theorem leads_pure {v : α} (hm : m.Sound w) (hv : Q w v) : Leads w .none Q (pure v) m :=
  leads_of_ok rfl (.refl w) hm rfl hv

theorem leads_abort {r : Abort} (hm : m.Sound w) : Leads w .none Q (Eval.abort r) m :=
  ⟨w, .refl w, hm, rfl, (fun _ _ h => by cases h), fun _ h => h.elim⟩

/-- A step that leaves the machine as it is. -/
theorem leads_of_machine (hx : (x m).machine = m) (hm : m.Sound w)
    (hv : ∀ v m', x m = .ok v m' → Q w v) : Leads w .none Q x m :=
  ⟨w, .refl w, hx.symm ▸ hm, congrArg Machine.env hx, hv, fun _ h => h.elim⟩

/-- A step after another one. What the second begins with is what the first left. -/
theorem Leads.bind {P : Ledger programs → β → Prop} {y : Eval β} {f : β → Eval α}
    {next : β → Visits} (h : Leads w vis P y m)
    (hnext : ∀ b m₁ w₁, y m = .ok b m₁ → w.Later w₁ → m₁.Sound w₁ → m₁.env = m.env → P w₁ b →
      Leads w₁ (next b) Q (f b) m₁) :
    Leads w (vis.andThen y next) Q (y >>= f) m := by
  obtain ⟨w₁, hw₁, hm₁, henv₁, hvalue, hvisits⟩ := h
  cases hy : y m with
  | abort r m₁ =>
      have hbind : (y >>= f) m = .abort r m₁ := by rw [Eval.bind_apply, hy]
      rw [hy] at hm₁ henv₁
      refine ⟨w₁, hw₁, ?_, ?_, fun v m' hv => ?_, fun a ha => ?_⟩
      · rw [hbind]
        exact hm₁
      · rw [hbind]
        exact henv₁
      · rw [hbind] at hv
        cases hv
      · rcases ha with ha | ⟨b, m₂, heq, _⟩
        · exact hvisits a ha
        · rw [hy] at heq
          cases heq
  | ok b m₁ =>
      have hbind : (y >>= f) m = f b m₁ := by rw [Eval.bind_apply, hy]
      rw [hy] at hm₁ henv₁
      obtain ⟨w₂, hw₂, hm₂, henv₂, hvalue₂, hvisits₂⟩ :=
        hnext b m₁ w₁ hy hw₁ hm₁ henv₁ (hvalue b m₁ hy)
      refine ⟨w₂, hw₁.trans hw₂, ?_, ?_, fun v m' hv => ?_, fun a ha => ?_⟩
      · rw [hbind]
        exact hm₂
      · rw [hbind]
        exact henv₂.trans henv₁
      · rw [hbind] at hv
        exact hvalue₂ v m' hv
      · rcases ha with ha | ⟨b', m₃, heq, ha⟩
        · exact (hvisits a ha).later hw₂
        · rw [hy] at heq
          cases heq
          exact hvisits₂ a ha

theorem Leads.after {P : Ledger programs → β → Prop} {y : Eval β} {f : β → Eval α}
    {next : β → Visits} (h : Leads w .none P y m)
    (hnext : ∀ b m₁ w₁, y m = .ok b m₁ → w.Later w₁ → m₁.Sound w₁ → m₁.env = m.env → P w₁ b →
      Leads w₁ (next b) Q (f b) m₁) :
    Leads w (.after y next) Q (y >>= f) m :=
  (h.bind hnext).imp (fun _ => .inr) fun _ _ _ => id

theorem Leads.map {P : Ledger programs → β → Prop} {y : Eval β} {f : β → Eval α}
    (h : Leads w vis P y m)
    (hnext : ∀ b m₁ w₁, y m = .ok b m₁ → w.Later w₁ → m₁.Sound w₁ → m₁.env = m.env → P w₁ b →
      Leads w₁ .none Q (f b) m₁) :
    Leads w vis Q (y >>= f) m :=
  (h.bind hnext).imp (fun _ => .inl) fun _ _ _ => id

theorem Leads.within {E : Env} (h : Leads w vis Q x { m with env := E }) :
    Leads w (.within E vis) Q (Eval.within E x) m := by
  obtain ⟨w', hw, hm, _, hvalue, hvisits⟩ := h
  refine ⟨w', hw, ?_, ?_, fun u m' hu => ?_, hvisits⟩
  · rw [Eval.within_machine]
    exact hm.at_env m.env
  · rw [Eval.within_machine]
  · obtain ⟨m₁, hx⟩ := Eval.ok_of_within hu
    exact hvalue u m₁ hx

theorem Leads.reporting {t : Token} (h : Leads w vis Q x m) :
    Leads w vis Q (Eval.reporting t x) m := by
  obtain ⟨w', hw, hm, henv, hvalue, hvisits⟩ := h
  have hmachine := Eval.reporting_machine t x m
  exact ⟨w', hw, hmachine ▸ hm, hmachine ▸ henv,
    fun v m' hv => hvalue v m' (Eval.ok_of_reporting hv), hvisits⟩

/-- An activity visits itself. -/
theorem Leads.self {n : Nat} {t : Task} (hm : m.Sound w) (ht : t.Sound w m.env)
    (h : Leads w (Eval.visitsInside n (Eval.visits n) t) Q x m) :
    Leads w (Eval.visits (n + 1) t) Q x m := by
  obtain ⟨w', hw, hm', henv, hvalue, hvisits⟩ := h
  refine ⟨w', hw, hm', henv, hvalue, fun a ha => ?_⟩
  rcases ha with rfl | ha
  · exact ⟨w, hw, hm, ht⟩
  · exact hvisits a ha

theorem leads_spent {t : Task} (hm : m.Sound w) (ht : t.Sound w m.env) :
    Leads w (Eval.visits 0 t) Q Eval.spent m := by
  refine ⟨w, .refl w, hm, rfl, (fun _ _ h => by cases h), fun a ha => ?_⟩
  cases ha
  exact ⟨w, .refl w, hm, ht⟩

end

end Lox
