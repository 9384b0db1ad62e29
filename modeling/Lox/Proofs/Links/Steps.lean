import Lox.Proofs.Dispatch.Steps
import Lox.Proofs.Links.Chains
import Lox.Proofs.Preservation.Judgements

/-!
# Steps and links

Links come about in two ways: a frame is made inside an environment that is there, and a
class is declared below one that is there. All else that a step does moves values about. So
a step that begins with a linked machine leaves one that is linked by some more links, and
the same holds for all that happens in between.
-/

namespace Lox

namespace Links

/-! ## New links -/

variable {L L' : Links} {E : Env}

/-- One more frame, inside an environment. -/
def opened (L : Links) (h : L.Chain E) : Links where
  frames := L.frames + 1
  enclosing k := if k = L.frames then E.head? else L.enclosing k
  ids := L.ids
  classes := L.classes
  positive := Nat.succ_pos _
  outermost := (if_neg (Nat.ne_of_lt L.positive)).trans L.outermost
  enclosing_lt {k j} hk := by
    split at hk
    · next heq =>
        obtain ⟨i, rest, rfl, hi⟩ := h.exists_cons
        cases hk
        exact ⟨heq ▸ hi, heq ▸ Nat.lt_succ_self _⟩
    · exact ⟨(L.enclosing_lt hk).1, Nat.lt_succ_of_lt (L.enclosing_lt hk).2⟩
  classes_lt := L.classes_lt
  superclass_lt := L.superclass_lt

/-- One more number, for a function. -/
def numbered (L : Links) : Links :=
  { L with ids := L.ids + 1, classes_lt := fun h => Nat.lt_succ_of_lt (L.classes_lt h) }

/-- One more class, below one that is there or below none. -/
def declared (L : Links) (body : ClassBody) {superclass : Option Class}
    (h : ∀ c, superclass = some c → c.Linked L) : Links where
  frames := L.frames
  enclosing := L.enclosing
  ids := L.ids + 1
  classes id := if id = L.ids then some ⟨body, superclass.map Class.id⟩ else L.classes id
  positive := L.positive
  outermost := L.outermost
  enclosing_lt := L.enclosing_lt
  classes_lt {id entry} hid := by
    split at hid
    · next heq => exact heq ▸ Nat.lt_succ_self _
    · exact Nat.lt_succ_of_lt (L.classes_lt hid)
  superclass_lt {id entry above} hid habove := by
    split at hid
    · next heq =>
        cases hid
        obtain ⟨c, hc, rfl⟩ := Option.map_eq_some_iff.mp habove
        exact heq ▸ (h c hc).id_lt
    · exact L.superclass_lt hid habove

theorem later_opened (h : L.Chain E) : L.Later (L.opened h) where
  frames := Nat.le_succ _
  enclosing _ hk := if_neg (Nat.ne_of_lt hk)
  ids := Nat.le_refl _
  classes _ _ := rfl

theorem later_numbered (L : Links) : L.Later L.numbered where
  frames := Nat.le_refl _
  enclosing _ _ := rfl
  ids := Nat.le_succ _
  classes _ _ := rfl

theorem later_declared (body : ClassBody) {superclass : Option Class}
    (h : ∀ c, superclass = some c → c.Linked L) : L.Later (L.declared body h) where
  frames := Nat.le_refl _
  enclosing _ _ := rfl
  ids := Nat.le_succ _
  classes _ hid := if_neg (Nat.ne_of_lt hid)

/-- The new frame leads into the environment that it was made in. -/
theorem chain_opened (h : L.Chain E) : (L.opened h).Chain (L.frames :: E) := by
  obtain ⟨k, rest, rfl, _⟩ := h.exists_cons
  exact .inside (if_pos rfl) (h.later (later_opened h))

end Links

/-! ## Machines -/

namespace Machine.Linked

variable {L : Links} {m : Machine}

theorem at_env (h : m.Linked L) {E : Env} (hE : L.Chain E) : { m with env := E }.Linked L :=
  ⟨h.frames, h.ids, hE, h.values, h.instances, h.lastValue, h.vectorClass⟩

theorem later_env {L' : Links} (h : m.Linked L') {E : Env} (hE : L.Chain E) (hL : L.Later L') :
    { m with env := E }.Linked L' :=
  h.at_env (hE.later hL)

theorem bind (h : m.Linked L) (id : FrameId) (name : String) {v : Value} (hv : v.Linked L) :
    { m with frames := m.frames.bind id name v }.Linked L := by
  refine ⟨(Frames.size_bind ..).trans h.frames, h.ids, h.env, fun k n u hu => ?_, h.instances,
    h.lastValue, h.vectorClass⟩
  rcases Frames.binding?_bind_cases hu with hu | ⟨rfl, rfl⟩
  · exact h.values k n u hu
  · exact hv

theorem define (h : m.Linked L) (E : Env) (name : String) {v : Value} (hv : v.Linked L) :
    { m with frames := m.frames.define E name v }.Linked L := by
  cases E with
  | nil => exact h
  | cons id E => exact h.bind id name hv

/-- A frame is made, and names are bound in it. -/
theorem opens (h : m.Linked L) {E : Env} (hE : L.Chain E) (label : String)
    {l : List (String × Value)} (hl : ∀ x ∈ l, x.2.Linked L) :
    { m with
      frames := (m.frames.enter label E).2.defineAll (m.frames.size :: E) l }.Linked
      (L.opened hE) := by
  have hlater := Links.later_opened hE
  refine ⟨?_, h.ids, h.env.later hlater, fun k n u hu => ?_,
    fun ref i hi => (h.instances ref i hi).later hlater, h.lastValue.later hlater,
    h.vectorClass.later hlater⟩
  · rw [Frames.size_defineAll, Frames.size_enter, h.frames]
    rfl
  · rcases Frames.binding?_defineAll_cases hu with hu | hu
    · rw [Frames.binding?_enter] at hu
      exact (h.values k n u hu).later hlater
    · exact (hl _ hu).later hlater

/-- A function gets its number. -/
theorem numbered (h : m.Linked L) : { m with nextId := m.nextId + 1 }.Linked L.numbered := by
  have hlater := L.later_numbered
  exact ⟨h.frames, congrArg (· + 1) h.ids, h.env.later hlater,
    fun k n v hv => (h.values k n v hv).later hlater,
    fun ref i hi => (h.instances ref i hi).later hlater, h.lastValue.later hlater,
    h.vectorClass.later hlater⟩

/-- A class gets its number and is kept under it. -/
theorem declared (h : m.Linked L) (body : ClassBody) {superclass : Option Class}
    (hsuper : ∀ c, superclass = some c → c.Linked L) :
    { m with nextId := m.nextId + 1 }.Linked (L.declared body hsuper) := by
  have hlater := Links.later_declared body hsuper
  exact ⟨h.frames, congrArg (· + 1) h.ids, h.env.later hlater,
    fun k n v hv => (h.values k n v hv).later hlater,
    fun ref i hi => (h.instances ref i hi).later hlater, h.lastValue.later hlater,
    h.vectorClass.later hlater⟩

/-- An instance is made. -/
theorem push (h : m.Linked L) {i : Instance} (hi : i.Linked L) :
    { m with objects := m.objects.push i }.Linked L := by
  refine ⟨h.frames, h.ids, h.env, h.values, fun ref j hj => ?_, h.lastValue, h.vectorClass⟩
  rw [Array.getElem?_push] at hj
  split at hj
  · cases hj
    exact hi
  · exact h.instances ref j hj

/-- An instance is changed. -/
theorem modify (h : m.Linked L) (ref : Nat) {f : Instance → Instance}
    (hf : ∀ i : Instance, i.Linked L → (f i).Linked L) :
    { m with objects := m.objects.modify ref f }.Linked L := by
  refine ⟨h.frames, h.ids, h.env, h.values, fun r j hj => ?_, h.lastValue, h.vectorClass⟩
  rw [Array.getElem?_modify] at hj
  split at hj
  · obtain ⟨i, hi, rfl⟩ := Option.map_eq_some_iff.mp hj
    exact hf i (h.instances r i hi)
  · exact h.instances r j hj

/-- The variable at a distance. -/
theorem getAt (h : m.Linked L) {E : Env} {d : Nat} {name : String} {v : Value}
    (hv : m.frames.getAt E d name = .ok v) : v.Linked L := by
  obtain ⟨k, hk⟩ := Frames.exists_binding?_of_getAt hv
  exact h.values k name v hk

theorem seek (h : m.Linked L) {E : Env} {name : String} {slot : Slot} {v : Value}
    (hv : m.frames.seek E name slot = .ok v) : v.Linked L := by
  obtain ⟨k, hk⟩ := Frames.exists_binding?_of_seek hv
  exact h.values k name v hk

end Machine.Linked

/-! ## Activities -/

/-- The step that does the task, with the values that it ends with. -/
def Task.run (n : Nat) : Task → Eval (List Value)
  | .eval e => do
    let v ← Eval.eval n e
    pure [v]
  | .evalAll es => Eval.evalAll n es >>= pure
  | .call callee arguments => do
    let v ← Eval.call n callee arguments
    pure [v]
  | .exec s => do
    let completion ← Eval.exec n s
    pure [completion.value]
  | .execAll body => do
    let completion ← Eval.execAll n body
    pure [completion.value]
  | .loop condition body => do
    let completion ← Eval.loop n condition body
    pure [completion.value]
  | .unit program => do
    Eval.execUnit n program
    pure []
  | .opens _ _ => pure []

/-- The result has values of the other one, and `nil` where that has none. -/
def Result.Gives (r r' : Result (List Value)) : Prop :=
  r.machine = r'.machine ∧
    ∀ vs m', r = .ok vs m' → ∃ us, r' = .ok us m' ∧ ∀ v ∈ vs, v ∈ us ∨ v = .nil

theorem gives_map {α : Type} (x : Eval α) {values values' : α → List Value}
    (h : ∀ a, ∀ v ∈ values a, v ∈ values' a ∨ v = .nil) (m : Machine) :
    ((x >>= fun a => pure (values a)) m).Gives ((x m).map values') := by
  rw [Eval.bind_apply]
  cases x m with
  | abort r m' => exact ⟨rfl, fun _ _ h => by cases h⟩
  | ok a m' =>
      refine ⟨rfl, fun vs m'' hvs => ?_⟩
      cases hvs
      exact ⟨values' a, rfl, h a⟩

theorem Completion.value_mem (k : Completion) : ∀ v ∈ [k.value], v ∈ k.values ∨ v = .nil := by
  intro v hv
  cases k with
  | normal => exact .inr (List.mem_singleton.mp hv)
  | returned u => exact .inl hv

theorem Task.run_gives (n : Nat) (t : Task) (m : Machine) :
    (t.run n m).Gives (Eval.perform n t m) := by
  cases t with
  | eval e => exact gives_map (Eval.eval n e) (fun _ _ => .inl) m
  | call f vs => exact gives_map (Eval.call n f vs) (fun _ _ => .inl) m
  | evalAll es =>
      have h : Result.Gives (run n (.evalAll es) m) ((Eval.evalAll n es m).map id) :=
        gives_map (Eval.evalAll n es) (fun _ _ => .inl) m
      rwa [Result.map_id] at h
  | exec s => exact gives_map (Eval.exec n s) Completion.value_mem m
  | execAll body => exact gives_map (Eval.execAll n body) Completion.value_mem m
  | loop c s => exact gives_map (Eval.loop n c s) Completion.value_mem m
  | unit program => exact gives_map (Eval.execUnit n program) (fun _ _ => .inl) m
  | opens o E => exact ⟨rfl, fun vs m' h => ⟨vs, h, fun _ => .inl⟩⟩

/-- What the task is about is linked. A frame that was made is the newest one. -/
def Task.Linked (L : Links) : Task → Prop
  | .call callee arguments => callee.Linked L ∧ ∀ v ∈ arguments, v.Linked L
  | .opens _ E => L.Chain E ∧ ∃ k rest, E = k :: rest ∧ k + 1 = L.frames
  | _ => True

/-- The activity begins with the links `L` and ends with the links `L'`. -/
structure Activity.Along (L L' : Links) (a : Activity) : Prop where
  later : L.Later L'
  machine : a.machine.Linked L
  task : a.task.Linked L
  left : (a.task.run a.budget a.machine).machine.Linked L'
  values : ∀ vs m', a.task.run a.budget a.machine = .ok vs m' → ∀ v ∈ vs, v.Linked L'

/-- All that the activity begins and ends with is linked, and its links are still there. -/
def Activity.Linked (L : Links) (a : Activity) : Prop :=
  ∃ L₀ L₁, L₁.Later L ∧ a.Along L₀ L₁

theorem Activity.Linked.later {L L' : Links} {a : Activity} (h : a.Linked L) (hL : L.Later L') :
    a.Linked L' := by
  obtain ⟨L₀, L₁, h₁, h⟩ := h
  exact ⟨L₀, L₁, h₁.trans hL, h⟩

/-! ## Steps -/

section

variable {α β : Type} {L : Links} {vis vis' : Visits} {Q Q' : Links → α → Prop} {x : Eval α}
  {m : Machine}

/-- The machine that the step leaves is linked by later links, its value is a `Q`, and all
that it visits is linked. -/
def Grows (L : Links) (vis : Visits) (Q : Links → α → Prop) (x : Eval α) (m : Machine) : Prop :=
  ∃ L', L.Later L' ∧ (x m).machine.Linked L' ∧ (∀ v m', x m = .ok v m' → Q L' v) ∧
    ∀ a, vis m a → a.Linked L'

/-- Nothing is asked of the value of a step. -/
abbrev whatever (_ : Links) (_ : α) : Prop := True

theorem Grows.imp (h : Grows L vis Q x m) (hvis : ∀ a, vis' m a → vis m a)
    (hQ : ∀ L' v, Q L' v → Q' L' v) : Grows L vis' Q' x m := by
  obtain ⟨L', hL, hm, hvalue, hvisits⟩ := h
  exact ⟨L', hL, hm, fun v m' hx => hQ L' v (hvalue v m' hx), fun a ha => hvisits a (hvis a ha)⟩

/-- A step that does the same from the machine. -/
theorem Grows.congr {y : Eval α} (h : Grows L vis Q x m) (heq : y m = x m) :
    Grows L vis Q y m := by
  unfold Grows
  rw [heq]
  exact h

theorem grows_of_ok {L' : Links} {v : α} {m' : Machine} (hx : x m = .ok v m') (hL : L.Later L')
    (hm : m'.Linked L') (hv : Q L' v) : Grows L .none Q x m := by
  refine ⟨L', hL, ?_, fun u m'' hu => ?_, fun _ h => h.elim⟩
  · rw [hx]
    exact hm
  · rw [hx] at hu
    cases hu
    exact hv

theorem grows_pure {v : α} (hm : m.Linked L) (hv : Q L v) : Grows L .none Q (pure v) m :=
  grows_of_ok rfl (.refl L) hm hv

theorem grows_abort {r : Abort} (hm : m.Linked L) : Grows L .none Q (Eval.abort r) m :=
  ⟨L, .refl L, hm, (fun _ _ h => by cases h), fun _ h => h.elim⟩

/-- A step that leaves the machine as it is. -/
theorem grows_of_machine (hx : (x m).machine = m) (hm : m.Linked L)
    (hv : ∀ v m', x m = .ok v m' → Q L v) : Grows L .none Q x m :=
  ⟨L, .refl L, hx.symm ▸ hm, hv, fun _ h => h.elim⟩

/-- A step after another one. What the second begins with is what the first left. -/
theorem Grows.bind {P : Links → β → Prop} {y : Eval β} {f : β → Eval α} {next : β → Visits}
    (h : Grows L vis P y m)
    (hnext : ∀ b m₁ L₁, L.Later L₁ → m₁.Linked L₁ → P L₁ b → Grows L₁ (next b) Q (f b) m₁) :
    Grows L (vis.andThen y next) Q (y >>= f) m := by
  obtain ⟨L₁, hL₁, hm₁, hvalue, hvisits⟩ := h
  cases hy : y m with
  | abort r m₁ =>
      have hbind : (y >>= f) m = .abort r m₁ := by rw [Eval.bind_apply, hy]
      rw [hy] at hm₁
      refine ⟨L₁, hL₁, hbind ▸ hm₁, fun v m' hv => ?_, fun a ha => ?_⟩
      · rw [hbind] at hv
        cases hv
      · rcases ha with ha | ⟨b, m₂, heq, _⟩
        · exact hvisits a ha
        · rw [hy] at heq
          cases heq
  | ok b m₁ =>
      have hbind : (y >>= f) m = f b m₁ := by rw [Eval.bind_apply, hy]
      rw [hy] at hm₁
      obtain ⟨L₂, hL₂, hm₂, hvalue₂, hvisits₂⟩ := hnext b m₁ L₁ hL₁ hm₁ (hvalue b m₁ hy)
      refine ⟨L₂, hL₁.trans hL₂, hbind ▸ hm₂, fun v m' hv => hvalue₂ v m' (hbind ▸ hv),
        fun a ha => ?_⟩
      rcases ha with ha | ⟨b', m₃, heq, ha⟩
      · exact (hvisits a ha).later hL₂
      · rw [hy] at heq
        cases heq
        exact hvisits₂ a ha

theorem Grows.after {P : Links → β → Prop} {y : Eval β} {f : β → Eval α} {next : β → Visits}
    (h : Grows L .none P y m)
    (hnext : ∀ b m₁ L₁, L.Later L₁ → m₁.Linked L₁ → P L₁ b → Grows L₁ (next b) Q (f b) m₁) :
    Grows L (.after y next) Q (y >>= f) m :=
  (h.bind hnext).imp (fun _ => .inr) fun _ _ => id

theorem Grows.map {P : Links → β → Prop} {y : Eval β} {f : β → Eval α} (h : Grows L vis P y m)
    (hnext : ∀ b m₁ L₁, L.Later L₁ → m₁.Linked L₁ → P L₁ b → Grows L₁ .none Q (f b) m₁) :
    Grows L vis Q (y >>= f) m :=
  (h.bind hnext).imp (fun _ => .inl) fun _ _ => id

/-- Under a condition no more is visited. -/
theorem Grows.given {p : Prop} (h : Grows L vis Q x m) : Grows L (.given p vis) Q x m :=
  h.imp (fun _ ha => ha.2) fun _ _ => id

theorem Grows.not_given {p : Prop} (h : Grows L .none Q x m) (hp : ¬ p) :
    Grows L (.given p vis) Q x m :=
  h.imp (fun _ ha => hp ha.1) fun _ _ => id

theorem Grows.within {E : Env} (hm : m.Linked L) (h : Grows L vis Q x { m with env := E }) :
    Grows L (.within E vis) Q (Eval.within E x) m := by
  obtain ⟨L', hL, hm', hvalue, hvisits⟩ := h
  refine ⟨L', hL, ?_, fun u m' hu => ?_, hvisits⟩
  · rw [Eval.within_machine]
    exact hm'.later_env hm.env hL
  · obtain ⟨m₁, hx⟩ := Eval.ok_of_within hu
    exact hvalue u m₁ hx

theorem Grows.reporting {t : Token} (h : Grows L vis Q x m) :
    Grows L vis Q (Eval.reporting t x) m := by
  obtain ⟨L', hL, hm, hvalue, hvisits⟩ := h
  exact ⟨L', hL, Eval.reporting_machine t x m ▸ hm,
    fun v m' hv => hvalue v m' (Eval.ok_of_reporting hv), hvisits⟩

/-- A task that a step does is along its links. -/
theorem Activity.along_of_perform {L' : Links} {n : Nat} {t : Task} {g : α → List Value}
    (hL : L.Later L') (hm : m.Linked L) (ht : t.Linked L)
    (hperform : Eval.perform n t m = (x m).map g) (hm' : (x m).machine.Linked L')
    (hvalue : ∀ v m', x m = .ok v m' → ∀ u ∈ g v, u.Linked L') :
    Activity.Along L L' ⟨n, t, m⟩ := by
  obtain ⟨hmachine, hvalues⟩ := t.run_gives n m
  rw [hperform] at hmachine hvalues
  refine ⟨hL, hm, ht, ?_, fun vs m' hvs u hu => ?_⟩
  · show (t.run n m).machine.Linked L'
    rw [hmachine]
    cases hx : x m <;> rw [hx] at hm' <;> exact hm'
  · obtain ⟨us, hus, hmem⟩ := hvalues vs m' hvs
    cases hx : x m with
    | abort r m₁ =>
        rw [hx] at hus
        cases hus
    | ok v m₁ =>
        rw [hx] at hus
        cases hus
        rcases hmem u hu with hu | rfl
        · exact hvalue v m' hx u hu
        · exact trivial

/-- An activity visits itself. -/
theorem Grows.self {n : Nat} {t : Task} {values : α → List Value} (hm : m.Linked L)
    (ht : t.Linked L) (hperform : Eval.perform (n + 1) t m = (x m).map values)
    (hvalues : ∀ L' v, Q L' v → ∀ u ∈ values v, u.Linked L')
    (h : Grows L (Eval.visitsInside n (Eval.visits n) t) Q x m) :
    Grows L (Eval.visits (n + 1) t) Q x m := by
  obtain ⟨L', hL, hm', hvalue, hvisits⟩ := h
  refine ⟨L', hL, hm', hvalue, fun a ha => ?_⟩
  rcases ha with rfl | ha
  · exact ⟨L, L', .refl L', Activity.along_of_perform hL hm ht hperform hm' fun v m₁ hx =>
      hvalues L' v (hvalue v m₁ hx)⟩
  · exact hvisits a ha

theorem along_spent {t : Task} (hopening : t.isOpening = false) (hm : m.Linked L)
    (ht : t.Linked L) : Activity.Along L L ⟨0, t, m⟩ :=
  Activity.along_of_perform (x := (Eval.spent : Eval (List Value))) (g := id) (.refl L) hm ht
    (perform_zero hopening m) hm fun _ _ h => by cases h

theorem grows_spent {t : Task} (hopening : t.isOpening = false) (hm : m.Linked L)
    (ht : t.Linked L) : Grows L (Eval.visits 0 t) Q (Eval.spent : Eval α) m := by
  refine ⟨L, .refl L, hm, (fun _ _ h => by cases h), fun a ha => ?_⟩
  cases ha
  exact ⟨L, L, .refl L, along_spent hopening hm ht⟩

end

end Lox
