import Lox.Proofs.Activities

/-!
# What happens in a run, in its order

Two things happen to every call of the evaluator: it begins, and unless it is aborted it
completes, with the values that it gives and the machine that it leaves. The chronicle of
a task lists these moments as they follow each other, those of the function bodies that
it runs among them. A moment is in the chronicle if and only if its activity is visited,
and it completes as the evaluator says.
-/

namespace Lox

/-- A moment of a run. -/
inductive Moment where
  | begins (a : Activity)
  /-- The activity gives the values and leaves the machine. -/
  | completes (a : Activity) (values : List Value) (m : Machine)

def Moment.activity : Moment → Activity
  | begins a => a
  | completes a _ _ => a

/-- Is this no call of the evaluator, but says that a frame was made? -/
def Task.isOpening : Task → Bool
  | .opens _ _ => true
  | _ => false

/-- What a statement gives to those around it. -/
def Completion.values : Completion → List Value
  | normal => []
  | returned v => [v]

/-- The same end with something made of the value. -/
def Result.map {α β : Type} (f : α → β) : Result α → Result β
  | ok v m => ok (f v) m
  | abort r m => abort r m

theorem Result.map_id {α : Type} (r : Result α) : r.map id = r := by
  cases r <;> rfl

namespace Eval

/-- What the evaluator does for a task, and the values that it gives. -/
def perform (n : Nat) (t : Task) : Eval (List Value) := fun m =>
  match t with
  | .eval e => (eval n e m).map fun v => [v]
  | .evalAll es => evalAll n es m
  | .call callee arguments => (call n callee arguments m).map fun v => [v]
  | .exec s => (exec n s m).map Completion.values
  | .execAll body => (execAll n body m).map Completion.values
  | .loop condition body => (loop n condition body m).map Completion.values
  | .unit program => (execUnit n program m).map fun _ => []
  | .opens _ _ => .ok [] m

end Eval

/-- The activity gave these values and left this machine, if the moment says so. -/
def Moment.Happens : Moment → Prop
  | begins _ => True
  | completes a values m => Eval.perform a.budget a.task a.machine = .ok values m

/-- What is shown at a moment: where a print statement completes, the value that its
expression gave and the machine that it left. -/
def Moment.shown? : Moment → Option (Value × Machine)
  | completes ⟨n + 1, .exec (.print e), m⟩ _ _ =>
    match Eval.eval n e m with
    | .ok v m' => some (v, m')
    | .abort _ _ => none
  | _ => none

/-- The text of what is shown. -/
def Moment.text? (x : Moment) : Option String :=
  x.shown?.map fun (v, m) => m.render v

/-- What is printed in some moments. -/
def textsOf (l : List Moment) : List String :=
  l.filterMap Moment.text?

@[simp]
theorem textsOf_append (l l' : List Moment) : textsOf (l ++ l') = textsOf l ++ textsOf l' :=
  List.filterMap_append ..

/-- Moments in their order. -/
abbrev Chronicle := Machine → List Moment

namespace Chronicle

variable {α : Type}

def none : Chronicle := fun _ => []

/-- The moments after a step that succeeds. -/
def after (x : Eval α) (f : α → Chronicle) : Chronicle := fun m =>
  match x m with
  | .ok v m' => f v m'
  | .abort _ _ => []

/-- The moments of a step, and then those after it. -/
def andThen (first : Chronicle) (x : Eval α) (f : α → Chronicle) : Chronicle := fun m =>
  first m ++ after x f m

/-- The moments in another environment. -/
def within (env : Env) (inner : Chronicle) : Chronicle := fun m => inner { m with env := env }

/-- Those moments, under a condition. -/
def given (p : Prop) [Decidable p] (c : Chronicle) : Chronicle := fun m => if p then c m else []

/-- The chronicle has the moments of the activities that are visited, and no others. -/
def Records (c : Chronicle) (v : Visits) : Prop :=
  ∀ m x, x ∈ c m ↔ x.activity.task.isOpening = false ∧ x.Happens ∧ v m x.activity

end Chronicle

namespace Eval

/-- The moment in which a task with budget `n` completes, if it does. -/
def ending (n : Nat) (t : Task) : Chronicle := fun m =>
  match perform n t m with
  | .ok values m' => [.completes ⟨n, t, m⟩ values m']
  | .abort _ _ => []

/-- The moments inside of an activity with budget `n + 1`, given those with budget `n`. -/
def chronicleInside (n : Nat) (chronicle : Task → Chronicle) : Task → Chronicle
  | .eval (.grouping inner) => chronicle (.eval inner)
  | .eval (.assign _ _ value) => chronicle (.eval value)
  | .eval (.unary _ operand) => chronicle (.eval operand)
  | .eval (.binary left _ right) =>
    (chronicle (.eval left)).andThen (eval n left) fun _ => chronicle (.eval right)
  | .eval (.logical left operator right) =>
    (chronicle (.eval left)).andThen (eval n left) fun v =>
      .given (settles operator v = false) (chronicle (.eval right))
  | .eval (.conditional condition thenBranch elseBranch) =>
    (chronicle (.eval condition)).andThen (eval n condition) fun v =>
      chronicle (.eval (if v.truthy then thenBranch else elseBranch))
  | .eval (.call callee _ arguments) =>
    (chronicle (.eval callee)).andThen (eval n callee) fun f =>
      (chronicle (.evalAll arguments)).andThen (evalAll n arguments) fun vs =>
        .given (f.arity? = some vs.length) (chronicle (.call f vs))
  | .eval (.get object _) => chronicle (.eval object)
  | .eval (.set object name value) =>
    (chronicle (.eval object)).andThen (eval n object) fun v =>
      .after (fieldOwner v name) fun _ => chronicle (.eval value)
  | .eval (.vector _ elements) => chronicle (.evalAll elements)
  | .evalAll (e :: rest) =>
    (chronicle (.eval e)).andThen (eval n e) fun _ => chronicle (.evalAll rest)
  | .call (.function _ c) arguments =>
    .after (callEnv c arguments) fun env => .within env (chronicle (.execAll c.declaration.body))
  | .call (.cls c) arguments =>
    .after (allocate c (if c.body.isVector then some #[] else none)) fun o =>
      match c.findMethod? initializerName with
      | none => .none
      | some method =>
        .after (bindMethod method o) fun initializer => chronicle (.call initializer arguments)
  | .exec (.expression e) => chronicle (.eval e)
  | .exec (.print e) => chronicle (.eval e)
  | .exec (.varDecl _ (some e)) => chronicle (.eval e)
  | .exec (.block body) =>
    .after environment fun outer =>
      .after (enter "block" outer) fun env => .within env (chronicle (.execAll body))
  | .exec (.ifThen condition thenBranch) =>
    (chronicle (.eval condition)).andThen (eval n condition) fun v =>
      .given (v.truthy = true) (chronicle (.exec thenBranch))
  | .exec (.ifElse condition thenBranch elseBranch) =>
    (chronicle (.eval condition)).andThen (eval n condition) fun v =>
      chronicle (.exec (if v.truthy then thenBranch else elseBranch))
  | .exec (.whileLoop condition body) => chronicle (.loop condition body)
  | .exec (.ret _ (some e)) => chronicle (.eval e)
  | .exec (.classDecl _ (some parent) _) => chronicle (.eval (.var parent.name parent.slot))
  | .execAll (s :: rest) =>
    (chronicle (.exec s)).andThen (exec n s) fun
      | .normal => chronicle (.execAll rest)
      | .returned _ => .none
  | .loop condition body =>
    (chronicle (.eval condition)).andThen (eval n condition) fun v =>
      .given (v.truthy = true) <| (chronicle (.exec body)).andThen (exec n body) fun
        | .normal => chronicle (.loop condition body)
        | .returned _ => .none
  | .unit (s :: rest) =>
    (chronicle (.exec s)).andThen (exec n s) fun _ => chronicle (.unit rest)
  | _ => .none

/-- The chronicle of a task. -/
def chronicle : Nat → Task → Chronicle
  | 0, t => fun m => [.begins ⟨0, t, m⟩]
  | n + 1, t => fun m =>
    .begins ⟨n + 1, t, m⟩ :: (chronicleInside n (chronicle n) t m ++ ending (n + 1) t m)

end Eval

open Eval

/-! ## Chronicles and visits -/

namespace Chronicle

section

variable {α : Type} {c : Chronicle} {v : Visits} {x : Eval α}

theorem records_none : Records none .none :=
  fun _ _ => iff_of_false List.not_mem_nil fun h => h.2.2

theorem records_after {f : α → Chronicle} {g : α → Visits} (hf : ∀ b, Records (f b) (g b)) :
    Records (after x f) (.after x g) := by
  intro m y
  rw [after, Visits.after]
  cases hx : x m with
  | ok b m₁ =>
      rw [hf b m₁ y]
      refine and_congr_right fun _ => and_congr_right fun _ => ⟨fun h => ⟨b, m₁, rfl, h⟩, ?_⟩
      rintro ⟨_, _, heq, h⟩
      cases heq
      exact h
  | abort r m₁ =>
      refine iff_of_false List.not_mem_nil ?_
      rintro ⟨_, _, _, _, heq, _⟩
      cases heq

theorem Records.andThen (h : Records c v) {f : α → Chronicle} {g : α → Visits}
    (hf : ∀ b, Records (f b) (g b)) : Records (c.andThen x f) (v.andThen x g) := by
  intro m y
  rw [Chronicle.andThen, List.mem_append, h m y, records_after hf m y, ← and_or_left,
    ← and_or_left]
  exact Iff.rfl

/-- That a frame was made is no moment of a chronicle. -/
theorem Records.of_opening (h : Records c v) {w : Visits}
    (hw : ∀ m a, w m a → a.task.isOpening = true) : Records c fun m a => w m a ∨ v m a := by
  intro m y
  rw [h m y]
  refine and_congr_right fun hy => and_congr_right fun _ => (or_iff_right fun h => ?_).symm
  have hopening := hw m y.activity h
  rw [hy] at hopening
  cases hopening

theorem isOpening_opening {n : Nat} {o : Opening} {y : Eval Env} (m : Machine) (a : Activity)
    (h : Visits.opening n o y m a) : a.task.isOpening = true := by
  obtain ⟨_, _, _, rfl⟩ := h
  rfl

theorem isOpening_bindVisits {n : Nat} {method : Method} {receiver : Value} (m : Machine)
    (a : Activity) (h : bindVisits n method receiver m a) : a.task.isOpening = true := by
  cases method with
  | closure c => exact isOpening_opening m a h
  | native f => exact h.elim

theorem Records.within (h : Records c v) (E : Env) : Records (within E c) (.within E v) :=
  fun m => h { m with env := E }

theorem Records.given (h : Records c v) (p : Prop) [Decidable p] :
    Records (given p c) (.given p v) := by
  intro m y
  rw [Chronicle.given, Visits.given]
  by_cases hp : p
  · rw [if_pos hp, h m y, and_iff_right hp]
  · rw [if_neg hp]
    exact iff_of_false List.not_mem_nil fun h => hp h.2.2.1

/-- Nothing but frames that were made. -/
theorem records_none_of_opening {w : Visits} (hw : ∀ m a, w m a → a.task.isOpening = true) :
    Records none w := by
  intro m y
  refine iff_of_false List.not_mem_nil fun h => ?_
  have hopening := hw m y.activity h.2.2
  rw [h.1] at hopening
  cases hopening

end

end Chronicle

open Chronicle

section

variable {n : Nat}

/-- Reading a variable is a single activity. -/
theorem visits_var (t : Token) (slot : Slot) :
    Eval.visits n (.eval (.var t slot)) = .one n (.eval (.var t slot)) := by
  cases n with
  | zero => rfl
  | succ n => exact funext fun m => funext fun a => propext (or_iff_left id)

/-- Statements one after the other, until one returns. -/
theorem records_completion (h : ∀ t, t.isOpening = false → Records (chronicle n t) (visits n t))
    {t : Task} (ht : t.isOpening = false) (k : Completion) :
    Records (match k with | .normal => chronicle n t | .returned _ => .none)
      (match k with | .normal => visits n t | .returned _ => .none) := by
  cases k with
  | normal => exact h t ht
  | returned v => exact records_none

theorem records_inside (h : ∀ t, t.isOpening = false → Records (chronicle n t) (visits n t))
    (t : Task) : Records (chronicleInside n (chronicle n) t) (visitsInside n (visits n) t) := by
  have heval : ∀ e, Records (chronicle n (.eval e)) (visits n (.eval e)) := fun _ => h _ rfl
  have hexec : ∀ s, Records (chronicle n (.exec s)) (visits n (.exec s)) := fun _ => h _ rfl
  cases t with
  | eval e =>
      cases e with
      | grouping | assign | unary => exact heval _
      | vector => exact h _ rfl
      | binary => exact (heval _).andThen fun _ => heval _
      | logical => exact (heval _).andThen fun _ => (heval _).given _
      | conditional => exact (heval _).andThen fun _ => heval _
      | call =>
          exact (heval _).andThen fun _ => (h _ rfl).andThen fun _ => (h _ rfl).given _
      | get object name =>
          intro m y
          refine ((heval object).of_opening (w := Visits.after (eval n object) fun v m a =>
            ∃ method, methodOf? v name.lexeme m = some method ∧ bindVisits n method v m a)
            ?_ m y).trans ?_
          · rintro m a ⟨v, m₁, _, method, _, hbind⟩
            exact isOpening_bindVisits m₁ a hbind
          · exact and_congr_right fun _ => and_congr_right fun _ => or_comm
      | set => exact (heval _).andThen fun _ => records_after fun _ => heval _
      | superRef =>
          refine records_none_of_opening ?_
          rintro m a ⟨found, receiver, _, hbind⟩
          exact isOpening_bindVisits m a hbind
      | literal | var | thisRef => exact records_none
  | evalAll es =>
      cases es with
      | nil => exact records_none
      | cons => exact (heval _).andThen fun _ => h _ rfl
  | call callee arguments =>
      cases callee with
      | function id c =>
          have hbody (E : Env) := (h (.execAll c.declaration.body) rfl).within E
          exact (records_after hbody).of_opening isOpening_opening
      | cls c =>
          rw [chronicleInside, visitsInside]
          refine records_after fun o => ?_
          cases c.findMethod? initializerName with
          | none => exact records_none
          | some method =>
              have hcall (f : Value) := h (.call f arguments) rfl
              exact (records_after hcall).of_opening isOpening_bindVisits
      | nil | bool | number | text | native | nativeMethod | object | unassigned =>
          exact records_none
  | exec s =>
      cases s with
      | expression | print => exact heval _
      | whileLoop => exact h _ rfl
      | varDecl name initializer =>
          cases initializer with
          | none => exact records_none
          | some e => exact heval e
      | block body =>
          have hbody (E : Env) := (h (.execAll body) rfl).within E
          exact records_after (x := environment) fun outer =>
            (records_after (x := enter "block" outer) hbody).of_opening isOpening_opening
      | ifThen => exact (heval _).andThen fun _ => (hexec _).given _
      | ifElse => exact (heval _).andThen fun _ => hexec _
      | function => exact records_none
      | ret keyword value =>
          cases value with
          | none => exact records_none
          | some e => exact heval e
      | classDecl name superclass methods =>
          cases superclass with
          | none => exact records_none
          | some parent =>
              intro m y
              have hparent := heval (.var parent.name parent.slot)
              rw [visits_var] at hparent
              refine (hparent.of_opening (w := Visits.after (superclassOf (some parent)) fun c =>
                .after (define name.lexeme .unassigned) fun _ =>
                  .opening n (.superclass (.classDecl name (some parent) methods)) (methodEnv c))
                ?_ m y).trans ?_
              · rintro m a ⟨c, m₁, _, _, m₂, _, hopening⟩
                exact isOpening_opening m₂ a hopening
              · exact and_congr_right fun _ => and_congr_right fun _ => or_comm
  | execAll ss =>
      cases ss with
      | nil => exact records_none
      | cons s rest => exact (hexec s).andThen fun k => records_completion h rfl k
  | loop c s =>
      exact (heval c).andThen fun _ =>
        ((hexec s).andThen fun k => records_completion h rfl k).given _
  | unit ss =>
      cases ss with
      | nil => exact records_none
      | cons => exact (hexec _).andThen fun _ => h _ rfl
  | opens => exact records_none

/-- Without a budget nothing completes. -/
theorem perform_zero {t : Task} (ht : t.isOpening = false) (m : Machine) :
    perform 0 t m = .abort .spent m := by
  cases t with
  | opens => cases ht
  | eval e =>
      rw [perform, eval_zero]
      rfl
  | evalAll es =>
      rw [perform, evalAll]
      rfl
  | call f vs =>
      rw [perform, call]
      rfl
  | exec s =>
      rw [perform, exec_zero]
      rfl
  | execAll body =>
      rw [perform, execAll]
      rfl
  | loop c s =>
      rw [perform, loop]
      rfl
  | unit program =>
      rw [perform, execUnit]
      rfl

theorem ending_of_ok {t : Task} {m m' : Machine} {values : List Value}
    (h : perform n t m = .ok values m') : ending n t m = [.completes ⟨n, t, m⟩ values m'] := by
  simp only [ending, h]

theorem ending_of_abort {t : Task} {m m' : Machine} {r : Abort}
    (h : perform n t m = .abort r m') : ending n t m = [] := by
  simp only [ending, h]

theorem mem_ending {t : Task} {m : Machine} {y : Moment} :
    y ∈ ending n t m ↔ ∃ values m', y = .completes ⟨n, t, m⟩ values m' ∧ y.Happens := by
  cases hp : perform n t m with
  | ok values m' =>
      rw [ending_of_ok hp, List.mem_singleton]
      refine ⟨fun hy => ⟨values, m', hy, hy ▸ hp⟩, ?_⟩
      rintro ⟨values', m'', rfl, happens⟩
      cases hp.symm.trans happens
      rfl
  | abort r m' =>
      rw [ending_of_abort hp]
      refine iff_of_false List.not_mem_nil ?_
      rintro ⟨values', m'', rfl, happens⟩
      cases hp.symm.trans happens

theorem chronicle_succ (t : Task) (m : Machine) : chronicle (n + 1) t m =
    .begins ⟨n + 1, t, m⟩ :: (chronicleInside n (chronicle n) t m ++ ending (n + 1) t m) :=
  rfl

/-- A moment is in the chronicle if and only if its activity is visited and, for one that
completes, the evaluator says how. -/
theorem records_chronicle (n : Nat) {t : Task} (ht : t.isOpening = false) :
    Records (chronicle n t) (visits n t) := by
  induction n generalizing t with
  | zero =>
      intro m y
      rw [chronicle, List.mem_singleton, visits]
      constructor
      · rintro rfl
        exact ⟨ht, trivial, rfl⟩
      · rintro ⟨_, happens, hy⟩
        cases y with
        | begins a => exact congrArg Moment.begins hy
        | completes a values m' =>
            cases hy
            cases (perform_zero ht m).symm.trans happens
  | succ n ih =>
      intro m y
      rw [chronicle_succ, List.mem_cons, List.mem_append, records_inside (fun t ht => ih ht) t m y,
        mem_ending, visits]
      constructor
      · rintro (rfl | ⟨hy, happens, hvisits⟩ | ⟨values, m', rfl, happens⟩)
        · exact ⟨ht, trivial, .inl rfl⟩
        · exact ⟨hy, happens, .inr hvisits⟩
        · exact ⟨ht, happens, .inl rfl⟩
      · rintro ⟨hy, happens, hself | hvisits⟩
        · cases y with
          | begins a => exact .inl (congrArg Moment.begins hself)
          | completes a values m' =>
              cases hself
              exact .inr (.inr ⟨values, m', rfl, happens⟩)
        · exact .inr (.inl ⟨hy, happens, hvisits⟩)

end

end Lox
