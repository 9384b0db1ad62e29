import Lox.Proofs.Natives.Operations
import Lox.Proofs.Numerals.Integers
import Lox.Proofs.Vacancy.Steps

/-!
# Vectors as lists

What a run does with vectors can be read off its moments. The call of a class of vectors and a
literal make one, with the elements that the literal's expressions gave, and a call of `append`
adds one value to one vector. Nothing else makes or changes any. Done to lists, one deed after the
other, this says which list each vector is at every moment, without a look at the machine.

Vectors are told apart by their places in the store. A method that was taken from a vector holds
nothing but that place, so it does not matter when it was taken, or which variables and fields
lead to it.

A step is faithful if at each of its moments the vectors on the machine are the lists that the
moments before have made. Steps that follow each other are faithful together. What is not part of
the recursion of the evaluator has no moments, and so it may not touch a vector. Beside that, no
class but the class of vectors itself makes vectors, so all vectors have the methods of that class.
A class of the program that inherits from it makes plain instances.
-/

namespace Lox

open Eval

/-- The lists that vectors are, by their places in the store. -/
abbrev Lists := Nat → Option (List Value)

/-- The vectors on the machine, as lists. -/
def Machine.lists (m : Machine) : Lists := fun ref =>
  m.objects[ref]?.bind fun i => i.elements.map Array.toList

/-- What can be done with vectors. -/
inductive VectorDeed where
  | make (ref : Nat) (elements : List Value)
  | append (ref : Nat) (v : Value)

/-- The deed done to lists. -/
def VectorDeed.apply (L : Lists) : VectorDeed → Lists
  | make ref elements => Function.update L ref (some elements)
  | append ref v => Function.update L ref ((L ref).map (· ++ [v]))

/-- What a native function appends to which instance, if it does that. The receiver of a method
is the first of its arguments. -/
def Native.append? (f : Native) : List Value → Option VectorDeed
  | [.object ref, v] => if f.body = .append then some (.append ref v) else none
  | _ => none

/-- The same of a value that is called. -/
def Value.append? (callee : Value) (arguments : List Value) : Option VectorDeed :=
  match callee with
  | .native _ f => f.append? arguments
  | .nativeMethod _ f receiver => f.append? (receiver :: arguments)
  | _ => none

theorem Value.append?_eq_some {callee : Value} {arguments : List Value} {d : VectorDeed}
    (h : callee.append? arguments = some d) : ∃ ref v, d = .append ref v := by
  have happend : ∀ (f : Native) us, f.append? us = some d → ∃ ref v, d = .append ref v := by
    intro f us h
    unfold Native.append? at h
    split at h
    · split at h
      · cases h
        exact ⟨_, _, rfl⟩
      · cases h
    · cases h
  unfold Value.append? at h
  split at h
  · exact happend _ _ h
  · exact happend _ _ h
  · cases h

namespace Moment

/-- What is done with vectors in the moment. When the call of a class begins, its instance gets
the next place. -/
def deed? : Moment → Option VectorDeed
  | begins ⟨_ + 1, .call (.cls c) _, m⟩ =>
    if c.body.isVector then some (.make m.objects.size []) else none
  | begins _ => none
  | completes ⟨n + 1, .eval (.vector _ elements), m⟩ [.object ref] _ =>
    match evalAll n elements m with
    | .ok vs _ => some (.make ref vs)
    | .abort _ _ => none
  | completes ⟨_, .call callee arguments, _⟩ _ _ => callee.append? arguments
  | completes _ _ _ => none

/-- The lists after the moment. -/
def lists (L : Lists) (x : Moment) : Lists :=
  x.deed?.elim L (VectorDeed.apply L)

end Moment

/-- The lists after some moments. -/
def listsAfter (L : Lists) (l : List Moment) : Lists :=
  l.foldl Moment.lists L

theorem listsAfter_cons (L : Lists) (x : Moment) (l : List Moment) :
    listsAfter L (x :: l) = listsAfter (x.lists L) l :=
  rfl

theorem listsAfter_append (L : Lists) (l l' : List Moment) :
    listsAfter L (l ++ l') = listsAfter (listsAfter L l) l' :=
  List.foldl_append

/-! ## Indices -/

/-- The value is a number, and that is the integer. -/
def Value.IsIndex (v : Value) (k : Int) : Prop :=
  ∃ x, v = .number x ∧ IsInteger x k

theorem index?_eq_some {v : Value} {k : Int} : index? v = some k ↔ v.IsIndex k := by
  constructor
  · intro h
    cases v with
    | number x => exact ⟨x, rfl, h⟩
    | _ => cases h
  · rintro ⟨x, rfl, h⟩
    exact h

/-- How a list is asked for an element: by a number that is an integer, from either end. -/
structure Elements (l : List Value) (index : Value) (m : Machine) (r : Result Value) : Prop where
  front : ∀ (i : Nat) (h : i < l.length), index.IsIndex i → r = .ok l[i] m
  back : ∀ (i : Nat) (h : i < l.length), index.IsIndex (i - l.length) → r = .ok l[i] m
  /-- Everything else is refused, and nothing is changed. -/
  outside : (∀ k : Int, -l.length ≤ k → k < l.length → ¬ index.IsIndex k) →
    ∃ message, r = .abort (.failure message) m

/-! ## The store -/

section

variable {m : Machine} {ref : Nat} {l : List Value}

theorem exists_of_lists (h : m.lists ref = some l) :
    ∃ i elements, m.objects[ref]? = some i ∧ i.elements = some elements ∧ elements.toList = l := by
  obtain ⟨i, hi, h⟩ := Option.bind_eq_some_iff.mp h
  obtain ⟨elements, helements, rfl⟩ := Option.map_eq_some_iff.mp h
  exact ⟨i, elements, hi, helements, rfl⟩

/-- There is no vector where there is no instance. -/
theorem lists_size (m : Machine) : m.lists m.objects.size = none := by
  rw [Machine.lists, Array.getElem?_size]
  rfl

/-- A new instance that is no vector changes none. -/
theorem lists_push_none (m : Machine) (i : Instance) (h : i.elements = none) :
    { m with objects := m.objects.push i }.lists = m.lists := by
  funext ref
  show ((m.objects.push i)[ref]?.bind _ = _)
  rw [Array.getElem?_push]
  split
  · next heq =>
      subst heq
      rw [lists_size, Option.bind_some, h]
      rfl
  · rfl

/-- A new vector takes the next place. -/
theorem lists_push_some (m : Machine) (i : Instance) {elements : Array Value}
    (h : i.elements = some elements) :
    { m with objects := m.objects.push i }.lists =
      (VectorDeed.make m.objects.size elements.toList).apply m.lists := by
  funext ref
  show ((m.objects.push i)[ref]?.bind _ = _)
  rw [Array.getElem?_push, VectorDeed.apply, Function.update_apply]
  split
  · rw [Option.bind_some, h]
    rfl
  · rfl

/-- What is done to an instance beside its elements changes no vector. -/
theorem lists_modify (m : Machine) (ref : Nat) {f : Instance → Instance}
    (hf : ∀ i, (f i).elements = i.elements) :
    { m with objects := m.objects.modify ref f }.lists = m.lists := by
  funext r
  show ((m.objects.modify ref f)[r]?.bind _ = _)
  rw [Array.getElem?_modify]
  split
  · rw [Option.bind_map]
    exact congrArg (Option.bind m.objects[r]?) (funext fun i => by rw [Function.comp, hf])
  · rfl

/-- The machine with a value pushed to a vector. -/
def Machine.pushed (m : Machine) (ref : Nat) (v : Value) : Machine :=
  { m with
    objects := m.objects.modify ref fun i =>
      { i with elements := i.elements.map (Array.push · v) } }

theorem lists_pushed (m : Machine) (ref : Nat) (v : Value) :
    (m.pushed ref v).lists = (VectorDeed.append ref v).apply m.lists := by
  funext r
  show ((m.objects.modify ref _)[r]?.bind _ = _)
  rw [Array.getElem?_modify, VectorDeed.apply, Function.update_apply]
  by_cases hr : ref = r
  · subst hr
    rw [if_pos rfl, if_pos rfl, Option.bind_map, Machine.lists, Option.map_bind]
    refine congrArg (Option.bind m.objects[ref]?) (funext fun i => ?_)
    cases h : i.elements <;> simp [h]
  · rw [if_neg hr, if_neg (Ne.symm hr)]
    rfl

/-! ## The methods of vectors -/

theorem vectorAt_eq (h : m.lists ref = some l) :
    vectorAt (.object ref) m = .ok (ref, l.toArray) m := by
  obtain ⟨i, elements, hi, helements, rfl⟩ := exists_of_lists h
  rw [vectorAt_object hi, helements]

theorem appendTo_eq (h : m.lists ref = some l) (v : Value) :
    appendTo (.object ref) v m = .ok .nil (m.pushed ref v) := by
  simp only [appendTo, vectorRef, bind_apply, vectorAt_eq h]
  rfl

theorem lengthOf_eq (h : m.lists ref = some l) :
    lengthOf (.object ref) m = .ok (.number l.length.toFloat) m := by
  simp only [lengthOf, bind_apply, vectorAt_eq h]
  rfl

/-- An index that is an integer finds what is at its place. -/
theorem element_eq_ok {k : Int} {i : Nat} (hi : i < l.length) (hk : k = i ∨ k = i - l.length) :
    element l.toArray k m = .ok l[i] m := by
  have hposition : (if k < 0 then k + (l.toArray.size : Int) else k) = i := by
    rw [List.size_toArray]
    split <;> omega
  simp only [element, hposition, Int.toNat_natCast, List.getElem?_toArray,
    List.getElem?_eq_getElem hi]
  rw [if_neg (by omega)]
  rfl

theorem element_refuses {k : Int} (hk : k < -l.length ∨ l.length ≤ k) :
    ∃ message, element l.toArray k m = .abort (.failure message) m := by
  by_cases hneg : k < 0
  · simp only [element, if_pos hneg, List.size_toArray]
    rw [if_pos (by omega)]
    exact ⟨_, rfl⟩
  · have hout : l.toArray[k.toNat]? = none := by
      rw [List.getElem?_toArray]
      exact List.getElem?_eq_none (by omega)
    simp only [element, if_neg hneg, hout]
    exact ⟨_, rfl⟩

theorem elementAt_elements (h : m.lists ref = some l) (index : Value) :
    Elements l index m (elementAt (.object ref) index m) := by
  cases hindex : index? index with
  | none =>
      have hnone : ∀ k, ¬ index.IsIndex k := by
        intro k hk
        rw [index?_eq_some.mpr hk] at hindex
        cases hindex
      refine ⟨fun i _ hk => absurd hk (hnone _), fun i _ hk => absurd hk (hnone _), fun _ => ?_⟩
      rw [elementAt, hindex]
      exact ⟨_, rfl⟩
  | some k =>
      have hk := index?_eq_some.mp hindex
      have hunique : ∀ k', index.IsIndex k' → k = k' := by
        intro k' hk'
        rw [index?_eq_some.mpr hk'] at hindex
        exact (Option.some.inj hindex).symm
      have helement : elementAt (.object ref) index m = element l.toArray k m := by
        rw [elementAt, hindex]
        simp only [bind_apply, vectorAt_eq h]
      rw [helement]
      refine ⟨fun i hi hi' => ?_, fun i hi hi' => ?_, fun hnone => ?_⟩
      · exact element_eq_ok hi (.inl (hunique _ hi'))
      · exact element_eq_ok hi (.inr (hunique _ hi'))
      · refine element_refuses ?_
        by_contra hin
        exact hnone k (by omega) (by omega) hk

end

/-! ## Genuine vectors -/

section

variable (V : Class)

/-- Whatever makes vectors is the class of vectors. -/
def Value.Genuine : Value → Prop
  | .cls c => c.body.isVector = true → c = V
  | .nativeMethod _ _ receiver => receiver.Genuine
  | _ => True

/-- What a task calls is genuine. -/
def Task.Genuine : Task → Prop
  | .call f _ => f.Genuine V
  | _ => True

structure Instance.Genuine (i : Instance) : Prop where
  cls : i.elements ≠ none → i.cls = V
  fields : ∀ name v, i.fields.find? name = some v → v.Genuine V
  elements : ∀ vs, i.elements = some vs → ∀ v ∈ vs, v.Genuine V

structure Machine.Genuine (m : Machine) : Prop where
  bindings : ∀ k name v, m.frames.binding? k name = some v → v.Genuine V
  objects : ∀ (ref : Nat) (i : Instance), m.objects[ref]? = some i → i.Genuine V
  vectorClass : m.vectorClass = V

end

variable {V : Class}

/-! ## Faithful moments -/

section

variable (V : Class)

/-- The moment is faithful if the vectors were those lists before it. -/
structure Moment.Faithful (L : Lists) (x : Moment) : Prop where
  genuine : x.machine.Genuine V
  task : ∀ a, x = .begins a → a.task.Genuine V
  begins : ∀ a, x = .begins a → a.machine.lists = L
  completes : ∀ a vs m, x = .completes a vs m → m.lists = x.lists L
  /-- A vector that is made is a new one. -/
  fresh : ∀ ref vs, x.deed? = some (.make ref vs) → L ref = none

/-- The moments are faithful one after the other. -/
def FaithfulFrom (L : Lists) : List Moment → Prop
  | [] => True
  | x :: l => x.Faithful V L ∧ FaithfulFrom (x.lists L) l

/-- A step with these moments, from those lists on. -/
structure Replays {α : Type} (L : Lists) (l : List Moment) (Q : α → Prop) (r : Result α) :
    Prop where
  genuine : r.machine.Genuine V
  lists : r.machine.lists = listsAfter L l
  value : ∀ v m', r = .ok v m' → Q v
  moments : FaithfulFrom V L l

end

theorem faithfulFrom_append {L : Lists} {l l' : List Moment} :
    FaithfulFrom V L (l ++ l') ↔ FaithfulFrom V L l ∧ FaithfulFrom V (listsAfter L l) l' := by
  induction l generalizing L with
  | nil => exact (and_iff_right trivial).symm
  | cons x l ih =>
      rw [List.cons_append, FaithfulFrom, FaithfulFrom, ih, listsAfter_cons, and_assoc]

/-- A moment among others that are faithful. -/
theorem FaithfulFrom.at {L : Lists} {past rest : List Moment} {x : Moment}
    (h : FaithfulFrom V L (past ++ x :: rest)) : x.Faithful V (listsAfter L past) :=
  (faithfulFrom_append.mp h).2.1

/-! ## Rules for steps -/

section

variable {α β : Type} {L : Lists} {l : List Moment} {c : Chronicle} {P : β → Prop}
  {Q : α → Prop} {x : Eval α} {y : Eval β} {f : β → Eval α} {d : β → Chronicle} {m : Machine}

/-- A step after another one. -/
theorem Replays.bind (h : Replays V L (c m) P (y m))
    (hnext : ∀ b m₁, m₁.Genuine V → P b → Replays V m₁.lists (d b m₁) Q (f b m₁)) :
    Replays V L (c.andThen y d m) Q ((y >>= f) m) := by
  obtain ⟨hgenuine, hlists, hvalue, hmoments⟩ := h
  rw [bind_apply, Chronicle.andThen, Chronicle.after]
  cases hy : y m with
  | ok b m₁ =>
      rw [hy] at hgenuine hlists
      obtain ⟨hgenuine₁, hlists₁, hvalue₁, hmoments₁⟩ := hnext b m₁ hgenuine (hvalue b m₁ hy)
      -- the second step begins with the lists that the first one leaves
      rw [show m₁.lists = listsAfter L (c m) from hlists] at hlists₁ hmoments₁
      exact ⟨hgenuine₁, hlists₁.trans (listsAfter_append ..).symm, hvalue₁,
        faithfulFrom_append.mpr ⟨hmoments, hmoments₁⟩⟩
  | abort r m₁ =>
      rw [hy] at hgenuine hlists
      rw [List.append_nil]
      exact ⟨hgenuine, hlists, (fun _ _ h => by cases h), hmoments⟩

/-- A step without moments leaves all vectors as they are. -/
abbrev Steady (V : Class) {α : Type} (Q : α → Prop) (x : Eval α) (m : Machine) : Prop :=
  Replays V m.lists [] Q (x m)

/-- A step without moments after another one. -/
theorem Replays.map (h : Replays V L l P (y m))
    (hf : ∀ b m₁, m₁.Genuine V → P b → Steady V Q (f b) m₁) : Replays V L l Q ((y >>= f) m) := by
  have hbind := Replays.bind (c := fun _ => l) (d := fun _ => .none) h hf
  have hmoments : Chronicle.andThen (fun _ => l) y (fun _ => .none) m = l := by
    rw [Chronicle.andThen, Chronicle.after]
    split <;> exact List.append_nil l
  rwa [hmoments] at hbind

/-- A step after one without moments. -/
theorem Replays.after (h : Replays V L [] P (y m))
    (hnext : ∀ b m₁, m₁.Genuine V → P b → Replays V m₁.lists (d b m₁) Q (f b m₁)) :
    Replays V L (Chronicle.after y d m) Q ((y >>= f) m) :=
  Replays.bind (c := .none) h hnext

theorem Machine.Genuine.at_env (h : m.Genuine V) (E : Env) : { m with env := E }.Genuine V :=
  ⟨h.bindings, h.objects, h.vectorClass⟩

theorem Replays.within {E : Env}
    (h : Replays V L (c { m with env := E }) Q (x { m with env := E })) :
    Replays V L (Chronicle.within E c m) Q (Eval.within E x m) := by
  obtain ⟨hgenuine, hlists, hvalue, hmoments⟩ := h
  refine ⟨?_, ?_, fun u m' hu => ?_, hmoments⟩
  · rw [within_machine]
    exact hgenuine.at_env m.env
  · rw [within_machine]
    exact hlists
  · obtain ⟨m₁, hx⟩ := ok_of_within hu
    exact hvalue u m₁ hx

theorem Replays.reporting {t : Token} (h : Replays V L l Q (x m)) :
    Replays V L l Q (Eval.reporting t x m) := by
  obtain ⟨hgenuine, hlists, hvalue, hmoments⟩ := h
  have hmachine := reporting_machine t x m
  exact ⟨hmachine ▸ hgenuine, hmachine ▸ hlists, fun v m' hv => hvalue v m' (ok_of_reporting hv),
    hmoments⟩

end

/-! ## Activities -/

section

variable {α : Type} {n : Nat} {t : Task} {g : α → List Value} {Q : α → Prop} {x : Eval α}
  {m : Machine}

/-- What is made when the task begins takes the next place. -/
theorem deed?_begins {a : Activity} {d : VectorDeed} (h : (Moment.begins a).deed? = some d) :
    d = .make a.machine.objects.size [] := by
  obtain ⟨_ | n, t, m⟩ := a
  · cases t <;> cases h
  · cases t with
    | call f vs =>
        cases f with
        | cls c =>
            rw [Moment.deed?] at h
            split at h <;> cases h
            rfl
        | _ => cases h
    | _ => cases h

theorem faithful_begins {a : Activity} (hm : a.machine.Genuine V) (ht : a.task.Genuine V) :
    (Moment.begins a).Faithful V a.machine.lists where
  genuine := hm
  task _ h := by cases h; exact ht
  begins _ h := by cases h; rfl
  completes _ _ _ h := by cases h
  fresh ref vs h := by
    cases deed?_begins h
    exact lists_size a.machine

theorem faithful_completes {a : Activity} {vs : List Value} {m' : Machine} {L : Lists}
    (hm' : m'.Genuine V) (hlists : m'.lists = (Moment.completes a vs m').lists L)
    (hfresh : ∀ ref us, (Moment.completes a vs m').deed? = some (.make ref us) → L ref = none) :
    (Moment.completes a vs m').Faithful V L where
  genuine := hm'
  task _ h := by cases h
  begins _ h := by cases h
  completes _ _ _ h := by cases h; exact hlists
  fresh := hfresh

/-- The chronicle of an activity is what is inside of it between its two moments. -/
theorem replays_activity (hm : m.Genuine V) (ht : t.Genuine V)
    (hperform : perform (n + 1) t m = (x m).map g)
    (hinside : FaithfulFrom V ((Moment.begins ⟨n + 1, t, m⟩).lists m.lists)
      (chronicleInside n (chronicle n) t m))
    (hok : ∀ v m', x m = .ok v m' → Q v ∧ (Moment.completes ⟨n + 1, t, m⟩ (g v) m').Faithful V
      (listsAfter ((Moment.begins ⟨n + 1, t, m⟩).lists m.lists)
        (chronicleInside n (chronicle n) t m)))
    (habort : ∀ r m', x m = .abort r m' → m'.Genuine V ∧
      m'.lists = listsAfter ((Moment.begins ⟨n + 1, t, m⟩).lists m.lists)
        (chronicleInside n (chronicle n) t m)) :
    Replays V m.lists (chronicle (n + 1) t m) Q (x m) := by
  have hbegins := faithful_begins (a := ⟨n + 1, t, m⟩) hm ht
  rw [chronicle_succ]
  cases hx : x m with
  | ok v m' =>
      obtain ⟨hv, hend⟩ := hok v m' hx
      rw [hx] at hperform
      rw [ending_of_ok hperform]
      refine ⟨hend.genuine, ?_, fun u m'' hu => ?_,
        hbegins, faithfulFrom_append.mpr ⟨hinside, hend, trivial⟩⟩
      · rw [listsAfter_cons, listsAfter_append]
        exact hend.completes _ _ _ rfl
      · cases hu
        exact hv
  | abort r m' =>
      obtain ⟨hgenuine, hlists⟩ := habort r m' hx
      rw [hx] at hperform
      rw [ending_of_abort hperform, List.append_nil]
      exact ⟨hgenuine, hlists, nofun, hbegins, hinside⟩

/-- An activity in whose last moment nothing is done with vectors. -/
theorem Replays.self (h : Replays V ((Moment.begins ⟨n + 1, t, m⟩).lists m.lists)
      (chronicleInside n (chronicle n) t m) Q (x m)) (hm : m.Genuine V) (ht : t.Genuine V)
    (hperform : perform (n + 1) t m = (x m).map g)
    (hdeed : ∀ vs m', (Moment.completes ⟨n + 1, t, m⟩ vs m').deed? = none) :
    Replays V m.lists (chronicle (n + 1) t m) Q (x m) := by
  obtain ⟨hgenuine, hlists, hvalue, hmoments⟩ := h
  refine replays_activity hm ht hperform hmoments (fun v m' hv => ?_) fun r m' hr => ?_
  · rw [hv] at hgenuine hlists
    refine ⟨hvalue v m' hv, faithful_completes hgenuine ?_ fun ref vs hmake => ?_⟩
    · rw [Moment.lists, hdeed]
      exact hlists
    · rw [hdeed] at hmake
      cases hmake
  · rw [hr] at hgenuine hlists
    exact ⟨hgenuine, hlists⟩

/-- Without a budget there is nothing but the beginning. -/
theorem replays_spent (hm : m.Genuine V) (ht : t.Genuine V) (hx : x m = .abort .spent m) :
    Replays V m.lists (chronicle 0 t m) Q (x m) := by
  have hbegins := faithful_begins (a := ⟨0, t, m⟩) hm ht
  have hdeed : (Moment.begins ⟨0, t, m⟩).deed? = none := by
    cases t <;> rfl
  rw [hx]
  refine ⟨hm, ?_, nofun, hbegins, trivial⟩
  show m.lists = (Moment.begins ⟨0, t, m⟩).lists m.lists
  rw [Moment.lists, hdeed]
  rfl

end

end Lox
