import Lox.Eval.Run
import Lox.Proofs.Frames

/-!
# Links between frames and between classes

A frame is made inside another one, and a class is declared below another one. Taken as
links from the new to the old they are two structures of their own, beside what frames and
fields hold, which may well go round in circles. Since every link leads to something that
was there before, following links comes to an end.

An environment is the list of the frames that one comes by from its first one, and a class
is a value with its ancestors inside. Whoever follows the links instead, with no list and
no value but where a link leads, comes by the same frames and the same classes.
-/

namespace Lox

/-- What is kept of a class under its number: its own part, and the number of its
superclass. -/
structure ClassEntry where
  body : ClassBody
  superclass : Option Nat

/-- The links of all frames that were made and of all classes that were declared. Every
link leads to something older. -/
structure Links where
  /-- How many frames were made. -/
  frames : Nat
  /-- The frame around a frame. -/
  enclosing : FrameId → Option FrameId
  /-- How many numbers were given to functions and classes. -/
  ids : Nat
  /-- The classes by their numbers. -/
  classes : Nat → Option ClassEntry
  /-- There is the frame of the globals. -/
  positive : 0 < frames
  /-- Nothing is around the globals. -/
  outermost : enclosing 0 = none
  enclosing_lt : ∀ {k j}, enclosing k = some j → j < k ∧ k < frames
  classes_lt : ∀ {id entry}, classes id = some entry → id < ids
  superclass_lt : ∀ {id entry above}, classes id = some entry → entry.superclass = some above →
    above < id

namespace Links

/-! ## Following links -/

section

variable {β : Type} (L : Links)

/-- The first answer on the way out of a frame. -/
def search (ask : FrameId → Option β) (k : FrameId) : Option β :=
  match ask k with
  | some answer => some answer
  | none =>
    match _ : L.enclosing k with
    | none => none
    | some j => search ask j
termination_by k
decreasing_by exact (L.enclosing_lt (by assumption)).1

/-- What a name means in a frame and those around it. -/
def get? (F : Frames β) (k : FrameId) (name : String) : Option β :=
  L.search (fun j => F.binding? j name) k

/-- Gives the variable that a name means in a frame and those around it a new value. -/
def assign? (F : Frames β) (k : FrameId) (name : String) (v : β) : Option (Frames β) :=
  L.search (fun j => if (F.binding? j name).isSome then some (F.bind j name v) else none) k

/-- The frame some links further out. -/
def ancestor? (k : FrameId) : Nat → Option FrameId
  | 0 => some k
  | distance + 1 => (L.enclosing k).bind fun j => ancestor? j distance

/-- The method with a name in the nearest class that has one, from a class upwards. -/
def findMethod? (id : Nat) (name : String) : Option Method :=
  match _ : L.classes id with
  | none => none
  | some entry =>
    match entry.body.methods.find? name with
    | some m => some m
    | none =>
      match _ : entry.superclass with
      | none => none
      | some above => findMethod? above name
termination_by id
decreasing_by exact L.superclass_lt (by assumption) (by assumption)

/-! ## Environments and classes along the links -/

/-- The environment leads from its first frame along the links to the globals. -/
inductive Chain : Env → Prop
  | globals : Chain globalEnv
  | inside {k j : FrameId} {E : Env} : L.enclosing k = some j → Chain (j :: E) → Chain (k :: j :: E)

end

/-- Nothing that is linked is linked otherwise later. -/
structure Later (L L' : Links) : Prop where
  frames : L.frames ≤ L'.frames
  enclosing : ∀ k, k < L.frames → L'.enclosing k = L.enclosing k
  ids : L.ids ≤ L'.ids
  classes : ∀ id, id < L.ids → L'.classes id = L.classes id

end Links

section

variable (L : Links)

def Method.Linked : Method → Prop
  | .closure c => L.Chain c.env
  | .native _ => True

def ClassBody.Linked (b : ClassBody) : Prop :=
  ∀ name m, b.methods.find? name = some m → m.Linked L

/-- The class and its ancestors are kept under their numbers, each linked to the next, and
the environments of their methods lead to the globals. -/
def Class.Linked : Class → Prop
  | .root body => L.classes body.id = some ⟨body, none⟩ ∧ body.Linked L
  | .derived body superclass =>
    L.classes body.id = some ⟨body, some superclass.id⟩ ∧ body.Linked L ∧ superclass.Linked

def Value.Linked : Value → Prop
  | .function _ c => L.Chain c.env
  | .cls c => c.Linked L
  | .nativeMethod _ _ receiver => receiver.Linked
  | _ => True

structure Instance.Linked (i : Instance) : Prop where
  cls : i.cls.Linked L
  fields : ∀ name v, i.fields.find? name = some v → v.Linked L
  elements : ∀ vs, i.elements = some vs → ∀ v ∈ vs, v.Linked L

/-- The links are those of all that the machine has made, and every environment and every
class that it holds is along them. -/
structure Machine.Linked (m : Machine) : Prop where
  frames : m.frames.size = L.frames
  ids : m.nextId = L.ids
  env : L.Chain m.env
  values : ∀ k name v, m.frames.binding? k name = some v → v.Linked L
  instances : ∀ (ref : Nat) (i : Instance), m.objects[ref]? = some i → i.Linked L
  lastValue : m.lastValue.Linked L
  vectorClass : m.vectorClass.Linked L

end

/-! ## Searches -/

namespace Links

variable {β : Type} {L L' L'' : Links} {k : FrameId} {E : Env}

theorem Chain.exists_cons (h : L.Chain E) : ∃ k rest, E = k :: rest ∧ k < L.frames := by
  cases h with
  | globals => exact ⟨0, [], rfl, L.positive⟩
  | inside hk _ => exact ⟨_, _, rfl, (L.enclosing_lt hk).2⟩

/-- The links say which environment a frame is the first of. -/
theorem Chain.unique {E' : Env} (h : L.Chain (k :: E)) (h' : L.Chain (k :: E')) : E = E' := by
  induction E generalizing k E' with
  | nil =>
      cases h
      cases h' with
      | globals => rfl
      | inside hk _ =>
          rw [L.outermost] at hk
          cases hk
  | cons j E ih =>
      cases h with
      | inside hk hE =>
          cases h' with
          | globals =>
              rw [L.outermost] at hk
              cases hk
          | inside hk' hE' =>
              rw [hk] at hk'
              cases hk'
              rw [ih hE hE']

/-- Each frame is older than those inside of it, so there is an end to the way out. -/
theorem Chain.length_le (h : L.Chain (k :: E)) : E.length ≤ k := by
  induction E generalizing k with
  | nil => exact Nat.zero_le k
  | cons j E ih =>
      cases h with
      | inside hk hE => exact Nat.lt_of_le_of_lt (ih hE) (L.enclosing_lt hk).1

theorem search_outermost (hk : L.enclosing k = none) (ask : FrameId → Option β) :
    L.search ask k = ask k := by
  rw [search]
  split
  · next hask => exact hask.symm
  · next hask =>
      rw [hask]
      split
      · rfl
      · next hj =>
          rw [hk] at hj
          cases hj

theorem search_inside {j : FrameId} (hk : L.enclosing k = some j) (ask : FrameId → Option β) :
    L.search ask k = (ask k).or (L.search ask j) := by
  rw [search]
  split
  · next hask => rw [hask, Option.some_or]
  · next hask =>
      rw [hask, Option.none_or]
      split
      · next hnone =>
          rw [hk] at hnone
          cases hnone
      · next hj =>
          rw [hk] at hj
          cases hj
          rfl

/-- Asking along the links is asking along the environment. -/
theorem Chain.search (h : L.Chain (k :: E)) (ask : FrameId → Option β) :
    L.search ask k = (k :: E).findSome? ask := by
  induction E generalizing k with
  | nil =>
      cases h
      rw [search_outermost L.outermost, List.findSome?_cons, List.findSome?_nil]
      cases ask 0 <;> rfl
  | cons j E ih =>
      cases h with
      | inside hk hE =>
          rw [search_inside hk, List.findSome?_cons, ih hE]
          cases ask k <;> rfl

theorem Chain.get? (h : L.Chain (k :: E)) (F : Frames β) (name : String) :
    L.get? F k name = F.get? (k :: E) name :=
  h.search _

theorem Chain.assign? (h : L.Chain (k :: E)) (F : Frames β) (name : String) (v : β) :
    L.assign? F k name v = F.assign? (k :: E) name v := by
  rw [Links.assign?, h.search, Frames.assign?, Frames.owner?]
  induction k :: E with
  | nil => rfl
  | cons j E ih =>
      rw [List.findSome?_cons, List.find?_cons]
      cases (F.binding? j name).isSome with
      | false => exact ih
      | true => rfl

theorem Chain.ancestor? (h : L.Chain (k :: E)) (distance : Nat) :
    L.ancestor? k distance = (k :: E)[distance]? := by
  induction distance generalizing k E with
  | zero => rfl
  | succ distance ih =>
      rw [Links.ancestor?, List.getElem?_cons_succ]
      cases h with
      | globals =>
          rw [L.outermost]
          rfl
      | inside hk hE => rw [hk, Option.bind_some, ih hE]

theorem findMethod?_entry {id : Nat} {entry : ClassEntry} (h : L.classes id = some entry)
    (name : String) : L.findMethod? id name = (entry.body.methods.find? name).or
      (entry.superclass.bind fun above => L.findMethod? above name) := by
  rw [findMethod?]
  split
  · next hnone =>
      rw [h] at hnone
      cases hnone
  · next hentry =>
      rw [h] at hentry
      cases hentry
      cases entry.body.methods.find? name with
      | some m => rfl
      | none => cases hs : entry.superclass <;> rfl

/-- Looking a method up along the links is looking it up in the class. -/
theorem findMethod?_eq {c : Class} (h : c.Linked L) (name : String) :
    L.findMethod? c.id name = c.findMethod? name := by
  induction c with
  | root body =>
      rw [Class.id, Class.body, findMethod?_entry h.1, Class.findMethod?]
      cases body.methods.find? name <;> rfl
  | derived body superclass ih =>
      rw [Class.id, Class.body, findMethod?_entry h.1, Class.findMethod?, Option.bind_some,
        ih h.2.2]
      cases body.methods.find? name <;> rfl

/-! ## Later links -/

theorem Later.refl (L : Links) : L.Later L :=
  ⟨Nat.le_refl _, fun _ _ => rfl, Nat.le_refl _, fun _ _ => rfl⟩

theorem Later.trans (h : L.Later L') (h' : L'.Later L'') : L.Later L'' where
  frames := Nat.le_trans h.frames h'.frames
  enclosing k hk :=
    (h'.enclosing k (Nat.lt_of_lt_of_le hk h.frames)).trans (h.enclosing k hk)
  ids := Nat.le_trans h.ids h'.ids
  classes id hid := (h'.classes id (Nat.lt_of_lt_of_le hid h.ids)).trans (h.classes id hid)

theorem Chain.later (h : L.Chain E) (hL : L.Later L') : L'.Chain E := by
  induction h with
  | globals => exact .globals
  | inside hk _ ih => exact .inside ((hL.enclosing _ (L.enclosing_lt hk).2).trans hk) ih

theorem Later.entry (hL : L.Later L') {id : Nat} {entry : ClassEntry}
    (h : L.classes id = some entry) : L'.classes id = some entry :=
  (hL.classes id (L.classes_lt h)).trans h

end Links

section

variable {L L' : Links}

theorem Method.Linked.later {m : Method} (h : m.Linked L) (hL : L.Later L') : m.Linked L' := by
  cases m with
  | closure c => exact Links.Chain.later h hL
  | native n => trivial

theorem ClassBody.Linked.later {b : ClassBody} (h : b.Linked L) (hL : L.Later L') :
    b.Linked L' :=
  fun name m hm => (h name m hm).later hL

theorem Class.Linked.later {c : Class} (h : c.Linked L) (hL : L.Later L') : c.Linked L' := by
  induction c with
  | root body => exact ⟨hL.entry h.1, h.2.later hL⟩
  | derived body superclass ih => exact ⟨hL.entry h.1, h.2.1.later hL, ih h.2.2⟩

theorem Value.Linked.later {v : Value} (h : v.Linked L) (hL : L.Later L') : v.Linked L' := by
  induction v with
  | function id c => exact Links.Chain.later h hL
  | cls c => exact Class.Linked.later (c := c) h hL
  | nativeMethod id n receiver ih => exact ih h
  | _ => trivial

theorem Instance.Linked.later {i : Instance} (h : i.Linked L) (hL : L.Later L') : i.Linked L' :=
  ⟨h.cls.later hL, fun name v hv => (h.fields name v hv).later hL,
    fun vs hvs v hv => (h.elements vs hvs v hv).later hL⟩

/-- The number of a class is one that was given. -/
theorem Class.Linked.id_lt {c : Class} (h : c.Linked L) : c.id < L.ids := by
  cases c with
  | root body => exact L.classes_lt h.1
  | derived body superclass => exact L.classes_lt h.1

/-- The methods of a class are linked, wherever they are found. -/
theorem Class.Linked.found {c : Class} (h : c.Linked L) {name : String} {m : Method}
    (hm : c.findMethod? name = some m) : m.Linked L := by
  induction c with
  | root body => exact h.2 name m hm
  | derived body superclass ih =>
      rw [Class.findMethod?] at hm
      split at hm
      · next found hfound =>
          cases hm
          exact h.2.1 name _ hfound
      · exact ih h.2.2 hm

end

end Lox
