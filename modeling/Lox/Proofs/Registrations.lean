import Lox.Proofs.Frames
import Lox.Proofs.Simulation.Operations

/-!
# What is registered, and what vectors have

Functions and methods can be added to the table of natives, also in the place of others. The
table answers with what was registered last under a name, and a machine that is started with it
binds every function, and the class of vectors under its own name, whatever is registered under
that.

The class of vectors keeps methods of its own. They are those of the table when the class is
made, and nothing that is registered later reaches it. So a vector has the method that the table
names if and only if nothing else was registered for vectors under that name since.
-/

namespace Lox

open Eval

/-! ## Bindings -/

namespace Bindings

variable {α : Type} {b : Bindings α} {name : String}

@[simp]
theorem names_cons (x : String × α) (b : Bindings α) : names (x :: b) = x.1 :: names b :=
  rfl

/-- A new name is bound behind the others. -/
theorem insert_of_not_mem (h : name ∉ b.names) (v : α) : b.insert name v = b ++ [(name, v)] := by
  induction b with
  | nil => rfl
  | cons x rest ih =>
      obtain ⟨m, u⟩ := x
      simp only [names_cons, List.mem_cons, not_or] at h
      rw [insert, if_neg (Ne.symm h.1), ih h.2, List.cons_append]

/-- A name that is bound keeps its place. -/
theorem names_insert_of_mem (h : name ∈ b.names) (v : α) : (b.insert name v).names = b.names := by
  induction b with
  | nil => cases h
  | cons x rest ih =>
      obtain ⟨m, u⟩ := x
      rw [insert]
      by_cases hm : m = name
      · rw [if_pos hm, names_cons, names_cons, hm]
      · simp only [names_cons, List.mem_cons, Ne.symm hm, false_or] at h
        rw [if_neg hm, names_cons, names_cons, ih h]

theorem nodup_insert (h : b.names.Nodup) (name : String) (v : α) :
    (b.insert name v).names.Nodup := by
  by_cases hname : name ∈ b.names
  · rw [names_insert_of_mem hname]
    exact h
  · rw [insert_of_not_mem hname, names, List.map_append]
    refine List.nodup_append.mpr ⟨h, List.pairwise_singleton _ _, ?_⟩
    rintro m hm _ hx rfl
    rw [List.mem_singleton.mp hx] at hm
    exact hname hm

/-- Different names are bound one behind the other. -/
theorem foldl_insert {l : Bindings α} (h : (b ++ l).names.Nodup) :
    l.foldl (fun (b : Bindings α) (name, v) => b.insert name v) b = b ++ l := by
  induction l generalizing b with
  | nil => rw [List.foldl_nil, List.append_nil]
  | cons x l ih =>
      obtain ⟨m, v⟩ := x
      have hm : m ∉ b.names := by
        intro hmem
        rw [names, List.map_append] at h
        exact (List.nodup_append.mp h).2.2 m hmem m List.mem_cons_self rfl
      rw [List.append_cons, ← insert_of_not_mem hm v] at h ⊢
      exact ih h

end Bindings

/-- The native function that a value is. -/
def Value.native? : Value → Option Native
  | native _ n => some n
  | _ => none

/-! ## Histories of a table -/

/-- What can be added to a table. -/
inductive Registration where
  | function (n : Native)
  | method (className : String) (n : Native)

namespace Registration

/-- The function that is registered under a name. -/
def function? (name : String) : Registration → Option Native
  | function n => if name = n.name then some n else none
  | method _ _ => none

/-- The method that is registered for a class under a name. -/
def method? (className name : String) : Registration → Option Native
  | function _ => none
  | method c n => if className = c ∧ name = n.name then some n else none

end Registration

/-- The function that was registered last under a name. -/
def lastFunction? (added : List Registration) (name : String) : Option Native :=
  added.reverse.findSome? (·.function? name)

/-- The method that was registered last for a class under a name. -/
def lastMethod? (added : List Registration) (className name : String) : Option Native :=
  added.reverse.findSome? (·.method? className name)

namespace NativeTable

def add (t : NativeTable) : Registration → NativeTable
  | .function n => t.register n
  | .method className n => t.registerMethod className n

/-- The table after some registrations. -/
def addAll (t : NativeTable) (added : List Registration) : NativeTable :=
  added.foldl add t

/-! ## The table itself -/

section

variable {key k : String × String} {n : Native} {methods : List ((String × String) × Native)}

theorem lookup_insertMethod :
    (insertMethod key n methods).lookup k = if k = key then some n else methods.lookup k := by
  induction methods with
  | nil =>
      rw [insertMethod, List.lookup_cons]
      by_cases h : k = key
      · simp [h]
      · simp [h, beq_eq_false_iff_ne.mpr h]
  | cons x rest ih =>
      obtain ⟨j, u⟩ := x
      rw [insertMethod]
      by_cases hj : j = key
      · rw [if_pos hj, List.lookup_cons, List.lookup_cons]
        by_cases h : k = key
        · simp [h]
        · simp [h, beq_eq_false_iff_ne.mpr h, hj ▸ beq_eq_false_iff_ne.mpr h]
      · rw [if_neg hj, List.lookup_cons, List.lookup_cons, ih]
        by_cases h : k = j
        · simp [h, hj]
        · simp [beq_eq_false_iff_ne.mpr h]

end

variable (t : NativeTable) (added : List Registration)

theorem function?_add (r : Registration) (name : String) :
    (t.add r).function? name = (r.function? name).or (t.function? name) := by
  cases r with
  | function n =>
      rw [add, register, function?, Bindings.find?_insert, Registration.function?]
      split <;> simp [function?]
  | method className n => rfl

theorem method?_add (r : Registration) (className name : String) :
    (t.add r).method? className name =
      (r.method? className name).or (t.method? className name) := by
  cases r with
  | function n => rfl
  | method c n =>
      rw [add, registerMethod, method?, lookup_insertMethod, Registration.method?]
      simp only [Prod.mk.injEq]
      split <;> simp [method?]

/-- What each registration answers comes before what the table did, so the last answer counts. -/
theorem read_addAll (read : NativeTable → Option Native) (answer? : Registration → Option Native)
    (hadd : ∀ t r, read (add t r) = (answer? r).or (read t)) :
    read (t.addAll added) = (added.reverse.findSome? answer?).or (read t) := by
  induction added generalizing t with
  | nil => rfl
  | cons r added ih =>
      rw [List.reverse_cons, List.findSome?_append, List.findSome?_singleton, Option.or_assoc,
        ← hadd]
      exact ih (t.add r)

theorem function?_addAll (name : String) :
    (t.addAll added).function? name = (lastFunction? added name).or (t.function? name) :=
  read_addAll t added (·.function? name) (·.function? name) fun t r => t.function?_add r name

theorem method?_addAll (className name : String) :
    (t.addAll added).method? className name =
      (lastMethod? added className name).or (t.method? className name) :=
  read_addAll t added (·.method? className name) (·.method? className name)
    fun t r => t.method?_add r className name

/-- The class of vectors is the one that was made with the table. -/
theorem vectorClass_addAll : (t.addAll added).vectorClass = t.vectorClass := by
  induction added generalizing t with
  | nil => rfl
  | cons r added ih =>
      refine (ih (t.add r)).trans ?_
      cases r <;> rfl

/-! ## The class of vectors -/

/-- The methods of a class are those of the table under the name of the class. -/
theorem find?_methodsIn (methods : List ((String × String) × Native)) (className name : String) :
    (methodsIn methods className).find? name = methods.lookup (className, name) := by
  induction methods with
  | nil => rfl
  | cons x rest ih =>
      obtain ⟨⟨owner, m⟩, n⟩ := x
      rw [List.lookup_cons]
      by_cases howner : owner = className
      · subst howner
        have hcons :
            methodsIn (((owner, m), n) :: rest) owner = (m, n) :: methodsIn rest owner := by
          simp [methodsIn]
        rw [hcons, Bindings.find?_cons, ih]
        by_cases hm : name = m
        · simp [hm]
        · simp [hm, beq_eq_false_iff_ne.mpr]
      · have hcons : methodsIn (((owner, m), n) :: rest) className = methodsIn rest className := by
          simp [methodsIn, howner]
        have hne : ((className, name) == (owner, m)) = false := by
          simp [Ne.symm howner]
        simp only [hcons, hne, ih]

/-- A class that is made of some methods has those of them that are for vectors. -/
theorem findMethod?_makeVectorClass (methods : List ((String × String) × Native)) (name : String) :
    (makeVectorClass methods).findMethod? name =
      (methods.lookup (vectorClassName, name)).map .native := by
  rw [← find?_methodsIn, makeVectorClass, Class.findMethod?]
  generalize methodsIn methods vectorClassName = b
  induction b with
  | nil => rfl
  | cons x b ih =>
      obtain ⟨m, n⟩ := x
      rw [List.map_cons, Bindings.find?_cons, Bindings.find?_cons, ih]
      split <;> rfl

/-! ## The globals of a new machine -/

/-- No two functions are registered under one name. -/
theorem nodup_addAll (h : t.functions.names.Nodup) : (t.addAll added).functions.names.Nodup := by
  induction added generalizing t with
  | nil => exact h
  | cons r added ih =>
      refine ih (t.add r) ?_
      cases r with
      | function n => exact Bindings.nodup_insert h n.name n
      | method className n => exact h

/-- The functions with their places in the table, as they are bound. -/
def placedFunctions (t : NativeTable) : Bindings Value :=
  t.functions.zipIdx.map fun ((name, n), i) => (name, .native i n)

theorem names_placedFunctions : t.placedFunctions.names = t.functions.names := by
  have hfst : ∀ (l : Bindings Native) (k : Nat),
      ((l.zipIdx k).map fun ((name, n), i) => (name, Value.native i n)).map Prod.fst =
        l.map Prod.fst := by
    intro l
    induction l with
    | nil => exact fun _ => rfl
    | cons x l ih => exact fun k => congrArg (x.1 :: ·) (ih (k + 1))
  exact hfst t.functions 0

/-- What a name is bound to is the function that the table has. -/
theorem find?_placedFunctions (name : String) :
    (t.placedFunctions.find? name).map Value.native? = (t.function? name).map some := by
  have hfind : ∀ (l : Bindings Native) (k : Nat),
      (Bindings.find? ((l.zipIdx k).map fun ((name, n), i) => (name, Value.native i n))
        name).map Value.native? = (l.find? name).map some := by
    intro l
    induction l with
    | nil => exact fun _ => rfl
    | cons x l ih =>
        intro k
        rw [List.zipIdx_cons, List.map_cons, Bindings.find?_cons, Bindings.find?_cons]
        split
        · rfl
        · exact ih (k + 1)
  exact hfind t.functions 0

/-- The class is bound after the functions, in the place of one that has its name. -/
theorem globalFrame_bindings (h : t.functions.names.Nodup) :
    (Machine.globalFrame t).bindings =
      t.placedFunctions.insert t.vectorClass.name (.cls t.vectorClass) := by
  have hnames : Bindings.names ([] ++ t.placedFunctions) |>.Nodup := by
    rw [List.nil_append, names_placedFunctions]
    exact h
  have hfunctions := Bindings.foldl_insert hnames
  rw [Machine.globalFrame, globals, List.foldl_append]
  exact congrArg (Bindings.insert t.vectorClass.name (.cls t.vectorClass)) hfunctions

end NativeTable

/-- The native method that a property of a value stands for, if it stands for one. -/
def Eval.nativeProperty? (v : Value) (name : Token) (m : Machine) : Option Native :=
  match getProperty v name m with
  | .ok (.nativeMethod _ n _) _ => some n
  | _ => none

/-- Makes a vector: with its elements, or by a call of the class. -/
inductive MakesVector (c : Class) : Eval Value → Prop
  | literal (elements : Array Value) : MakesVector c (allocate c (some elements))
  | call (budget : Nat) : MakesVector c (Eval.call (budget + 1) (.cls c) [])

/-- What a table answers, what a machine that is started with it binds, and what vectors have,
after some registrations on the standard table. -/
structure NativeTable.Serves (t : NativeTable) (added : List Registration) : Prop where
  functions : ∀ name,
    t.function? name = (lastFunction? added name).or (standard.function? name)
  methods : ∀ className name, t.method? className name =
    (lastMethod? added className name).or (standard.method? className name)
  /-- Every function is bound under its name, and nothing else but the class of vectors. -/
  bound : ∀ readings name, name ≠ vectorClassName →
    ((Machine.start t readings).global? name).map Value.native? = (t.function? name).map some
  /-- The class of vectors is bound under its name. -/
  vectorClass : ∀ readings,
    (Machine.start t readings).global? vectorClassName = some (.cls t.vectorClass) ∧
    (Machine.start t readings).vectorClass = t.vectorClass
  /-- A new vector has the methods that were there when its class was made. -/
  vectors : ∀ x, MakesVector t.vectorClass x → ∀ m, ∃ v m', x m = .ok v m' ∧ ∀ name : Token,
    nativeProperty? v name m' = standard.method? vectorClassName name.lexeme ∧
    (nativeProperty? v name m' = t.method? vectorClassName name.lexeme ↔
      ∀ n, lastMethod? added vectorClassName name.lexeme = some n →
        standard.method? vectorClassName name.lexeme = some n)

section

variable {t : NativeTable}

/-- An instance without fields has the methods of its class. -/
theorem nativeProperty?_object {m : Machine} {ref : Nat} {i : Instance} {name : Token}
    {found : Option Native} (hi : m.objects[ref]? = some i) (hfields : i.fields = [])
    (hfound : i.cls.findMethod? name.lexeme = found.map .native) :
    nativeProperty? (.object ref) name m = found := by
  rw [nativeProperty?, Comparison.getProperty_object, hi]
  simp only [hfields, Bindings.find?_nil, hfound]
  cases found <;> rfl

/-- A new vector is behind all other instances. -/
theorem MakesVector.ok {c : Class} {x : Eval Value} (h : MakesVector c x)
    (hc : c.findMethod? initializerName = none) (m : Machine) :
    ∃ i m', x m = .ok (.object m.objects.size) m' ∧ m'.objects[m.objects.size]? = some i ∧
      i.fields = [] ∧ i.cls = c := by
  cases h with
  | literal elements =>
      exact ⟨{ cls := c, elements := some elements }, _, rfl, Array.getElem?_push_size, rfl, rfl⟩
  | call budget =>
      let i : Instance := { cls := c, elements := if c.body.isVector then some #[] else none }
      refine ⟨i, { m with objects := m.objects.push i }, ?_, Array.getElem?_push_size, rfl, rfl⟩
      rw [Eval.call, bind_apply]
      simp only [allocate, hc]
      rfl

end

namespace NativeTable

/-- The table answers with what was registered last, and what is registered is bound. A vector
has the standard method of a name, whatever is registered for vectors later; so it has the one
that the table names if and only if the last one registered, if there is any, is that again. -/
theorem standard_serves (added : List Registration) : (standard.addAll added).Serves added := by
  have hclass : (standard.addAll added).vectorClass = standard.vectorClass :=
    vectorClass_addAll standard added
  have hname : (standard.addAll added).vectorClass.name = vectorClassName := by
    rw [hclass]
    rfl
  have hdistinct : (standard.addAll added).functions.names.Nodup :=
    nodup_addAll standard added (by decide)
  have hglobal : ∀ readings name, (Machine.start (standard.addAll added) readings).global? name =
      if name = vectorClassName then some (.cls (standard.addAll added).vectorClass)
      else (standard.addAll added).placedFunctions.find? name := by
    intro readings name
    rw [Machine.global?, Frames.get?_globalEnv]
    show (Machine.globalFrame _).bindings.find? name = _
    rw [globalFrame_bindings _ hdistinct, Bindings.find?_insert, hname]
  refine ⟨function?_addAll standard added, method?_addAll standard added, ?_, ?_, ?_⟩
  · intro readings name hne
    rw [hglobal, if_neg hne]
    exact find?_placedFunctions _ name
  · intro readings
    exact ⟨(hglobal readings vectorClassName).trans (if_pos rfl), rfl⟩
  · intro x hx m
    rw [hclass] at hx
    obtain ⟨i, m', hok, hi, hfields, hcls⟩ := hx.ok (by decide) m
    refine ⟨_, m', hok, fun name => ?_⟩
    have hfound : i.cls.findMethod? name.lexeme =
        (standard.method? vectorClassName name.lexeme).map .native := by
      rw [hcls]
      exact findMethod?_makeVectorClass standard.methods name.lexeme
    rw [nativeProperty?_object hi hfields hfound, method?_addAll]
    refine ⟨rfl, ?_⟩
    cases lastMethod? added vectorClassName name.lexeme with
    | none => simp
    | some n => simp

/-- Another method is registered for vectors under the name of a standard one. The table names
it, and vectors keep the one that they have. -/
theorem standard_serves_replaced :
    let other : Native := { name := "length", arity := 0, body := .argument none }
    let length : Native :=
      { name := "length", arity := 0, body := .length, doc := "Number of elements." }
    let t := standard.addAll [.method vectorClassName other]
    let name : Token := { kind := .identifier, lexeme := "length", line := 1, column := 1 }
    t.method? vectorClassName "length" = some other ∧
      ∀ m, ∃ v m', allocate t.vectorClass (some #[]) m = .ok v m' ∧
        nativeProperty? v name m' = some length ∧
        nativeProperty? v name m' ≠ t.method? vectorClassName "length" := by
  intro other length t name
  have hserves := standard_serves [.method vectorClassName other]
  have htable : t.method? vectorClassName "length" = some other :=
    (hserves.methods vectorClassName "length").trans rfl
  refine ⟨htable, fun m => ?_⟩
  obtain ⟨v, m', hok, hfound⟩ := hserves.vectors _ (.literal #[]) m
  have hlength : nativeProperty? v name m' = some length := (hfound name).1.trans rfl
  refine ⟨v, m', hok, hlength, ?_⟩
  rw [hlength, htable]
  decide

end NativeTable

end Lox
