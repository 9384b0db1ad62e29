import Lox.Proofs.Scoping.Chains

/-!
# Methods and functions around a place

The resolver goes down a program with the kinds of the function and the class it is in.
The scopes around a place say the same: the innermost receiver belongs to the innermost
method, just outside of it lies the superclass if the class has one, and a function is a
method if its scope is right inside that of a receiver. So `this` is the receiver of the
innermost method, and `super` is one hop further out.
-/

namespace Lox

namespace Opening

def isReceiver : Opening → Bool
  | receiver _ => true
  | _ => false

def isSuperclass : Opening → Bool
  | superclass _ => true
  | _ => false

/-- The name of the language that the scope is opened for, if it is for one. -/
def reserved? : Opening → Option String
  | receiver _ => some thisName
  | superclass _ => some superName
  | _ => none

end Opening

namespace Place

/-- The innermost scope is that of a receiver. -/
def atReceiver (p : Place) : Bool :=
  p.head?.any (·.opening.isReceiver)

/-- The innermost scope is that of a superclass. -/
def atSuperclass (p : Place) : Bool :=
  p.head?.any (·.opening.isSuperclass)

/-- The kinds of function and class around a place. -/
def surroundings : Place → Surroundings
  | [] => {}
  | l :: p =>
    match l.opening with
    | .receiver f => ⟨.ofMethod f.name.lexeme, if atSuperclass p then .derived else .plain⟩
    | .call _ =>
      if atReceiver p then surroundings p else { surroundings p with function := .function }
    | _ => surroundings p

/-- The kind of a function that is declared at a place. -/
def functionKind (p : Place) (f : FunDecl Slot) : FunctionKind :=
  (p.enter (.call f)).surroundings.function

/-- The innermost method around the place is `f`, and `d` scopes lie inside that of its
receiver. -/
inductive InMethod : Place → Nat → FunDecl Slot → Prop
  | here {l : Level} {p : Place} {f : FunDecl Slot} :
      l.opening = .receiver f → InMethod (l :: p) 0 f
  | further {l : Level} {p : Place} {d : Nat} {f : FunDecl Slot} :
      l.opening.isReceiver = false → InMethod p d f → InMethod (l :: p) (d + 1) f

/-- The names of the language are declared by the scopes that are opened for them, and by
no others. -/
def Reserved (p : Place) : Prop :=
  ∀ l ∈ p, ∀ n, n = thisName ∨ n = superName →
    (l.scope.isDeclared n = true ↔ l.opening.reserved? = some n)

/-- Statements may stand at the place. -/
def OfBody (p : Place) : Prop :=
  p.atReceiver = false ∧ p.atSuperclass = false

variable {p : Place} {d : Nat} {f : FunDecl Slot}

@[simp]
theorem atReceiver_define (p : Place) (n : String) : (p.define n).atReceiver = p.atReceiver := by
  cases p <;> rfl

@[simp]
theorem atReceiver_declare (p : Place) (n : String) :
    (p.declare n).atReceiver = p.atReceiver := by
  cases p <;> rfl

@[simp]
theorem atSuperclass_define (p : Place) (n : String) :
    (p.define n).atSuperclass = p.atSuperclass := by
  cases p <;> rfl

@[simp]
theorem atSuperclass_declare (p : Place) (n : String) :
    (p.declare n).atSuperclass = p.atSuperclass := by
  cases p <;> rfl

@[simp]
theorem surroundings_define (p : Place) (n : String) :
    (p.define n).surroundings = p.surroundings := by
  cases p <;> rfl

@[simp]
theorem surroundings_declare (p : Place) (n : String) :
    (p.declare n).surroundings = p.surroundings := by
  cases p <;> rfl

/-- Outside of all scopes nothing is declared. -/
theorem after_nil (s : Stmt Slot) : after [] s = [] := by
  rw [after]
  split <;> rfl

theorem surroundings_after (p : Place) (s : Stmt Slot) :
    (p.after s).surroundings = p.surroundings := by
  rw [after]
  split
  · rfl
  · exact surroundings_define p _

theorem OfBody.define (h : p.OfBody) (n : String) : (p.define n).OfBody := by
  simpa [OfBody] using h

theorem OfBody.declare (h : p.OfBody) (n : String) : (p.declare n).OfBody := by
  simpa [OfBody] using h

theorem OfBody.after (h : p.OfBody) (s : Stmt Slot) : (p.after s).OfBody := by
  rw [Place.after]
  split
  · exact h
  · exact h.define _

/-- A function that stands where statements do is no method. -/
theorem OfBody.surroundings_call (h : p.OfBody) (f : FunDecl Slot) :
    (p.enter (.call f)).surroundings = { p.surroundings with function := .function } := by
  rw [enter, surroundings]
  exact if_neg (by simp [h.1])

theorem OfBody.functionKind (h : p.OfBody) (f : FunDecl Slot) :
    p.functionKind f = .function := by
  rw [Place.functionKind, h.surroundings_call]

theorem surroundings_call_cls (p : Place) (f : FunDecl Slot) :
    (p.enter (.call f)).surroundings.cls = p.surroundings.cls := by
  rw [enter, surroundings]
  dsimp only
  split <;> rfl

theorem surroundings_cls_cons {l : Level} (h : l.opening.isReceiver = false) (p : Place) :
    (surroundings (l :: p)).cls = p.surroundings.cls := by
  rw [surroundings]
  split
  · next hl =>
      rw [hl] at h
      cases h
  · split <;> rfl
  · rfl

/-! ## Reserved names -/

theorem reserved_nil : Reserved [] :=
  fun _ h => by cases h

theorem Reserved.enter (h : p.Reserved) {o : Opening}
    (ho : ∀ n, n = thisName ∨ n = superName → (n ∈ o.initial ↔ o.reserved? = some n)) :
    (p.enter o).Reserved := by
  refine List.forall_mem_cons.mpr ⟨fun n hn => ?_, h⟩
  rw [o.isDeclared_scope]
  exact ho n hn

/-- Marks of other names do not matter. -/
theorem Reserved.head {l l' : Level} {rest : Place} (h : Reserved (l :: rest))
    (hopening : l'.opening = l.opening)
    (hscope : ∀ n, n = thisName ∨ n = superName → l'.scope.isDeclared n = l.scope.isDeclared n) :
    Reserved (l' :: rest) := by
  obtain ⟨hl, hrest⟩ := List.forall_mem_cons.mp h
  refine List.forall_mem_cons.mpr ⟨fun n hn => ?_, hrest⟩
  rw [hscope n hn, hopening]
  exact hl n hn

variable {t : Token}

theorem Reserved.define (h : p.Reserved) (ht : t.IsName) : (p.define t.lexeme).Reserved := by
  cases p with
  | nil => exact h
  | cons l rest =>
      refine h.head rfl fun n hn => Scope.isDeclared_define_of_ne ?_
      rcases hn with rfl | rfl
      · exact ht.ne_this.symm
      · exact ht.ne_super.symm

theorem Reserved.declare (h : p.Reserved) (ht : t.IsName) : (p.declare t.lexeme).Reserved := by
  cases p with
  | nil => exact h
  | cons l rest =>
      refine h.head rfl fun n hn => Scope.isDeclared_declare_of_ne ?_
      rcases hn with rfl | rfl
      · exact ht.ne_this.symm
      · exact ht.ne_super.symm

/-! ## The innermost method -/

/-- The frame of the receiver of the innermost method. -/
theorem InMethod.level (h : p.InMethod d f) : ∃ l, p[d]? = some l ∧ l.opening = .receiver f := by
  induction h with
  | here hl => exact ⟨_, rfl, hl⟩
  | further _ _ ih => exact ih

theorem InMethod.distance_this (h : p.InMethod d f) (hp : p.Reserved) :
    p.scopes.distanceTo? thisName = some d := by
  induction h with
  | @here l p f hl =>
      have hdeclared : l.scope.isDeclared thisName = true :=
        (hp l List.mem_cons_self thisName (.inl rfl)).mpr (by rw [hl]; rfl)
      rw [scopes, List.map_cons, Scopes.distanceTo?_cons, if_pos hdeclared]
  | @further l p d f hl _ ih =>
      have hdeclared : ¬ l.scope.isDeclared thisName = true := by
        rw [hp l List.mem_cons_self thisName (.inl rfl)]
        revert hl
        cases l.opening <;> simp [Opening.isReceiver, Opening.reserved?, thisName, superName]
      rw [scopes, List.map_cons, Scopes.distanceTo?_cons, if_neg hdeclared,
        show List.map (·.scope) p = scopes p from rfl,
        ih fun l hl => hp l (List.mem_cons_of_mem _ hl)]
      rfl

/-- A name is found in the first scope that declares it. -/
theorem distance_le {n : String} {i j : Nat} {l : Level} (h : p.scopes.distanceTo? n = some i)
    (hl : p[j]? = some l) (hdeclared : l.scope.isDeclared n = true) : i ≤ j := by
  obtain ⟨_, _, hbefore⟩ := List.findIdx?_eq_some_iff_getElem.mp h
  refine Nat.le_of_not_lt fun hlt => ?_
  have hj : p.scopes[j]? = some l.scope := by rw [scopes, List.getElem?_map, hl]; rfl
  obtain ⟨_, hget⟩ := List.getElem?_eq_some_iff.mp hj
  exact hbefore j hlt (hget ▸ hdeclared)

/-- In a class there is a method, and outside of its receiver the superclass if the class
has one. -/
theorem exists_inMethod (h : p.surroundings.cls ≠ .none) :
    ∃ d f, p.InMethod d f ∧
      (p.surroundings.cls = .derived → ∃ l s, p[d + 1]? = some l ∧ l.opening = .superclass s) := by
  induction p with
  | nil => exact absurd rfl h
  | cons l p ih =>
      by_cases hl : l.opening.isReceiver = true
      · obtain ⟨f, hf⟩ : ∃ f, l.opening = .receiver f := by
          revert hl
          cases l.opening <;> simp [Opening.isReceiver]
        refine ⟨0, f, .here hf, fun hc => ?_⟩
        rw [surroundings, hf] at hc
        cases p with
        | nil => cases hc
        | cons l' p =>
            revert hc
            cases hl' : l'.opening with
            | superclass s => exact fun _ => ⟨l', s, rfl, hl'⟩
            | _ => simp [atSuperclass, hl', Opening.isSuperclass]
      · rw [Bool.not_eq_true] at hl
        rw [surroundings_cls_cons hl p] at h ⊢
        obtain ⟨d, f, hin, hsuper⟩ := ih h
        exact ⟨d + 1, f, .further hl hin, hsuper⟩

end Place

/-! ## Fragments -/

namespace Fragment

open Place

/-- The fragment is resolved without faults, with the kinds of function and class that
its place is in. -/
def Surrounded (p : Place) : Fragment → Prop
  | .expr e => p.OfBody ∧ ∃ (s : Scopes) (y : Expr Unit), y.WellFormed ∧
      y.scopeFaults p.surroundings.cls s = [] ∧ e = y.resolve p.surroundings.cls s
  | .stmt t => p.OfBody ∧ ∃ (s : Scopes) (y : Stmt Unit), y.WellFormed ∧
      y.scopeFaults p.surroundings s = [] ∧ t = y.resolve p.surroundings.cls s
  | .body ts => p.OfBody ∧ ∃ (s : Scopes) (ys : List (Stmt Unit)), Stmt.WellFormedAll ys ∧
      Stmt.scopeFaultsAll p.surroundings s ys = [] ∧ ts = Stmt.resolveAll p.surroundings.cls s ys
  | .function f => (p.OfBody ∨ ∃ s q, p = ⟨.receiver f, s⟩ :: q) ∧
      ∃ (s : Scopes) (y : FunDecl Unit), y.WellFormed ∧
        y.scopeFaults (p.enter (.call f)).surroundings s = [] ∧
        f = y.resolve p.surroundings.cls s

variable {p q : Place} {x : Fragment} {c : ClassKind}

theorem surrounded_part {e : Expr Slot} (h : Surrounded p (.expr e)) {x : Expr Slot}
    (hx : x ∈ e.parts) : Surrounded p (.expr x) := by
  obtain ⟨hp, s, y, hw, hf, rfl⟩ := h
  obtain ⟨z, hzw, hzf, rfl⟩ := y.parts_resolve hw hf x hx
  exact ⟨hp, s, z, hzw, hzf, rfl⟩

theorem surrounded_next {t : Stmt Slot} {ts : List (Stmt Slot)}
    (h : Surrounded p (.body (t :: ts))) :
    Surrounded p (.stmt t) ∧ Surrounded (p.after t) (.body ts) := by
  obtain ⟨hp, s, ys, hw, hf, heq⟩ := h
  cases ys with
  | nil => cases heq
  | cons y ys =>
      cases heq
      obtain ⟨hy, hys⟩ := List.append_eq_nil_iff.mp hf
      refine ⟨⟨hp, s, y, hw.1, hy, rfl⟩, hp.after _, y.after s, ys, hw.2, ?_, ?_⟩
      · rw [surroundings_after]
        exact hys
      · rw [surroundings_after]

theorem surrounded_call {f : FunDecl Slot} (h : Surrounded p (.function f)) :
    Surrounded (p.enter (.call f)) (.body f.body) := by
  obtain ⟨_, s, y, hw, hf, rfl⟩ := h
  cases y with
  | mk name params body =>
      obtain ⟨_, hbody⟩ := List.append_eq_nil_iff.mp hf
      refine ⟨⟨rfl, rfl⟩, s.function name params, body, hw.2.2, hbody, ?_⟩
      rw [surroundings_call_cls]
      rfl

/-- The place of a method says what the resolver knows in it. -/
theorem surroundings_method (hp : p.OfBody) (declaration : Stmt Slot)
    (superclass : Option (Reference Slot)) (f : FunDecl Slot) :
    let q := (p.inherit declaration superclass).enter (.receiver f)
    q.surroundings.cls = .ofSuperclass superclass ∧
      (q.enter (.call f)).surroundings = ⟨.ofMethod f.name.lexeme, .ofSuperclass superclass⟩ := by
  have hq : ((p.inherit declaration superclass).enter (.receiver f)).surroundings =
      ⟨.ofMethod f.name.lexeme, .ofSuperclass superclass⟩ := by
    cases superclass with
    | none => exact congrArg (Surroundings.mk _) (if_neg (by simp [inherit, hp.2]))
    | some r => rfl
  refine ⟨by rw [hq], ?_⟩
  rw [← hq, enter, surroundings]
  exact if_pos rfl

theorem surrounded_class {around : Surroundings} {s : Scopes} {name : Token}
    {superclass : Option (Reference Unit)} {methods : List (FunDecl Unit)} (hp : p.OfBody)
    (hw : (Stmt.classDecl name superclass methods).WellFormed)
    (hf : (Stmt.classDecl name superclass methods).scopeFaults around s = [])
    (hx : (q, x) ∈ inside p (.stmt ((Stmt.classDecl name superclass methods).resolve c s))) :
    Surrounded q x := by
  obtain ⟨hfhead, hfmethods⟩ := List.append_eq_nil_iff.mp hf
  obtain ⟨_, hfsuper⟩ := List.append_eq_nil_iff.mp hfhead
  rcases List.mem_append.mp hx with hx | hx
  · obtain ⟨r, hr, heq⟩ := List.mem_map.mp hx
    cases heq
    cases superclass with
    | none => cases hr
    | some parent =>
        cases List.mem_singleton.mp hr
        obtain ⟨_, hpending⟩ := List.append_eq_nil_iff.mp hfsuper
        exact ⟨hp, s.define name.lexeme, .var parent.name (), hw.2.1 parent rfl, hpending, rfl⟩
  · obtain ⟨f, hmem, heq⟩ := List.mem_map.mp hx
    cases heq
    rw [FunDecl.resolveAll_eq, List.mem_map] at hmem
    obtain ⟨y, hy, rfl⟩ := hmem
    obtain ⟨hcls, hcall⟩ := surroundings_method (hp.define name.lexeme)
      ((Stmt.classDecl name superclass methods).resolve c s)
      (superclass.map (Reference.resolve (s.define name.lexeme)))
      (y.resolve (.ofSuperclass superclass) ((s.define name.lexeme).methods superclass))
    rw [ofSuperclass_map] at hcls hcall
    rw [FunDecl.name_resolve] at hcall
    refine ⟨.inr ⟨_, _, rfl⟩, (s.define name.lexeme).methods superclass, y,
      FunDecl.wellFormedAll_mem hw.2.2 y hy, ?_, ?_⟩
    · exact hcall ▸ FunDecl.scopeFaultsAll_mem hfmethods y hy
    · exact congrArg (fun c => FunDecl.resolve c _ y) hcls.symm

theorem surrounded_stmt {t : Stmt Slot} (h : Surrounded p (.stmt t))
    (hx : (q, x) ∈ inside p (.stmt t)) : Surrounded q x := by
  obtain ⟨hp, s, y, hw, hf, rfl⟩ := h
  cases y with
  | expression e =>
      cases List.mem_singleton.mp hx
      exact ⟨hp, s, e, hw, hf, rfl⟩
  | print e =>
      cases List.mem_singleton.mp hx
      exact ⟨hp, s, e, hw, hf, rfl⟩
  | varDecl name initializer =>
      cases initializer with
      | none => cases hx
      | some e =>
          cases List.mem_singleton.mp hx
          obtain ⟨_, hf⟩ := List.append_eq_nil_iff.mp hf
          refine ⟨hp.declare _, s.declare name.lexeme, e, hw.2, ?_, ?_⟩
          · rw [surroundings_declare]
            exact hf
          · rw [surroundings_declare]
  | block body =>
      cases List.mem_singleton.mp hx
      exact ⟨⟨rfl, rfl⟩, s.block, body, hw, hf, rfl⟩
  | ifThen condition thenBranch =>
      obtain ⟨hc, ha⟩ := List.append_eq_nil_iff.mp hf
      rcases List.mem_cons.mp hx with heq | hx
      · cases heq
        exact ⟨hp, s, condition, hw.1, hc, rfl⟩
      · cases List.mem_singleton.mp hx
        exact ⟨hp, s, thenBranch, hw.2.1, ha, rfl⟩
  | ifElse condition thenBranch elseBranch =>
      obtain ⟨hca, hb⟩ := List.append_eq_nil_iff.mp hf
      obtain ⟨hc, ha⟩ := List.append_eq_nil_iff.mp hca
      obtain ⟨hwc, ⟨hwa, _⟩, hwb, _⟩ := hw
      rcases List.mem_cons.mp hx with heq | hx
      · cases heq
        exact ⟨hp, s, condition, hwc, hc, rfl⟩
      rcases List.mem_cons.mp hx with heq | hx
      · cases heq
        exact ⟨hp, s, thenBranch, hwa, ha, rfl⟩
      · cases List.mem_singleton.mp hx
        exact ⟨hp, s, elseBranch, hwb, hb, rfl⟩
  | whileLoop condition body =>
      obtain ⟨hc, ha⟩ := List.append_eq_nil_iff.mp hf
      rcases List.mem_cons.mp hx with heq | hx
      · cases heq
        exact ⟨hp, s, condition, hw.1, hc, rfl⟩
      · cases List.mem_singleton.mp hx
        exact ⟨hp, s, body, hw.2.1, ha, rfl⟩
  | function f =>
      cases List.mem_singleton.mp hx
      obtain ⟨_, hf⟩ := List.append_eq_nil_iff.mp hf
      have hbody := hp.define (f.resolve p.surroundings.cls (s.define f.name.lexeme)).name.lexeme
      refine ⟨.inl hbody, s.define f.name.lexeme, f, hw, ?_, ?_⟩
      · rw [hbody.surroundings_call, surroundings_define]
        exact hf
      · rw [surroundings_define]
  | ret keyword value =>
      cases value with
      | none => cases hx
      | some e =>
          cases List.mem_singleton.mp hx
          obtain ⟨_, hf⟩ := List.append_eq_nil_iff.mp hf
          exact ⟨hp, s, e, hw, hf, rfl⟩
  | classDecl name superclass methods => exact surrounded_class hp hw hf hx

theorem Surrounded.inside {y : Fragment} (h : y.Surrounded p) (hx : (q, x) ∈ y.inside p) :
    x.Surrounded q := by
  cases y with
  | expr e =>
      obtain ⟨part, hpart, heq⟩ := List.mem_map.mp hx
      cases heq
      exact surrounded_part h hpart
  | stmt s => exact surrounded_stmt h hx
  | body ss =>
      cases ss with
      | nil => cases hx
      | cons t ts =>
          obtain ⟨ht, hts⟩ := surrounded_next h
          rcases List.mem_cons.mp hx with heq | hx
          · cases heq
            exact ht
          · cases List.mem_singleton.mp hx
            exact hts
  | function f =>
      cases List.mem_singleton.mp hx
      exact surrounded_call h

/-! ## Names in fragments -/

theorem Surrounded.declared {t : Stmt Slot} (h : Surrounded p (.stmt t)) :
    ∀ name ∈ t.declared?, name.IsName := by
  obtain ⟨_, s, y, hw, _, rfl⟩ := h
  rw [Stmt.declared?_resolve]
  exact hw.declared

theorem Surrounded.params {f : FunDecl Slot} (h : Surrounded p (.function f)) :
    ∀ t ∈ f.params, t.IsName := by
  obtain ⟨_, s, y, hw, _, rfl⟩ := h
  cases y
  exact hw.2.1

theorem Surrounded.assigned {t : Token} {slot : Slot} {value : Expr Slot}
    (h : Surrounded p (.expr (.assign t slot value))) : t.IsName := by
  obtain ⟨_, s, y, hw, _, heq⟩ := h
  cases y with
  | assign name slot' value' =>
      cases heq
      exact hw.1
  | _ => cases heq

/-- Going down keeps the names of the language where they belong. -/
theorem reserved_inside {y : Fragment} (h : y.Surrounded p) (hp : p.Reserved)
    (hx : (q, x) ∈ y.inside p) : q.Reserved := by
  have hblock : ∀ body : List (Stmt Slot), (p.enter (.block body)).Reserved := fun body =>
    hp.enter fun n _ => by simp [Opening.initial, Opening.reserved?]
  cases y with
  | expr e =>
      obtain ⟨part, _, heq⟩ := List.mem_map.mp hx
      cases heq
      exact hp
  | body ss =>
      cases ss with
      | nil => cases hx
      | cons t ts =>
          rcases List.mem_cons.mp hx with heq | hx
          · cases heq
            exact hp
          · cases List.mem_singleton.mp hx
            have hname := (surrounded_next h).1.declared
            rw [Place.after]
            split
            · exact hp
            · next t ht => exact hp.define (hname t ht)
  | function f =>
      cases List.mem_singleton.mp hx
      obtain ⟨hthis, hsuper⟩ := not_mem_initial_call h.params
      refine hp.enter fun n hn => ?_
      rcases hn with rfl | rfl
      · simp [hthis, Opening.reserved?]
      · simp [hsuper, Opening.reserved?]
  | stmt t =>
      have hname := h.declared
      cases t with
      | expression | print =>
          cases List.mem_singleton.mp hx
          exact hp
      | varDecl name initializer =>
          cases initializer with
          | none => cases hx
          | some e =>
              cases List.mem_singleton.mp hx
              exact hp.declare (hname name rfl)
      | block body =>
          cases List.mem_singleton.mp hx
          exact hblock body
      | ifThen | whileLoop =>
          rcases List.mem_cons.mp hx with heq | hx
          · cases heq
            exact hp
          · cases List.mem_singleton.mp hx
            exact hp
      | ifElse =>
          rcases List.mem_cons.mp hx with heq | hx
          · cases heq
            exact hp
          rcases List.mem_cons.mp hx with heq | hx
          · cases heq
            exact hp
          · cases List.mem_singleton.mp hx
            exact hp
      | function f =>
          cases List.mem_singleton.mp hx
          exact hp.define (hname f.name rfl)
      | ret keyword value =>
          obtain ⟨e, _, heq⟩ := List.mem_map.mp hx
          cases heq
          exact hp
      | classDecl name superclass methods =>
          rcases List.mem_append.mp hx with hx | hx
          · obtain ⟨r, _, heq⟩ := List.mem_map.mp hx
            cases heq
            exact hp
          · obtain ⟨f, _, heq⟩ := List.mem_map.mp hx
            cases heq
            have hdefined := hp.define (hname name rfl)
            refine Reserved.enter ?_ fun n hn => ?_
            · cases superclass with
              | none => exact hdefined
              | some r =>
                  exact hdefined.enter fun n _ => by
                    simp [Opening.initial, Opening.reserved?, eq_comm]
            · simp [Opening.initial, Opening.reserved?, eq_comm]

end Fragment

section

variable {programs : List (List (Stmt Slot))} {p : Place} {x : Fragment}
  (haccepted : ∀ program ∈ programs, Accepted program)
include haccepted

/-- The resolver goes down accepted programs with the kinds that the places say. -/
theorem Occurs.surrounded (h : Occurs programs p x) : x.Surrounded p := by
  induction h with
  | program hmem =>
      obtain ⟨parsed, hw, hf, rfl⟩ := haccepted _ hmem
      exact ⟨⟨rfl, rfl⟩, [], parsed, hw, hf, rfl⟩
  | inside _ hx ih => exact ih.inside hx

theorem Occurs.reserved (h : Occurs programs p x) : p.Reserved := by
  induction h with
  | program => exact Place.reserved_nil
  | inside hy hx ih => exact Fragment.reserved_inside (hy.surrounded haccepted) ih hx

/-- `this` is the receiver of the innermost method. -/
theorem Occurs.thisRef {keyword : Token} {slot : Slot}
    (h : Occurs programs p (.expr (.thisRef keyword slot))) :
    keyword.lexeme = thisName ∧ ∃ d f, slot = some d ∧ p.InMethod d f := by
  obtain ⟨_, s, y, hw, hf, heq⟩ := h.surrounded haccepted
  obtain ⟨hslot, _⟩ := (h.resolved haccepted).read (.inr rfl)
  cases y with
  | thisRef keyword' slot' =>
      cases heq
      have hlexeme : keyword.lexeme = thisName := hw
      have hcls : p.surroundings.cls ≠ .none := by
        intro hcls
        simp [Expr.scopeFaults, hcls] at hf
      obtain ⟨d, f, hin, _⟩ := Place.exists_inMethod hcls
      refine ⟨hlexeme, d, f, ?_, hin⟩
      rw [hslot, hlexeme]
      exact hin.distance_this (h.reserved haccepted)
  | _ => cases heq

/-- `super` is one hop further out than the receiver of the innermost method. -/
theorem Occurs.superRef {keyword method : Token} {slot : Slot}
    (h : Occurs programs p (.expr (.superRef keyword method slot))) :
    ∃ d f l s, slot = some (d + 1) ∧ p.InMethod d f ∧
      p.scopes.distanceTo? thisName = some d ∧ p[d + 1]? = some l ∧
      l.opening = .superclass s := by
  obtain ⟨_, s, y, hw, hf, heq⟩ := h.surrounded haccepted
  obtain ⟨_, hslot, d', l₁, l₂, hd', hl₁, hsuper, hl₂, hthis⟩ := (h.resolved haccepted).superRef
  have hreserved := h.reserved haccepted
  cases y with
  | superRef keyword' method' slot' =>
      cases heq
      have hcls : p.surroundings.cls = .derived := by
        cases hc : p.surroundings.cls <;> simp [Expr.scopeFaults, hc] at hf ⊢
      have hne : p.surroundings.cls ≠ .none := by simp [hcls]
      obtain ⟨d, f, hin, hd⟩ := Place.exists_inMethod hne
      obtain ⟨l, s, hl, hopening⟩ := hd hcls
      have hdistance := hin.distance_this hreserved
      have hle : d ≤ d' :=
        Place.distance_le hdistance hl₂ (Scope.isDeclared_of_isDefined hthis)
      have hge : d' + 1 ≤ d + 1 := by
        refine Place.distance_le (hslot.symm.trans hd') hl ?_
        rw [hreserved l (List.mem_of_getElem? hl) superName (.inr rfl), hopening]
        rfl
      obtain rfl : d' = d := by omega
      exact ⟨d', f, l, s, hd', hin, hdistance, hl, hopening⟩
  | _ => cases heq

end

end Lox
