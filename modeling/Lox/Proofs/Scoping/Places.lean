import Lox.Proofs.Acceptance
import Lox.Proofs.Activities
import Lox.Proofs.Frames

/-!
# Places in programs

A place is where a fragment of a program stands: the scopes around it, each with
what opens it. Going down a resolved program along its fragments is going through
the scopes that resolution saw there, since only declarations change scopes and they
are still in the tree.

For an accepted program the places are in order. Outer scopes have no name that is
still pending, so what a reference finds there can be read. `this` and `super` are
found only in scopes of their own, and just inside each scope of a superclass lies
that of the receiver.
-/

namespace Lox

/-- A scope around a place, with what it is opened for. -/
structure Level where
  opening : Opening
  scope : Scope

/-- The scopes around a place, innermost first. -/
abbrev Place := List Level

namespace Opening

def label : Opening → String
  | block _ => "block"
  | call f => "function " ++ f.name.lexeme
  | superclass _ => superName
  | receiver _ => thisName

/-- The scope as it is right at the opening. -/
def scope (o : Opening) : Scope :=
  o.initial.foldl Scope.define { label := o.label }

/-- The scope declares the name, at its opening or by one of its statements. -/
def Declares (o : Opening) (name : String) : Prop :=
  name ∈ o.initial ∨
    match o with
    | block body => ∃ s ∈ body, ∃ t ∈ s.declared?, t.lexeme = name
    | call f => ∃ s ∈ f.body, ∃ t ∈ s.declared?, t.lexeme = name
    | _ => False

end Opening

namespace Place

def scopes (p : Place) : Scopes :=
  p.map (·.scope)

def declare (name : String) : Place → Place
  | [] => []
  | l :: rest => { l with scope := l.scope.declare name } :: rest

def define (name : String) : Place → Place
  | [] => []
  | l :: rest => { l with scope := l.scope.define name } :: rest

/-- The place after a statement. -/
def after (p : Place) (s : Stmt Slot) : Place :=
  match s.declared? with
  | none => p
  | some t => p.define t.lexeme

/-- The place inside a scope that is opened. -/
def enter (p : Place) (o : Opening) : Place :=
  ⟨o, o.scope⟩ :: p

/-- The place of the methods of a class, but for their receiver. -/
def inherit (p : Place) (declaration : Stmt Slot) : Option (Reference Slot) → Place
  | none => p
  | some _ => p.enter (.superclass declaration)

end Place

/-! ## Fragments -/

/-- A part of a resolved program. -/
inductive Fragment where
  | expr (e : Expr Slot)
  | stmt (s : Stmt Slot)
  | body (ss : List (Stmt Slot))
  | function (f : FunDecl Slot)

/-- The expressions right inside an expression. -/
def Expr.parts {δ : Type} : Expr δ → List (Expr δ)
  | .unary _ operand => [operand]
  | .binary left _ right => [left, right]
  | .logical left _ right => [left, right]
  | .conditional condition thenBranch elseBranch => [condition, thenBranch, elseBranch]
  | .grouping inner => [inner]
  | .assign _ _ value => [value]
  | .call callee _ arguments => callee :: arguments
  | .get object _ => [object]
  | .set object _ value => [object, value]
  | .vector _ elements => elements
  | _ => []

/-- The fragments right inside a fragment at `p`, each with its place. The superclass
of a class is another name than that of the class, so it does not matter on which
side of the declaration it is looked up; the run does it before. -/
def Fragment.inside (p : Place) : Fragment → List (Place × Fragment)
  | .expr e => e.parts.map fun part => (p, .expr part)
  | .stmt (.expression e) => [(p, .expr e)]
  | .stmt (.print e) => [(p, .expr e)]
  | .stmt (.varDecl name initializer) =>
    initializer.toList.map fun e => (p.declare name.lexeme, .expr e)
  | .stmt (.block ss) => [(p.enter (.block ss), .body ss)]
  | .stmt (.ifThen condition thenBranch) => [(p, .expr condition), (p, .stmt thenBranch)]
  | .stmt (.ifElse condition thenBranch elseBranch) =>
    [(p, .expr condition), (p, .stmt thenBranch), (p, .stmt elseBranch)]
  | .stmt (.whileLoop condition round) => [(p, .expr condition), (p, .stmt round)]
  | .stmt (.function f) => [(p.define f.name.lexeme, .function f)]
  | .stmt (.ret _ value) => value.toList.map fun e => (p, .expr e)
  | .stmt (.classDecl name superclass methods) =>
    (superclass.toList.map fun r => (p, .expr (.var r.name r.slot))) ++
      methods.map fun f =>
        (((p.define name.lexeme).inherit (.classDecl name superclass methods) superclass).enter
          (.receiver f), .function f)
  | .body [] => []
  | .body (s :: rest) => [(p, .stmt s), (p.after s, .body rest)]
  | .function f => [(p.enter (.call f), .body f.body)]

/-- The fragment stands at the place in one of the programs. -/
inductive Occurs (programs : List (List (Stmt Slot))) : Place → Fragment → Prop
  | program {program : List (Stmt Slot)} : program ∈ programs → Occurs programs [] (.body program)
  | inside {p q : Place} {x y : Fragment} :
      Occurs programs p x → (q, y) ∈ x.inside p → Occurs programs q y

/-! ## Scopes of places -/

namespace Scope

theorem isDeclared_declare (s : Scope) (name n : String) :
    (s.declare name).isDeclared n = true ↔ n = name ∨ s.isDeclared n = true := by
  simp only [isDeclared, declare, Bindings.contains, Bindings.find?_insert]
  by_cases h : n = name <;> simp [h]

theorem isDeclared_define (s : Scope) (name n : String) :
    (s.define name).isDeclared n = true ↔ n = name ∨ s.isDeclared n = true := by
  simp only [isDeclared, define, Bindings.contains, Bindings.find?_insert]
  by_cases h : n = name <;> simp [h]

theorem isDefined_declare (s : Scope) (name n : String) :
    (s.declare name).isDefined n = true ↔ n ≠ name ∧ s.isDefined n = true := by
  simp only [isDefined, declare, Bindings.find?_insert]
  by_cases h : n = name <;> simp [h]

theorem isDefined_define (s : Scope) (name n : String) :
    (s.define name).isDefined n = true ↔ n = name ∨ s.isDefined n = true := by
  simp only [isDefined, define, Bindings.find?_insert]
  by_cases h : n = name <;> simp [h]

theorem isDeclared_of_isDefined {s : Scope} {n : String} (h : s.isDefined n = true) :
    s.isDeclared n = true := by
  simp only [isDefined, beq_iff_eq] at h
  simp [isDeclared, Bindings.contains, h]

theorem isDeclared_foldl_define (names : List String) (s : Scope) (n : String) :
    (names.foldl define s).isDeclared n = true ↔ n ∈ names ∨ s.isDeclared n = true := by
  induction names generalizing s with
  | nil => simp
  | cons name rest ih =>
      rw [List.foldl_cons, ih, isDeclared_define, List.mem_cons]
      tauto

theorem isDefined_foldl_define (names : List String) (s : Scope) (n : String) :
    (names.foldl define s).isDefined n = true ↔ n ∈ names ∨ s.isDefined n = true := by
  induction names generalizing s with
  | nil => simp
  | cons name rest ih =>
      rw [List.foldl_cons, ih, isDefined_define, List.mem_cons]
      tauto

end Scope

namespace Opening

variable (o : Opening) (n : String)

theorem isDeclared_scope : o.scope.isDeclared n = true ↔ n ∈ o.initial := by
  rw [scope, Scope.isDeclared_foldl_define]
  simp [Scope.isDeclared, Bindings.contains]

theorem isDefined_scope : o.scope.isDefined n = true ↔ n ∈ o.initial := by
  rw [scope, Scope.isDefined_foldl_define]
  simp [Scope.isDefined]

end Opening

namespace Place

variable (p : Place)

theorem scopes_declare (name : String) : (p.declare name).scopes = p.scopes.declare name := by
  cases p <;> rfl

theorem scopes_define (name : String) : (p.define name).scopes = p.scopes.define name := by
  cases p <;> rfl

theorem scopes_after (s : Stmt Slot) : (p.after s).scopes = s.after p.scopes := by
  cases s <;> first | rfl | exact scopes_define p _

theorem scopes_enter (o : Opening) : (p.enter o).scopes = o.scope :: p.scopes :=
  rfl

theorem scopes_function (f : FunDecl Slot) :
    (p.enter (.call f)).scopes = p.scopes.function f.name f.params := by
  have hfold : ∀ (params : List Token) (s : Scope) (rest : Scopes),
      (params.map (·.lexeme)).foldl Scope.define s :: rest =
        params.foldl (fun (s : Scopes) p => s.define p.lexeme) (s :: rest) := by
    intro params
    induction params with
    | nil => exact fun _ _ => rfl
    | cons t params ih => exact fun s rest => ih (s.define t.lexeme) rest
  exact hfold f.params _ p.scopes

theorem scopes_methods {declaration : Stmt Slot} (superclass : Option (Reference Slot))
    (f : FunDecl Slot) :
    ((p.inherit declaration superclass).enter (.receiver f)).scopes =
      p.scopes.methods superclass := by
  cases superclass <;> rfl

theorem distanceTo?_eq_some {s : Scopes} {name : String} {d : Nat}
    (h : s.distanceTo? name = some d) : ∃ scope, s[d]? = some scope ∧ scope.isDeclared name := by
  obtain ⟨hd, hdeclared, _⟩ := List.findIdx?_eq_some_iff_getElem.mp h
  exact ⟨s[d], List.getElem?_eq_getElem hd, hdeclared⟩

end Place

namespace Scopes

/-- Names are declared one after the other, such as parameters and what a body declares. -/
theorem paramFaults_append (s : Scopes) (ts us : List Token) :
    s.paramFaults (ts ++ us) =
      s.paramFaults ts ++ (ts.foldl (fun s t => s.define t.lexeme) s).paramFaults us := by
  induction ts generalizing s with
  | nil => rfl
  | cons t ts ih =>
      rw [List.cons_append, paramFaults, paramFaults, List.foldl_cons, ih, List.append_assoc]

end Scopes
end Lox
