import Lox.Proofs.Simulation.Comparison

/-!
# Related programs and related machines

A comparison says how references and frames are related. Everything else follows:
trees are related if they have the same shape and related references, values if
they look the same and their functions are related trees with related environments,
and machines if everything in them is.
-/

namespace Lox
namespace Comparison

variable (C : Comparison)

/-! ## Trees -/

mutual

/-- Related expressions at a spot. -/
inductive ExprRel : C.Spot → Expr Slot → Expr Slot → Prop
  | literal {p : C.Spot} {value : Constant} : ExprRel p (.literal value) (.literal value)
  | unary {p : C.Spot} {operator operator' : Token} {e e' : Expr Slot} :
      operator.Alike operator' → ExprRel p e e' →
      ExprRel p (.unary operator e) (.unary operator' e')
  | binary {p : C.Spot} {operator operator' : Token} {a a' b b' : Expr Slot} :
      operator.Alike operator' → ExprRel p a a' → ExprRel p b b' →
      ExprRel p (.binary a operator b) (.binary a' operator' b')
  | logical {p : C.Spot} {operator operator' : Token} {a a' b b' : Expr Slot} :
      operator.Alike operator' → ExprRel p a a' → ExprRel p b b' →
      ExprRel p (.logical a operator b) (.logical a' operator' b')
  | conditional {p : C.Spot} {c c' a a' b b' : Expr Slot} :
      ExprRel p c c' → ExprRel p a a' → ExprRel p b b' →
      ExprRel p (.conditional c a b) (.conditional c' a' b')
  | grouping {p : C.Spot} {e e' : Expr Slot} :
      ExprRel p e e' → ExprRel p (.grouping e) (.grouping e')
  | var {p : C.Spot} {name name' : Token} {slot slot' : Slot} :
      C.Refers p (.var name slot) (.var name' slot') →
      ExprRel p (.var name slot) (.var name' slot')
  | assign {p : C.Spot} {name name' : Token} {slot slot' : Slot} {e e' : Expr Slot} :
      C.Refers p (.assign name slot e) (.assign name' slot' e') → ExprRel p e e' →
      ExprRel p (.assign name slot e) (.assign name' slot' e')
  | call {p : C.Spot} {paren paren' : Token} {e e' : Expr Slot} {es es' : List (Expr Slot)} :
      ExprRel p e e' → ExprsRel p es es' → ExprRel p (.call e paren es) (.call e' paren' es')
  | get {p : C.Spot} {name name' : Token} {e e' : Expr Slot} :
      name.Alike name' → ExprRel p e e' → ExprRel p (.get e name) (.get e' name')
  | set {p : C.Spot} {name name' : Token} {a a' b b' : Expr Slot} :
      name.Alike name' → ExprRel p a a' → ExprRel p b b' →
      ExprRel p (.set a name b) (.set a' name' b')
  | thisRef {p : C.Spot} {keyword keyword' : Token} {slot slot' : Slot} :
      C.Refers p (.thisRef keyword slot) (.thisRef keyword' slot') →
      ExprRel p (.thisRef keyword slot) (.thisRef keyword' slot')
  | superRef {p : C.Spot} {keyword keyword' method method' : Token} {slot slot' : Slot} :
      method.Alike method' →
      C.Refers p (.superRef keyword method slot) (.superRef keyword' method' slot') →
      ExprRel p (.superRef keyword method slot) (.superRef keyword' method' slot')
  | vector {p : C.Spot} {bracket bracket' : Token} {es es' : List (Expr Slot)} :
      ExprsRel p es es' → ExprRel p (.vector bracket es) (.vector bracket' es')

/-- Related expressions, one by one. -/
inductive ExprsRel : C.Spot → List (Expr Slot) → List (Expr Slot) → Prop
  | nil {p : C.Spot} : ExprsRel p [] []
  | cons {p : C.Spot} {e e' : Expr Slot} {es es' : List (Expr Slot)} :
      ExprRel p e e' → ExprsRel p es es' → ExprsRel p (e :: es) (e' :: es')

end

mutual

/-- Related statements at a spot, with the spot after them. A branch and the body of a
loop leave the spot as it is, since they are no declarations. -/
inductive StmtRel : C.Spot → Stmt Slot → Stmt Slot → C.Spot → Prop
  | expression {p : C.Spot} {e e' : Expr Slot} :
      C.ExprRel p e e' → StmtRel p (.expression e) (.expression e') p
  | print {p : C.Spot} {e e' : Expr Slot} :
      C.ExprRel p e e' → StmtRel p (.print e) (.print e') p
  | varPlain {p q r : C.Spot} {name name' : Token} :
      C.Declares p name name' q r → StmtRel p (.varDecl name none) (.varDecl name' none) r
  | varDecl {p q r : C.Spot} {name name' : Token} {e e' : Expr Slot} :
      C.Declares p name name' q r → C.ExprRel q e e' →
      StmtRel p (.varDecl name (some e)) (.varDecl name' (some e')) r
  | block {p q : C.Spot} {body body' : List (Stmt Slot)} :
      C.Opens p (.block body) (.block body') q → StmtsRel q body body' →
      StmtRel p (.block body) (.block body') p
  | ifThen {p : C.Spot} {c c' : Expr Slot} {s s' : Stmt Slot} :
      C.ExprRel p c c' → StmtRel p s s' p → StmtRel p (.ifThen c s) (.ifThen c' s') p
  | ifElse {p : C.Spot} {c c' : Expr Slot} {a a' b b' : Stmt Slot} :
      C.ExprRel p c c' → StmtRel p a a' p → StmtRel p b b' p →
      StmtRel p (.ifElse c a b) (.ifElse c' a' b') p
  | whileLoop {p : C.Spot} {c c' : Expr Slot} {s s' : Stmt Slot} :
      C.ExprRel p c c' → StmtRel p s s' p → StmtRel p (.whileLoop c s) (.whileLoop c' s') p
  | function {p q r : C.Spot} {f f' : FunDecl Slot} :
      C.Declares p f.name f'.name q r → FunRel r f f' →
      StmtRel p (.function f) (.function f') r
  | retPlain {p : C.Spot} {keyword keyword' : Token} :
      StmtRel p (.ret keyword none) (.ret keyword' none) p
  | ret {p : C.Spot} {keyword keyword' : Token} {e e' : Expr Slot} :
      C.ExprRel p e e' → StmtRel p (.ret keyword (some e)) (.ret keyword' (some e')) p
  | plainClass {p q r : C.Spot} {name name' : Token} {methods methods' : List (FunDecl Slot)} :
      name.lexeme = name'.lexeme → C.Declares p name name' q r → MethodsRel r methods methods' →
      StmtRel p (.classDecl name none methods) (.classDecl name' none methods') r
  | derivedClass {p q r i : C.Spot} {name name' : Token} {parent parent' : Reference Slot}
      {methods methods' : List (FunDecl Slot)} :
      name.lexeme = name'.lexeme → C.Declares p name name' q r →
      C.Refers p (.var parent.name parent.slot) (.var parent'.name parent'.slot) →
      C.Opens r (.superclass (.classDecl name (some parent) methods))
        (.superclass (.classDecl name' (some parent') methods')) i →
      MethodsRel i methods methods' →
      StmtRel p (.classDecl name (some parent) methods) (.classDecl name' (some parent') methods') r

/-- Related statements, one after the other. -/
inductive StmtsRel : C.Spot → List (Stmt Slot) → List (Stmt Slot) → Prop
  | nil {p : C.Spot} : StmtsRel p [] []
  | cons {p q : C.Spot} {s s' : Stmt Slot} {ss ss' : List (Stmt Slot)} :
      StmtRel p s s' q → StmtsRel q ss ss' → StmtsRel p (s :: ss) (s' :: ss')

/-- Related functions at the spot around them. -/
inductive FunRel : C.Spot → FunDecl Slot → FunDecl Slot → Prop
  | mk {p q : C.Spot} {f f' : FunDecl Slot} :
      f.name.lexeme = f'.name.lexeme → f.params.length = f'.params.length →
      C.Opens p (.call f) (.call f') q →
      StmtsRel q f.body f'.body → FunRel p f f'

/-- Related methods at the spot around their class, one by one. -/
inductive MethodsRel : C.Spot → List (FunDecl Slot) → List (FunDecl Slot) → Prop
  | nil {p : C.Spot} : MethodsRel p [] []
  | cons {p q : C.Spot} {f f' : FunDecl Slot} {fs fs' : List (FunDecl Slot)} :
      C.Opens p (.receiver f) (.receiver f') q → FunRel q f f' → MethodsRel p fs fs' →
      MethodsRel p (f :: fs) (f' :: fs')

end

/-! ## Values -/

variable (w : C.World)

/-- Related functions of the program. An initializer is a method of something. -/
def ClosureRel (c c' : Closure) : Prop :=
  ∃ p, C.Env w p c.env c'.env ∧ C.FunRel p c.declaration c'.declaration ∧
    c.isInitializer = c'.isInitializer ∧
    (c.isInitializer = true → ∃ q f f', C.Opens q (.receiver f) (.receiver f') p)

/-- Related methods that are not yet methods of anything. -/
inductive MethodRel : Method → Method → Prop
  | closure {p q : C.Spot} {c c' : Closure} :
      C.Env w p c.env c'.env →
      C.Opens p (.receiver c.declaration) (.receiver c'.declaration) q →
      C.FunRel q c.declaration c'.declaration → c.isInitializer = c'.isInitializer →
      MethodRel (.closure c) (.closure c')
  | native {n : Native} : MethodRel (.native n) (.native n)

/-- Related tables: the same names in the same order. -/
abbrev TableRel {α : Type} (R : α → α → Prop) (b b' : Bindings α) : Prop :=
  List.Forall₂ (fun x y => x.1 = y.1 ∧ R x.2 y.2) b b'

/-- Related classes without their ancestors. -/
structure BodyRel (b b' : ClassBody) : Prop where
  id : b.id = b'.id
  name : b.name = b'.name
  methods : TableRel (C.MethodRel w) b.methods b'.methods
  isVector : b.isVector = b'.isVector

/-- Related classes. -/
inductive ClassRel : Class → Class → Prop
  | root {b b' : ClassBody} : C.BodyRel w b b' → ClassRel (.root b) (.root b')
  | derived {b b' : ClassBody} {c c' : Class} :
      C.BodyRel w b b' → ClassRel c c' → ClassRel (.derived b c) (.derived b' c')

/-- Related values. -/
inductive ValueRel : ValueRelation
  | nil : ValueRel .nil .nil
  | bool {b : Bool} : ValueRel (.bool b) (.bool b)
  | number {x : Float} : ValueRel (.number x) (.number x)
  | text {s : String} : ValueRel (.text s) (.text s)
  | function {id : Nat} {c c' : Closure} :
      C.ClosureRel w c c' → ValueRel (.function id c) (.function id c')
  | native {id : Nat} {n : Native} : ValueRel (.native id n) (.native id n)
  | nativeMethod {id : Nat} {n : Native} {v v' : Value} :
      ValueRel v v' → ValueRel (.nativeMethod id n v) (.nativeMethod id n v')
  | cls {c c' : Class} : C.ClassRel w c c' → ValueRel (.cls c) (.cls c')
  | object {ref : Nat} : ValueRel (.object ref) (.object ref)
  | unassigned : ValueRel .unassigned .unassigned

/-- Related instances. -/
structure InstanceRel (i i' : Instance) : Prop where
  cls : C.ClassRel w i.cls i'.cls
  fields : TableRel (C.ValueRel w) i.fields i'.fields
  elements : Option.Rel (fun a a' => List.Forall₂ (C.ValueRel w) a.toList a'.toList)
    i.elements i'.elements

/-- Related stores of instances. -/
def ObjectsRel (o o' : Objects) : Prop :=
  List.Forall₂ (C.InstanceRel w) o.toList o'.toList

/-- Related machines, whatever their current environments and last values. -/
structure MachineRel (m m' : Machine) : Prop where
  frames : C.Store w (C.ValueRel w) m.frames m'.frames
  objects : C.ObjectsRel w m.objects m'.objects
  nextId : m.nextId = m'.nextId
  output : m'.output = C.past ++ m.output
  vectorClass : C.ClassRel w m.vectorClass m'.vectorClass
  /-- They read the same from their clocks, and are in the middle of writing the same vectors. -/
  devices : m.readings = m'.readings ∧ m.ticks = m'.ticks ∧ m.writing = m'.writing

/-! ## Later worlds -/

variable {C} {w} {w' : C.World}

theorem ClosureRel.later {c c' : Closure} (h : C.ClosureRel w c c') (hw : C.Later w w') :
    C.ClosureRel w' c c' := by
  obtain ⟨p, he, hf, hi, hr⟩ := h
  exact ⟨p, C.env_later hw he, hf, hi, hr⟩

theorem MethodRel.later {m m' : Method} (h : C.MethodRel w m m') (hw : C.Later w w') :
    C.MethodRel w' m m' := by
  cases h with
  | closure he hr hf hi => exact .closure (C.env_later hw he) hr hf hi
  | native => exact .native

theorem TableRel.imp {α : Type} {R R' : α → α → Prop} {b b' : Bindings α} (h : TableRel R b b')
    (hR : ∀ a a', R a a' → R' a a') : TableRel R' b b' :=
  List.Forall₂.imp (fun _ _ hp => ⟨hp.1, hR _ _ hp.2⟩) h

theorem BodyRel.later {b b' : ClassBody} (h : C.BodyRel w b b') (hw : C.Later w w') :
    C.BodyRel w' b b' :=
  ⟨h.id, h.name, TableRel.imp h.methods fun _ _ hm => hm.later hw, h.isVector⟩

theorem ClassRel.later {c c' : Class} (h : C.ClassRel w c c') (hw : C.Later w w') :
    C.ClassRel w' c c' := by
  induction h with
  | root hb => exact .root (hb.later hw)
  | derived hb _ ih => exact .derived (hb.later hw) ih

theorem ValueRel.later {v v' : Value} (h : C.ValueRel w v v') (hw : C.Later w w') :
    C.ValueRel w' v v' := by
  induction h with
  | nil => exact .nil
  | bool => exact .bool
  | number => exact .number
  | text => exact .text
  | function hc => exact .function (hc.later hw)
  | native => exact .native
  | nativeMethod _ ih => exact .nativeMethod ih
  | cls hc => exact .cls (hc.later hw)
  | object => exact .object
  | unassigned => exact .unassigned

theorem extends_later (hw : C.Later w w') :
    ValueRelation.Extends (C.ValueRel w) (C.ValueRel w') :=
  fun _ _ h => h.later hw

theorem forall₂_later {vs vs' : List Value} (h : List.Forall₂ (C.ValueRel w) vs vs')
    (hw : C.Later w w') : List.Forall₂ (C.ValueRel w') vs vs' :=
  List.Forall₂.imp (fun _ _ hv => hv.later hw) h

theorem InstanceRel.later {i i' : Instance} (h : C.InstanceRel w i i') (hw : C.Later w w') :
    C.InstanceRel w' i i' where
  cls := h.cls.later hw
  fields := TableRel.imp h.fields fun _ _ hv => hv.later hw
  elements := by
    have he := h.elements
    generalize i.elements = a at he
    generalize i'.elements = a' at he
    cases he with
    | none => exact .none
    | some hv => exact .some (forall₂_later hv hw)

theorem ObjectsRel.later {o o' : Objects} (h : C.ObjectsRel w o o') (hw : C.Later w w') :
    C.ObjectsRel w' o o' :=
  List.Forall₂.imp (fun _ _ hi => hi.later hw) h

/-- A later world with a store related in it takes the machines along. -/
theorem MachineRel.later {m m' : Machine} (h : C.MachineRel w m m') (hw : C.Later w w')
    {F F' : Frames Value} (hF : C.Store w' (C.ValueRel w') F F') :
    C.MachineRel w' { m with frames := F } { m' with frames := F' } where
  frames := hF
  objects := h.objects.later hw
  nextId := h.nextId
  output := h.output
  vectorClass := h.vectorClass.later hw
  devices := h.devices

/-- Which environments are current does not matter. -/
theorem MachineRel.at_env {m m' : Machine} (h : C.MachineRel w m m') (E E' : Lox.Env) :
    C.MachineRel w { m with env := E } { m' with env := E' } :=
  ⟨h.1, h.2, h.3, h.4, h.5, h.6⟩

end Comparison
end Lox
