import Lox.Resolver
import Mathlib.Logic.Basic

/-!
# What a walk of resolution gives back

Whatever a statement is, also one that breaks the rules, the walk over it gives back
what it borrowed: `Stmt.walk_balanced`. That the walk finds what `resolveProgram` says
is in `Lox.Proofs.Resolution.Agreement`.
-/

namespace Lox

namespace Scopes

@[simp] theorem length_declare (s : Scopes) (name : String) :
    (s.declare name).length = s.length := by
  cases s <;> rfl

@[simp] theorem length_define (s : Scopes) (name : String) :
    (s.define name).length = s.length := by
  cases s <;> rfl

@[simp] theorem tail_declare (s : Scopes) (name : String) :
    (s.declare name).tail = s.tail := by
  cases s <;> rfl

@[simp] theorem tail_define (s : Scopes) (name : String) :
    (s.define name).tail = s.tail := by
  cases s <;> rfl

end Scopes

section

variable {ι τ : Type}

namespace Pass

/-- The pass leaves as many scopes as there were, those below the innermost one as they
were, and the kind of function as it was. -/
structure GivesBack (p : Pass ι τ) : Prop where
  depth : ∀ r, (p r).scopes.length = r.scopes.length
  outer : ∀ r, (p r).scopes.tail = r.scopes.tail
  function : ∀ r, (p r).around.function = r.around.function

/-- The pass gives back the kind of class as well. -/
structure Balanced (p : Pass ι τ) : Prop extends GivesBack p where
  cls : ∀ r, (p r).around.cls = r.around.cls

/-- The pass leaves all scopes and the surroundings as they were. -/
def Neutral (p : Pass ι τ) : Prop :=
  ∀ r, (p r).scopes = r.scopes ∧ (p r).around = r.around

variable {p q : Pass ι τ}

theorem Balanced.around (hp : Balanced p) (r : Resolver ι τ) : (p r).around = r.around :=
  congrArg₂ Surroundings.mk (hp.function r) (hp.cls r)

theorem Neutral.balanced (hp : Neutral p) : Balanced p where
  depth r := congrArg List.length (hp r).1
  outer r := congrArg List.tail (hp r).1
  function r := congrArg Surroundings.function (hp r).2
  cls r := congrArg Surroundings.cls (hp r).2

theorem GivesBack.andThen (hp : GivesBack p) (hq : GivesBack q) : GivesBack (andThen p q) where
  depth r := (hq.depth (p r)).trans (hp.depth r)
  outer r := (hq.outer (p r)).trans (hp.outer r)
  function r := (hq.function (p r)).trans (hp.function r)

theorem Balanced.andThen (hp : Balanced p) (hq : Balanced q) : Balanced (andThen p q) where
  toGivesBack := hp.toGivesBack.andThen hq.toGivesBack
  cls r := (hq.cls (p r)).trans (hp.cls r)

theorem Neutral.andThen (hp : Neutral p) (hq : Neutral q) : Neutral (andThen p q) :=
  fun r => ⟨(hq (p r)).1.trans (hp r).1, (hq (p r)).2.trans (hp r).2⟩

theorem neutral_skip : Neutral (skip : Pass ι τ) := fun _ => ⟨rfl, rfl⟩

theorem balanced_define (name : String) : Balanced (define name : Pass ι τ) :=
  ⟨⟨fun r => r.scopes.length_define name, fun r => r.scopes.tail_define name, fun _ => rfl⟩,
    fun _ => rfl⟩

/-- A scope of its own takes all declarations with it, so that even the innermost scope
is what it was. -/
theorem Balanced.inScope (hp : Balanced p) (label : String) : Neutral (inScope label p) :=
  fun _ => ⟨hp.outer _, hp.around _⟩

theorem Balanced.reserving (hp : Balanced p) (name : String) : Neutral (reserving name p) :=
  ((balanced_define name).andThen hp).inScope name

theorem Balanced.methods (hp : Balanced p) (superclass : Option (Reference ι)) :
    Neutral (methods superclass p) := by
  rw [Pass.methods]
  split
  · exact (hp.reserving thisName).balanced.reserving superName
  · exact hp.reserving thisName

theorem Neutral.inFunction (hp : Neutral p) (kind : FunctionKind) :
    Neutral (inFunction kind p) :=
  fun _ => ⟨(hp _).1, by simp only [Pass.inFunction, hp _]⟩

theorem givesBack_enterClass (kind : ClassKind) : GivesBack (enterClass kind : Pass ι τ) :=
  ⟨fun _ => rfl, fun _ => rfl, fun _ => rfl⟩

theorem GivesBack.keepingClass (hp : GivesBack p) : Balanced (keepingClass p) :=
  ⟨⟨hp.depth, hp.outer, hp.function⟩, fun _ => rfl⟩

theorem neutral_report (fault : ScopeFault) (token : Token) :
    Neutral (report fault token : Pass ι τ) := fun _ => ⟨rfl, rfl⟩

theorem neutral_reportIf (test : Scopes → Surroundings → Bool) (fault : ScopeFault)
    (token : Token) : Neutral (reportIf test fault token : Pass ι τ) := by
  intro r
  rw [reportIf]
  split
  · exact neutral_report fault token r
  · exact neutral_skip r

theorem neutral_locate (kind : ReferenceKind) (name : Token) (node : ι) :
    Neutral (locate kind name node : Pass ι τ) := by
  intro r
  rw [locate]
  split <;> exact ⟨rfl, rfl⟩

theorem neutral_readVariable (name : Token) (node : ι) :
    Neutral (readVariable name node : Pass ι τ) :=
  (neutral_reportIf _ _ name).andThen (neutral_locate .var name node)

theorem neutral_readThis (keyword : Token) (node : ι) :
    Neutral (readThis keyword node : Pass ι τ) := by
  intro r
  rw [readThis]
  split
  · exact neutral_report _ _ r
  · exact neutral_locate _ _ _ r

theorem neutral_readSuper (keyword : Token) (node : ι) :
    Neutral (readSuper keyword node : Pass ι τ) := by
  intro r
  rw [readSuper]
  split
  · exact neutral_report _ _ r
  · exact neutral_report _ _ r
  · exact neutral_locate _ _ _ r

theorem balanced_declare (name : Token) : Balanced (declare name : Pass ι τ) :=
  (neutral_reportIf _ _ name).balanced.andThen
    ⟨⟨fun r => r.scopes.length_declare name.lexeme, fun r => r.scopes.tail_declare name.lexeme,
      fun _ => rfl⟩, fun _ => rfl⟩

theorem balanced_parameters (params : List Token) : Balanced (parameters params : Pass ι τ) := by
  induction params with
  | nil => exact neutral_skip.balanced
  | cons name params ih =>
      exact (balanced_declare name).andThen ((balanced_define name.lexeme).andThen ih)

theorem givesBack_inherit (name : Token) (superclass : Option (Reference ι)) :
    GivesBack (inherit name superclass : Pass ι τ) := by
  cases superclass with
  | none => exact neutral_skip.balanced.toGivesBack
  | some r =>
      exact (neutral_reportIf _ _ _).balanced.toGivesBack.andThen
        ((givesBack_enterClass _).andThen (neutral_readVariable _ _).balanced.toGivesBack)

end Pass

open Pass

theorem Stmt.walkAll_append (xs ys : List (Stmt ι)) (r : Resolver ι τ) :
    Stmt.walkAll (xs ++ ys) r = Stmt.walkAll ys (Stmt.walkAll xs r) := by
  induction xs generalizing r with
  | nil => rfl
  | cons x xs ih => exact ih (x.walk r)

mutual

/-- Expressions declare nothing. -/
theorem Expr.walk_neutral (e : Expr ι) : Neutral (e.walk : Pass ι τ) := by
  cases e with
  | literal => exact neutral_skip
  | var name node => exact neutral_readVariable name node
  | thisRef keyword node => exact neutral_readThis keyword node
  | superRef keyword method node => exact neutral_readSuper keyword node
  | unary operator a => exact a.walk_neutral
  | binary a operator b | logical a operator b => exact a.walk_neutral.andThen b.walk_neutral
  | conditional a b c => exact a.walk_neutral.andThen (b.walk_neutral.andThen c.walk_neutral)
  | grouping a => exact a.walk_neutral
  | assign name node a => exact a.walk_neutral.andThen (neutral_locate .assign name node)
  | call a paren es => exact a.walk_neutral.andThen (Expr.walkAll_neutral es)
  | get a name => exact a.walk_neutral
  | set a name b => exact b.walk_neutral.andThen a.walk_neutral
  | vector bracket es => exact Expr.walkAll_neutral es

theorem Expr.walkAll_neutral (es : List (Expr ι)) : Neutral (Expr.walkAll es : Pass ι τ) := by
  cases es with
  | nil => exact neutral_skip
  | cons e es => exact e.walk_neutral.andThen (Expr.walkAll_neutral es)

end

theorem Expr.walkOption_neutral (e : Option (Expr ι)) : Neutral (Expr.walkOption e : Pass ι τ) := by
  cases e with
  | none => exact neutral_skip
  | some e => exact e.walk_neutral

mutual

/-- After every statement, valid or not, there are as many scopes as before, those below
the innermost one are what they were, and so are the kinds of function and class. -/
theorem Stmt.walk_balanced (y : Stmt ι) : Balanced (y.walk : Pass ι τ) := by
  cases y with
  | expression e | print e => exact e.walk_neutral.balanced
  | varDecl name e =>
      exact (balanced_declare name).andThen
        ((Expr.walkOption_neutral e).balanced.andThen (balanced_define name.lexeme))
  | block body => exact ((Stmt.walkAll_balanced body).inScope "block").balanced
  | ifThen e a | whileLoop e a => exact e.walk_neutral.balanced.andThen a.walk_balanced
  | ifElse e a b =>
      exact e.walk_neutral.balanced.andThen (a.walk_balanced.andThen b.walk_balanced)
  | function f =>
      exact (balanced_declare f.name).andThen
        ((balanced_define f.name.lexeme).andThen (f.walk_neutral .function).balanced)
  | ret keyword e =>
      exact ((neutral_reportIf _ _ keyword).andThen
        ((neutral_reportIf _ _ keyword).andThen (Expr.walkOption_neutral e))).balanced
  | classDecl name superclass ms =>
      have hmethods := ((FunDecl.walkAll_neutral ms).balanced.methods superclass).balanced
      exact ((givesBack_enterClass .plain).andThen
        ((balanced_declare name).toGivesBack.andThen
          ((balanced_define name.lexeme).toGivesBack.andThen
            ((givesBack_inherit name superclass).andThen hmethods.toGivesBack)))).keepingClass

theorem Stmt.walkAll_balanced (ys : List (Stmt ι)) : Balanced (Stmt.walkAll ys : Pass ι τ) := by
  cases ys with
  | nil => exact neutral_skip.balanced
  | cons y ys => exact y.walk_balanced.andThen (Stmt.walkAll_balanced ys)

/-- A function leaves nothing in the scopes around it. -/
theorem FunDecl.walk_neutral (kind : FunctionKind) (f : FunDecl ι) :
    Neutral (f.walk kind : Pass ι τ) := by
  cases f with
  | mk name params body =>
      exact (((balanced_parameters params).andThen (Stmt.walkAll_balanced body)).inScope
        ("function " ++ name.lexeme)).inFunction kind

theorem FunDecl.walkAll_neutral (fs : List (FunDecl ι)) :
    Neutral (FunDecl.walkAll fs : Pass ι τ) := by
  cases fs with
  | nil => exact neutral_skip
  | cons f fs => exact (f.walk_neutral _).andThen (FunDecl.walkAll_neutral fs)

end

end

end Lox
