import Lox.Proofs.Mapping
import Lox.Proofs.Simulation.Comparison
import Lox.Resolve

/-!
# Resolving programs that are put together

Resolution looks at the lexemes of tokens, never at their positions: the same tree
elsewhere in a source gets the same slots, and the same faults at the tokens there.
Outside of all scopes nothing is declared, so two programs one after the other are
resolved as each is by itself.
-/

namespace Lox

variable {f : Token → Token}

/-! ## Trees elsewhere -/

/-- The fault, at another token. -/
def ScopeViolation.map (f : Token → Token) (v : ScopeViolation) : ScopeViolation :=
  { v with token := f v.token }

mutual

theorem Expr.resolve_map (hf : KeepsTexts f) (c : ClassKind) (s : Scopes) (e : Expr Unit) :
    (e.map f id).resolve c s = (e.resolve c s).map f id := by
  cases e with
  | literal => rfl
  | var name | thisRef name | superRef name =>
      simp only [Expr.map, Expr.resolve, ← (hf name).lexeme, id]
  | unary operator a => simp only [Expr.map, Expr.resolve, Expr.resolve_map hf c s a]
  | binary a operator b | logical a operator b | set a operator b =>
      simp only [Expr.map, Expr.resolve, Expr.resolve_map hf c s a, Expr.resolve_map hf c s b]
  | conditional a b d =>
      simp only [Expr.map, Expr.resolve, Expr.resolve_map hf c s a, Expr.resolve_map hf c s b,
        Expr.resolve_map hf c s d]
  | grouping a | get a => simp only [Expr.map, Expr.resolve, Expr.resolve_map hf c s a]
  | assign name slot a =>
      simp only [Expr.map, Expr.resolve, ← (hf name).lexeme, Expr.resolve_map hf c s a, id]
  | call a paren es =>
      simp only [Expr.map, Expr.resolve, Expr.resolve_map hf c s a, Expr.resolveAll_map hf c s es]
  | vector bracket es => simp only [Expr.map, Expr.resolve, Expr.resolveAll_map hf c s es]

theorem Expr.resolveAll_map (hf : KeepsTexts f) (c : ClassKind) (s : Scopes) (es : List
    (Expr Unit)) :
    Expr.resolveAll c s (Expr.mapAll f id es) = Expr.mapAll f id (Expr.resolveAll c s es) := by
  cases es with
  | nil => rfl
  | cons e es =>
      simp only [Expr.mapAll, Expr.resolveAll, Expr.resolve_map hf c s e,
        Expr.resolveAll_map hf c s es]

end

theorem Expr.resolveOption_map (hf : KeepsTexts f) (c : ClassKind) (s : Scopes) (e : Option
    (Expr Unit)) :
    (e.map (Expr.map f id)).map (Expr.resolve c s) =
      (e.map (Expr.resolve c s)).map (Expr.map f id) := by
  cases e with
  | none => rfl
  | some e => exact congrArg some (e.resolve_map hf c s)

theorem Reference.resolve_map (hf : KeepsTexts f) (s : Scopes) (r : Option (Reference Unit)) :
    (r.map (Reference.map f id)).map (Reference.resolve s) =
      (r.map (Reference.resolve s)).map (Reference.map f id) := by
  cases r with
  | none => rfl
  | some r =>
      simp only [Option.map_some, Reference.map, Reference.resolve, ← (hf r.name).lexeme, id]

theorem Scopes.function_map (hf : KeepsTexts f) (s : Scopes) (name : Token) (params : List Token) :
    s.function (f name) (params.map f) = s.function name params := by
  simp only [Scopes.function, List.foldl_map, ← (hf _).lexeme]

theorem Scopes.methods_map_reference {δ : Type} (s : Scopes) (r : Option (Reference δ)) :
    s.methods (r.map (Reference.map f id)) = s.methods r := by
  cases r <;> rfl

theorem ClassKind.ofSuperclass_map {δ : Type} (r : Option (Reference δ)) :
    ClassKind.ofSuperclass (r.map (Reference.map f id)) = .ofSuperclass r := by
  cases r <;> rfl

theorem FunDecl.alike_name_map {δ : Type} (hf : KeepsTexts f) (n : Nat) (d : FunDecl δ) :
    d.name.Alike (d.map f (fun _ => id) n).name := by
  cases d
  exact hf _

theorem Stmt.after_map {δ : Type} (hf : KeepsTexts f) (s : Scopes) (n : Nat) (y : Stmt δ) :
    (y.map f (fun _ => id) n).after s = y.after s := by
  cases y with
  | varDecl name | classDecl name => simp only [Stmt.map, Stmt.after, ← (hf name).lexeme]
  | function d => simp only [Stmt.map, Stmt.after, ← (d.alike_name_map hf n).lexeme]
  | _ => rfl

mutual

theorem Stmt.resolve_map (hf : KeepsTexts f) (c : ClassKind) (s : Scopes) (n : Nat)
    (y : Stmt Unit) :
    (y.map f (fun _ => id) n).resolve c s = (y.resolve c s).map f (fun _ => id) n := by
  cases y with
  | expression e | print e => simp only [Stmt.map, Stmt.resolve, e.resolve_map hf]
  | varDecl name e =>
      simp only [Stmt.map, Stmt.resolve, ← (hf name).lexeme, Expr.resolveOption_map hf]
  | block body => simp only [Stmt.map, Stmt.resolve, Stmt.resolveAll_map hf c s.block (n + 1) body]
  | ifThen e a | whileLoop e a =>
      simp only [Stmt.map, Stmt.resolve, e.resolve_map hf, Stmt.resolve_map hf c s n a]
  | ifElse e a b =>
      simp only [Stmt.map, Stmt.resolve, e.resolve_map hf, Stmt.resolve_map hf c s n a,
        Stmt.resolve_map hf c s n b]
  | function d =>
      simp only [Stmt.map, Stmt.resolve, ← (d.alike_name_map hf n).lexeme,
        FunDecl.resolve_map hf c (s.define d.name.lexeme) n d]
  | ret keyword e => simp only [Stmt.map, Stmt.resolve, Expr.resolveOption_map hf]
  | classDecl name r methods =>
      have hdepth : methodDepth (r.map (Reference.resolve (s.define name.lexeme))) n =
          methodDepth r n := by
        cases r <;> rfl
      simp only [Stmt.map, Stmt.resolve, ← (hf name).lexeme, Reference.resolve_map hf, hdepth,
        Scopes.methods_map_reference, ClassKind.ofSuperclass_map,
        FunDecl.resolveAll_map hf (.ofSuperclass r) ((s.define name.lexeme).methods r)
          (methodDepth r n) methods]

theorem Stmt.resolveAll_map (hf : KeepsTexts f) (c : ClassKind) (s : Scopes) (n : Nat) (ys : List
    (Stmt Unit)) :
    Stmt.resolveAll c s (Stmt.mapAll f (fun _ => id) n ys) =
      Stmt.mapAll f (fun _ => id) n (Stmt.resolveAll c s ys) := by
  cases ys with
  | nil => rfl
  | cons y ys =>
      simp only [Stmt.mapAll, Stmt.resolveAll, y.after_map hf, Stmt.resolve_map hf c s n y,
        Stmt.resolveAll_map hf c (y.after s) n ys]

theorem FunDecl.resolve_map (hf : KeepsTexts f) (c : ClassKind) (s : Scopes) (n : Nat)
    (d : FunDecl Unit) :
    (d.map f (fun _ => id) n).resolve c s = (d.resolve c s).map f (fun _ => id) n := by
  cases d with
  | mk name params body =>
      simp only [FunDecl.map, FunDecl.resolve, Scopes.function_map hf,
        Stmt.resolveAll_map hf c (s.function name params) (n + 1) body]

theorem FunDecl.resolveAll_map (hf : KeepsTexts f) (c : ClassKind) (s : Scopes) (n : Nat)
    (ds : List (FunDecl Unit)) :
    FunDecl.resolveAll c s (FunDecl.mapAll f (fun _ => id) n ds) =
      FunDecl.mapAll f (fun _ => id) n (FunDecl.resolveAll c s ds) := by
  cases ds with
  | nil => rfl
  | cons d ds =>
      simp only [FunDecl.mapAll, FunDecl.resolveAll, FunDecl.resolve_map hf c s n d,
        FunDecl.resolveAll_map hf c s n ds]

end

/-! ## Their faults -/

mutual

theorem Expr.scopeFaults_map (hf : KeepsTexts f) (c : ClassKind) (s : Scopes) (e : Expr Unit) :
    (e.map f id).scopeFaults c s = (e.scopeFaults c s).map (.map f) := by
  cases e with
  | literal => rfl
  | var name =>
      simp only [Expr.map, Expr.scopeFaults, ← (hf name).lexeme]
      split <;> rfl
  | thisRef name =>
      simp only [Expr.map, Expr.scopeFaults]
      split <;> rfl
  | superRef name => cases c <;> rfl
  | unary operator a => simp only [Expr.map, Expr.scopeFaults, Expr.scopeFaults_map hf c s a]
  | binary a operator b | logical a operator b | set a operator b =>
      simp only [Expr.map, Expr.scopeFaults, Expr.scopeFaults_map hf c s a,
        Expr.scopeFaults_map hf c s b, List.map_append]
  | conditional a b d =>
      simp only [Expr.map, Expr.scopeFaults, Expr.scopeFaults_map hf c s a,
        Expr.scopeFaults_map hf c s b, Expr.scopeFaults_map hf c s d, List.map_append]
  | grouping a | get a => simp only [Expr.map, Expr.scopeFaults, Expr.scopeFaults_map hf c s a]
  | assign name slot a => simp only [Expr.map, Expr.scopeFaults, Expr.scopeFaults_map hf c s a]
  | call a paren es =>
      simp only [Expr.map, Expr.scopeFaults, Expr.scopeFaults_map hf c s a,
        Expr.scopeFaultsAll_map hf c s es, List.map_append]
  | vector bracket es => simp only [Expr.map, Expr.scopeFaults, Expr.scopeFaultsAll_map hf c s es]

theorem Expr.scopeFaultsAll_map (hf : KeepsTexts f) (c : ClassKind) (s : Scopes) (es : List
    (Expr Unit)) :
    Expr.scopeFaultsAll c s (Expr.mapAll f id es) =
      (Expr.scopeFaultsAll c s es).map (.map f) := by
  cases es with
  | nil => rfl
  | cons e es =>
      simp only [Expr.mapAll, Expr.scopeFaultsAll, Expr.scopeFaults_map hf c s e,
        Expr.scopeFaultsAll_map hf c s es, List.map_append]

end

theorem Expr.scopeFaultsOption_map (hf : KeepsTexts f) (c : ClassKind) (s : Scopes) (e : Option
    (Expr Unit)) :
    Expr.scopeFaultsOption c s (e.map (Expr.map f id)) =
      (Expr.scopeFaultsOption c s e).map (.map f) := by
  cases e with
  | none => rfl
  | some e => exact e.scopeFaults_map hf c s

theorem Scopes.declareFaults_map (hf : KeepsTexts f) (s : Scopes) (name : Token) :
    s.declareFaults (f name) = (s.declareFaults name).map (.map f) := by
  simp only [Scopes.declareFaults, ← (hf name).lexeme]
  split <;> rfl

theorem Scopes.paramFaults_map (hf : KeepsTexts f) (s : Scopes) (params : List Token) :
    s.paramFaults (params.map f) = (s.paramFaults params).map (.map f) := by
  induction params generalizing s with
  | nil => rfl
  | cons p params ih =>
      simp only [List.map_cons, Scopes.paramFaults, Scopes.declareFaults_map hf,
        ← (hf p).lexeme, ih, List.map_append]

theorem Reference.scopeFaults_map (hf : KeepsTexts f) (s : Scopes) (name : Token) (r : Option
    (Reference Unit)) :
    Reference.scopeFaults s (f name) (r.map (Reference.map f id)) =
      (Reference.scopeFaults s name r).map (.map f) := by
  cases r with
  | none => rfl
  | some r =>
      simp only [Option.map_some, Reference.map, Reference.scopeFaults, ← (hf r.name).lexeme,
        ← (hf name).lexeme, List.map_append]
      congr 1
      · split <;> rfl
      · split <;> rfl

theorem returnFaults_map (k : FunctionKind) (keyword : Token) (hasValue : Bool) :
    returnFaults k (f keyword) hasValue = (returnFaults k keyword hasValue).map (.map f) := by
  simp only [returnFaults, List.map_append]
  congr 1
  · split <;> rfl
  · split <;> rfl

mutual

theorem Stmt.scopeFaults_map (hf : KeepsTexts f) (around : Surroundings) (s : Scopes) (n : Nat)
    (y : Stmt Unit) :
    (y.map f (fun _ => id) n).scopeFaults around s = (y.scopeFaults around s).map (.map f) := by
  cases y with
  | expression e | print e => simp only [Stmt.map, Stmt.scopeFaults, e.scopeFaults_map hf]
  | varDecl name e =>
      simp only [Stmt.map, Stmt.scopeFaults, Scopes.declareFaults_map hf, ← (hf name).lexeme,
        Expr.scopeFaultsOption_map hf, List.map_append]
  | block body =>
      simp only [Stmt.map, Stmt.scopeFaults, Stmt.scopeFaultsAll_map hf around s.block (n + 1) body]
  | ifThen e a | whileLoop e a =>
      simp only [Stmt.map, Stmt.scopeFaults, e.scopeFaults_map hf,
        Stmt.scopeFaults_map hf around s n a, List.map_append]
  | ifElse e a b =>
      simp only [Stmt.map, Stmt.scopeFaults, e.scopeFaults_map hf,
        Stmt.scopeFaults_map hf around s n a, Stmt.scopeFaults_map hf around s n b, List.map_append]
  | function d =>
      have hname : (d.map f (fun _ => id) n).name = f d.name := by
        cases d
        rfl
      simp only [Stmt.map, Stmt.scopeFaults, hname, Scopes.declareFaults_map hf,
        ← (hf d.name).lexeme, List.map_append,
        FunDecl.scopeFaults_map hf { around with function := .function }
          (s.define d.name.lexeme) n d]
  | ret keyword e =>
      simp only [Stmt.map, Stmt.scopeFaults, Option.isSome_map, returnFaults_map,
        Expr.scopeFaultsOption_map hf, List.map_append]
  | classDecl name r methods =>
      simp only [Stmt.map, Stmt.scopeFaults, Scopes.declareFaults_map hf, ← (hf name).lexeme,
        Reference.scopeFaults_map hf, Scopes.methods_map_reference, ClassKind.ofSuperclass_map,
        FunDecl.scopeFaultsAll_map hf (.ofSuperclass r) ((s.define name.lexeme).methods r)
          (methodDepth r n) methods, List.map_append]

theorem Stmt.scopeFaultsAll_map (hf : KeepsTexts f) (around : Surroundings) (s : Scopes) (n : Nat)
    (ys : List (Stmt Unit)) :
    Stmt.scopeFaultsAll around s (Stmt.mapAll f (fun _ => id) n ys) =
      (Stmt.scopeFaultsAll around s ys).map (.map f) := by
  cases ys with
  | nil => rfl
  | cons y ys =>
      simp only [Stmt.mapAll, Stmt.scopeFaultsAll, y.after_map hf,
        Stmt.scopeFaults_map hf around s n y, Stmt.scopeFaultsAll_map hf around (y.after s) n ys,
        List.map_append]

theorem FunDecl.scopeFaults_map (hf : KeepsTexts f) (around : Surroundings) (s : Scopes) (n : Nat)
    (d : FunDecl Unit) :
    (d.map f (fun _ => id) n).scopeFaults around s = (d.scopeFaults around s).map (.map f) := by
  cases d with
  | mk name params body =>
      simp only [FunDecl.map, FunDecl.scopeFaults, Scopes.function_map hf, ← (hf name).lexeme,
        Scopes.paramFaults_map hf, List.map_append,
        Stmt.scopeFaultsAll_map hf around (s.function name params) (n + 1) body]

theorem FunDecl.scopeFaultsAll_map (hf : KeepsTexts f) (c : ClassKind) (s : Scopes) (n : Nat)
    (ds : List (FunDecl Unit)) :
    FunDecl.scopeFaultsAll c s (FunDecl.mapAll f (fun _ => id) n ds) =
      (FunDecl.scopeFaultsAll c s ds).map (.map f) := by
  cases ds with
  | nil => rfl
  | cons d ds =>
      simp only [FunDecl.mapAll, FunDecl.scopeFaultsAll, ← (d.alike_name_map hf n).lexeme,
        FunDecl.scopeFaults_map hf ⟨.ofMethod d.name.lexeme, c⟩ s n d,
        FunDecl.scopeFaultsAll_map hf c s n ds, List.map_append]

end

/-! ## Programs one after the other -/

/-- Outside of all scopes a statement declares nothing. -/
theorem Stmt.after_nil {δ : Type} (y : Stmt δ) : y.after [] = [] := by
  cases y <;> rfl

theorem Stmt.resolveAll_append (c : ClassKind) (ys zs : List (Stmt Unit)) :
    Stmt.resolveAll c [] (ys ++ zs) = Stmt.resolveAll c [] ys ++ Stmt.resolveAll c [] zs := by
  induction ys with
  | nil => rfl
  | cons y ys ih => rw [List.cons_append, resolveAll, resolveAll, after_nil, ih, List.cons_append]

theorem Stmt.scopeFaultsAll_append (around : Surroundings) (ys zs : List (Stmt Unit)) :
    Stmt.scopeFaultsAll around [] (ys ++ zs) =
      Stmt.scopeFaultsAll around [] ys ++ Stmt.scopeFaultsAll around [] zs := by
  induction ys with
  | nil => rfl
  | cons y ys ih =>
      rw [List.cons_append, scopeFaultsAll, scopeFaultsAll, after_nil, ih, List.append_assoc]

end Lox
