import Lox.Proofs.Renaming.Occurrences
import Lox.Resolve

/-!
# The names of local variables

The token that declares a local variable is one of the program, and a name. So are all
occurrences of the variable. The tree of a program does not tell the kinds of its tokens,
so this is shown along the derivation of the tree.
-/

namespace Lox

/-- The tokens are names among the others. -/
def NamesAmong (ts names : List Token) : Prop :=
  ∀ t ∈ names, t ∈ ts ∧ t.kind = .identifier

section

variable {ts us names names' : List Token} {t : Token}

theorem namesAmong_nil : NamesAmong ts [] :=
  fun _ ht => absurd ht List.not_mem_nil

theorem NamesAmong.mono (h : NamesAmong ts names) (hsub : ts ⊆ us) : NamesAmong us names :=
  fun t ht => ⟨hsub (h t ht).1, (h t ht).2⟩

theorem NamesAmong.append (h : NamesAmong ts names) (h' : NamesAmong ts names') :
    NamesAmong ts (names ++ names') :=
  List.forall_mem_append.mpr ⟨h, h'⟩

theorem NamesAmong.left (h : NamesAmong ts names) : NamesAmong (ts ++ us) names :=
  h.mono (List.subset_append_left ts us)

theorem NamesAmong.right (h : NamesAmong us names) : NamesAmong (ts ++ us) names :=
  h.mono (List.subset_append_right ts us)

theorem NamesAmong.cons (h : NamesAmong ts names) : NamesAmong (t :: ts) names :=
  h.mono (List.subset_cons_self t ts)

end

theorem Stmt.variables_cons {δ : Type} (s : Stmt δ) (rest : List (Stmt δ)) :
    (s :: rest).filterMap Stmt.var? = s.var?.toList ++ rest.filterMap Stmt.var? := by
  rw [List.filterMap_cons]
  cases s.var? <;> rfl

namespace Grammar

variable {rule : ElseRule}

theorem Names.names {ts names : List Token} (h : Names ts names) : NamesAmong ts names := by
  induction h with
  | last hk => exact List.forall_mem_singleton.mpr ⟨List.mem_cons_self, hk⟩
  | more hk _ _ ih => exact List.forall_mem_cons.mpr ⟨⟨List.mem_cons_self, hk⟩, ih.cons.cons⟩

theorem Params.names {ts names : List Token} (h : Params ts names) : NamesAmong ts names := by
  cases h with
  | none => exact namesAmong_nil
  | some h _ => exact h.names

theorem VarDecl.names {ts : List Token} {s : Stmt Unit} (h : VarDecl ts s) :
    NamesAmong ts s.var?.toList ∧ s.locals = [] := by
  cases h with
  | plain _ hn _ => exact ⟨List.forall_mem_singleton.mpr ⟨by simp, hn⟩, rfl⟩
  | initialized _ hn _ _ _ => exact ⟨List.forall_mem_singleton.mpr ⟨by simp, hn⟩, rfl⟩

theorem Statement.var? {isOpen : Bool} {ts : List Token} {s : Stmt Unit}
    (h : Statement rule isOpen ts s) : s.var? = none := by
  rw [Option.eq_none_iff_forall_ne_some]
  intro t ht
  have hdeclared := Stmt.declared_of_variable ht
  rw [h.declared?] at hdeclared
  cases hdeclared

theorem Declaration.var? {isOpen : Bool} {ts : List Token} {s : Stmt Unit}
    (h : Declaration rule isOpen ts s) : NamesAmong ts s.var?.toList := by
  cases h with
  | classDecl | function => exact namesAmong_nil
  | var h => exact h.names.1
  | statement h =>
      rw [h.var?]
      exact namesAmong_nil

theorem ForInitializer.names {ts : List Token} {s : Option (Stmt Unit)}
    (h : ForInitializer ts s) :
    ∀ stmt ∈ s, NamesAmong ts stmt.var?.toList ∧ stmt.locals = [] := by
  cases h with
  | none => exact fun _ hs => nomatch hs
  | var h =>
      intro stmt hs
      cases hs
      exact h.names
  | expression h =>
      intro stmt hs
      cases hs
      cases h
      exact ⟨namesAmong_nil, rfl⟩

/-- In the loop that stands for a `for` statement the initializer is a declaration in a
block. -/
theorem whileForm_locals {ts : List Token} {initializer : Option (Stmt Unit)}
    (condition increment : Option (Expr Unit)) {body : Stmt Unit}
    (hi : ∀ s ∈ initializer, NamesAmong ts s.var?.toList ∧ s.locals = [])
    (hb : NamesAmong ts body.locals) (hvariable : body.var? = none) :
    NamesAmong ts (whileForm initializer condition increment body).locals := by
  have hloop : ∀ c, NamesAmong ts (Stmt.whileLoop c
      (increment.elim body fun e => .block [body, .expression e])).locals := by
    intro c
    cases increment with
    | none => exact hb
    | some e =>
        have hexpression : (Stmt.expression e).var? = none := rfl
        have hround : (Stmt.block [body, .expression e]).locals = body.locals := by
          simp [Stmt.locals, Stmt.localsAll, scopeVariables, hvariable, hexpression]
        exact hround.symm ▸ hb
  cases initializer with
  | none => exact hloop _
  | some s =>
      obtain ⟨hs, hnone⟩ := hi s rfl
      have hblock : ∀ c round, (Stmt.block [s, .whileLoop c round]).locals =
          s.var?.toList ++ (Stmt.whileLoop c round).locals := by
        intro c round
        have hnext : (Stmt.whileLoop c round).var? = none := rfl
        simp [Stmt.locals, Stmt.localsAll, scopeVariables, Stmt.variables_cons, hnext, hnone]
      exact (hblock _ _).symm ▸ hs.append (hloop _)

mutual

theorem Declaration.locals {isOpen : Bool} {ts : List Token} {s : Stmt Unit}
    (h : Declaration rule isOpen ts s) : NamesAmong ts s.locals := by
  match h with
  | .classDecl _ _ _ _ hms _ => exact hms.locals.cons.right.left
  | .function _ h => exact h.locals.cons
  | .var h =>
      rw [h.names.2]
      exact namesAmong_nil
  | .statement h => exact h.locals

theorem Function.locals {ts : List Token} {f : FunDecl Unit} (h : Function rule ts f) :
    NamesAmong ts f.locals := by
  match h with
  | .mk _ _ hp _ hbody =>
      obtain ⟨hvariables, hlocals⟩ := hbody.locals
      exact (hp.names.cons.cons.left.append hvariables.cons.right).append hlocals.cons.right

theorem Functions.locals {ts : List Token} {fs : List (FunDecl Unit)}
    (h : Functions rule ts fs) : NamesAmong ts (FunDecl.localsAll fs) := by
  match h with
  | .nil => exact namesAmong_nil
  | .cons h hrest => exact h.locals.left.append hrest.locals.right

theorem Block.locals {ts : List Token} {body : List (Stmt Unit)} (h : Block rule ts body) :
    NamesAmong ts (body.filterMap Stmt.var?) ∧ NamesAmong ts (Stmt.localsAll body) := by
  match h with
  | .mk _ h _ => exact ⟨h.locals.1.cons.left, h.locals.2.cons.left⟩

theorem Declarations.locals {ts : List Token} {body : List (Stmt Unit)}
    (h : Declarations rule ts body) :
    NamesAmong ts (body.filterMap Stmt.var?) ∧ NamesAmong ts (Stmt.localsAll body) := by
  match h with
  | .nil => exact ⟨namesAmong_nil, namesAmong_nil⟩
  | .cons h hrest =>
      rw [Stmt.variables_cons]
      exact ⟨h.var?.left.append hrest.locals.1.right,
        h.locals.left.append hrest.locals.2.right⟩

theorem Statement.locals {isOpen : Bool} {ts : List Token} {s : Stmt Unit}
    (h : Statement rule isOpen ts s) : NamesAmong ts s.locals := by
  match h with
  | .expression h =>
      cases h
      exact namesAmong_nil
  | .print .. | .ret .. => exact namesAmong_nil
  | .block h => exact h.locals.1.append h.locals.2
  | .whileLoop _ _ _ _ h | .ifThen _ _ _ _ h => exact h.locals.cons.right
  | .forLoop _ _ hi _ _ _ _ h =>
      refine whileForm_locals _ _ (fun s hs => ?_) h.locals.cons.right h.var?
      exact ⟨(hi.names s hs).1.cons.cons.left.left.left, (hi.names s hs).2⟩
  | .ifElse _ _ _ _ hthen _ _ helse =>
      exact hthen.locals.cons.right.left.append helse.locals.cons.right

end

theorem Program.locals {ts : List Token} {p : List (Stmt Unit)} (h : Program rule ts p) :
    NamesAmong ts (Stmt.localsAll p) := by
  induction h with
  | finish => exact namesAmong_nil
  | semicolon _ _ ih => exact ih.cons
  | declaration h _ ih => exact h.locals.left.append ih.right

end Grammar

/-! ## Resolved programs -/

section

variable (c : ClassKind) (s : Scopes)

mutual

theorem Expr.tokens_resolve (e : Expr Unit) : (e.resolve c s).tokens = e.tokens := by
  cases e with
  | literal | var | thisRef | superRef => rfl
  | unary _ a => exact congrArg _ (Expr.tokens_resolve a)
  | binary a _ b | logical a _ b =>
      simp only [Expr.resolve, Expr.tokens, Expr.tokens_resolve a, Expr.tokens_resolve b]
  | conditional a b d =>
      simp only [Expr.resolve, Expr.tokens, Expr.tokens_resolve a, Expr.tokens_resolve b,
        Expr.tokens_resolve d]
  | grouping a => exact Expr.tokens_resolve a
  | assign _ _ a => exact congrArg _ (Expr.tokens_resolve a)
  | call a _ es =>
      simp only [Expr.resolve, Expr.tokens, Expr.tokens_resolve a, Expr.tokensAll_resolve es]
  | get a _ => exact congrArg _ (Expr.tokens_resolve a)
  | set a _ b =>
      simp only [Expr.resolve, Expr.tokens, Expr.tokens_resolve a, Expr.tokens_resolve b]
  | vector _ es => exact congrArg _ (Expr.tokensAll_resolve es)

theorem Expr.tokensAll_resolve (es : List (Expr Unit)) :
    Expr.tokensAll (Expr.resolveAll c s es) = Expr.tokensAll es := by
  cases es with
  | nil => rfl
  | cons e rest =>
      simp only [Expr.resolveAll, Expr.tokensAll, Expr.tokens_resolve e,
        Expr.tokensAll_resolve rest]

end

theorem Expr.tokensOption_resolve (e : Option (Expr Unit)) :
    Expr.tokensOption (e.map (Expr.resolve c s)) = Expr.tokensOption e := by
  cases e with
  | none => rfl
  | some e => exact Expr.tokens_resolve c s e

end

theorem Stmt.variables_resolve (c : ClassKind) (s : Scopes) (body : List (Stmt Unit)) :
    (Stmt.resolveAll c s body).filterMap Stmt.var? = body.filterMap Stmt.var? := by
  induction body generalizing s with
  | nil => rfl
  | cons y rest ih =>
      rw [Stmt.resolveAll, Stmt.variables_cons, Stmt.variables_cons, ih]
      cases y <;> rfl

mutual

/-- Resolution changes no token, and no variable. -/
theorem Stmt.names_resolve (c : ClassKind) (s : Scopes) (y : Stmt Unit) :
    (y.resolve c s).tokens = y.tokens ∧ (y.resolve c s).locals = y.locals := by
  cases y with
  | expression e | print e => exact ⟨e.tokens_resolve c s, rfl⟩
  | varDecl t e => exact ⟨congrArg _ (Expr.tokensOption_resolve c _ e), rfl⟩
  | block body =>
      obtain ⟨htokens, hlocals⟩ := Stmt.namesAll_resolve c s.block body
      refine ⟨htokens, ?_⟩
      simp only [Stmt.resolve, Stmt.locals, scopeVariables, Stmt.variables_resolve, hlocals]
  | ifThen e a | whileLoop e a =>
      obtain ⟨htokens, hlocals⟩ := Stmt.names_resolve c s a
      refine ⟨?_, hlocals⟩
      simp only [Stmt.resolve, Stmt.tokens, e.tokens_resolve c s, htokens]
  | ifElse e a b =>
      obtain ⟨htokens, hlocals⟩ := Stmt.names_resolve c s a
      obtain ⟨htokens', hlocals'⟩ := Stmt.names_resolve c s b
      constructor
      · simp only [Stmt.resolve, Stmt.tokens, e.tokens_resolve c s, htokens, htokens']
      · simp only [Stmt.resolve, Stmt.locals, hlocals, hlocals']
  | function d => exact FunDecl.names_resolve c _ d
  | ret t e => exact ⟨congrArg _ (Expr.tokensOption_resolve c s e), rfl⟩
  | classDecl t superclass methods =>
      obtain ⟨htokens, hlocals⟩ := FunDecl.namesAll_resolve (.ofSuperclass superclass)
        ((s.define t.lexeme).methods superclass) methods
      refine ⟨?_, hlocals⟩
      simp only [Stmt.resolve, Stmt.tokens, htokens]
      cases superclass <;> rfl

theorem Stmt.namesAll_resolve (c : ClassKind) (s : Scopes) (ys : List (Stmt Unit)) :
    Stmt.tokensAll (Stmt.resolveAll c s ys) = Stmt.tokensAll ys ∧
      Stmt.localsAll (Stmt.resolveAll c s ys) = Stmt.localsAll ys := by
  cases ys with
  | nil => exact ⟨rfl, rfl⟩
  | cons y rest =>
      obtain ⟨htokens, hlocals⟩ := Stmt.names_resolve c s y
      obtain ⟨htokens', hlocals'⟩ := Stmt.namesAll_resolve c (y.after s) rest
      constructor
      · simp only [Stmt.resolveAll, Stmt.tokensAll, htokens, htokens']
      · simp only [Stmt.resolveAll, Stmt.localsAll, hlocals, hlocals']

theorem FunDecl.names_resolve (c : ClassKind) (s : Scopes) (d : FunDecl Unit) :
    (d.resolve c s).tokens = d.tokens ∧ (d.resolve c s).locals = d.locals := by
  cases d with
  | mk t params body =>
      obtain ⟨htokens, hlocals⟩ := Stmt.namesAll_resolve c (s.function t params) body
      constructor
      · simp only [FunDecl.resolve, FunDecl.tokens, htokens]
      · simp only [FunDecl.resolve, FunDecl.locals, scopeVariables, Stmt.variables_resolve, hlocals]

theorem FunDecl.namesAll_resolve (c : ClassKind) (s : Scopes) (ds : List (FunDecl Unit)) :
    FunDecl.tokensAll (FunDecl.resolveAll c s ds) = FunDecl.tokensAll ds ∧
      FunDecl.localsAll (FunDecl.resolveAll c s ds) = FunDecl.localsAll ds := by
  cases ds with
  | nil => exact ⟨rfl, rfl⟩
  | cons d rest =>
      obtain ⟨htokens, hlocals⟩ := FunDecl.names_resolve c s d
      obtain ⟨htokens', hlocals'⟩ := FunDecl.namesAll_resolve c s rest
      constructor
      · simp only [FunDecl.resolveAll, FunDecl.tokensAll, htokens, htokens']
      · simp only [FunDecl.resolveAll, FunDecl.localsAll, hlocals, hlocals']

end

end Lox
