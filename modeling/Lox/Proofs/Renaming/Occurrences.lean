import Lox.Proofs.Joining.Reading
import Lox.Proofs.Tokens
import Lox.Proofs.WellFormed
import Mathlib.Data.List.Nodup

/-!
# The occurrences of a local variable

A local variable is declared by one token of a program. It occurs there, and wherever the
program reads it or assigns to it: where a reference has its name, and a slot that leads
to the scope that declares it.

Which scopes around a place in the text are that scope is told by a list of levels, the
innermost first. At most one of them is.
-/

namespace Lox

/-- Where a token stands. -/
def Token.position (t : Token) : Position :=
  ⟨t.line.toNat, t.column.toNat⟩

/-- Is this the same token of a source? -/
def Token.same (t u : Token) : Bool :=
  t.lexeme = u.lexeme ∧ t.position = u.position

/-- Does the slot lead to a level that is marked? -/
def leadsTo (levels : List Bool) (slot : Slot) : Bool :=
  slot.any fun d => levels.getD d false

/-! ## Declarations -/

/-- The variable that a statement declares. -/
def Stmt.var? {δ : Type} : Stmt δ → Option Token
  | .varDecl name _ => some name
  | _ => none

theorem Stmt.declared_of_variable {δ : Type} {s : Stmt δ} {t : Token} (h : t ∈ s.var?) :
    t ∈ s.declared? := by
  cases s with
  | varDecl => exact h
  | _ => cases h

/-- The variables of a scope: the parameters, and those that its statements declare. -/
def scopeVariables {δ : Type} (params : List Token) (body : List (Stmt δ)) : List Token :=
  params ++ body.filterMap Stmt.var?

section

variable {δ : Type}

mutual

/-- The variables and parameters that are declared in a scope inside the statement. -/
def Stmt.locals : Stmt δ → List Token
  | .block body => scopeVariables [] body ++ Stmt.localsAll body
  | .ifThen _ thenBranch => thenBranch.locals
  | .ifElse _ thenBranch elseBranch => thenBranch.locals ++ elseBranch.locals
  | .whileLoop _ body => body.locals
  | .function f => f.locals
  | .classDecl _ _ methods => FunDecl.localsAll methods
  | _ => []

def Stmt.localsAll : List (Stmt δ) → List Token
  | [] => []
  | s :: rest => s.locals ++ Stmt.localsAll rest

def FunDecl.locals : FunDecl δ → List Token
  | .mk _ params body => scopeVariables params body ++ Stmt.localsAll body

def FunDecl.localsAll : List (FunDecl δ) → List Token
  | [] => []
  | f :: rest => f.locals ++ FunDecl.localsAll rest

end

end

/-! ## Occurrences -/

section

variable (decl : Token)

/-- The reference, if it is one to the variable. -/
def usesOf (levels : List Bool) (t : Token) (slot : Slot) : List Token :=
  if t.lexeme = decl.lexeme ∧ leadsTo levels slot then [t] else []

mutual

/-- The references to the variable in an expression. -/
def Expr.uses (levels : List Bool) : Expr Slot → List Token
  | .literal _ => []
  | .unary _ operand => operand.uses levels
  | .binary left _ right => left.uses levels ++ right.uses levels
  | .logical left _ right => left.uses levels ++ right.uses levels
  | .conditional condition thenBranch elseBranch =>
    condition.uses levels ++ (thenBranch.uses levels ++ elseBranch.uses levels)
  | .grouping inner => inner.uses levels
  | .var name slot => usesOf decl levels name slot
  | .assign name slot value => usesOf decl levels name slot ++ value.uses levels
  | .call callee _ arguments => callee.uses levels ++ Expr.usesAll levels arguments
  | .get object _ => object.uses levels
  | .set object _ value => object.uses levels ++ value.uses levels
  | .thisRef _ _ => []
  | .superRef _ _ _ => []
  | .vector _ elements => Expr.usesAll levels elements

def Expr.usesAll (levels : List Bool) : List (Expr Slot) → List Token
  | [] => []
  | e :: rest => e.uses levels ++ Expr.usesAll levels rest

end

def Expr.usesOption (levels : List Bool) : Option (Expr Slot) → List Token
  | none => []
  | some e => e.uses decl levels

def Reference.uses (levels : List Bool) : Option (Reference Slot) → List Token
  | none => []
  | some r => usesOf decl levels r.name r.slot

/-- Does the scope declare the var? -/
def declares {δ : Type} (params : List Token) (body : List (Stmt δ)) : Bool :=
  (scopeVariables params body).any (·.same decl)

/-- The levels of the methods of a class: the scopes of `this` and `super` declare no
variables. -/
def methodLevels {δ : Type} (superclass : Option (Reference δ)) (levels : List Bool) :
    List Bool :=
  false :: (if superclass.isSome then false :: levels else levels)

mutual

/-- The occurrences of the variable in a statement. -/
def Stmt.occurrences (levels : List Bool) : Stmt Slot → List Token
  | .expression e => e.uses decl levels
  | .print e => e.uses decl levels
  | .varDecl name initializer =>
    (if levels.headD false ∧ name.same decl then [name] else []) ++
      Expr.usesOption decl levels initializer
  | .block body => Stmt.occurrencesAll (declares decl [] body :: levels) body
  | .ifThen condition thenBranch => condition.uses decl levels ++ thenBranch.occurrences levels
  | .ifElse condition thenBranch elseBranch =>
    condition.uses decl levels ++
      (thenBranch.occurrences levels ++ elseBranch.occurrences levels)
  | .whileLoop condition body => condition.uses decl levels ++ body.occurrences levels
  | .function f => f.occurrences levels
  | .ret _ value => Expr.usesOption decl levels value
  | .classDecl _ superclass methods =>
    Reference.uses decl levels superclass ++
      FunDecl.occurrencesAll (methodLevels superclass levels) methods

def Stmt.occurrencesAll (levels : List Bool) : List (Stmt Slot) → List Token
  | [] => []
  | s :: rest => s.occurrences levels ++ Stmt.occurrencesAll levels rest

def FunDecl.occurrences (levels : List Bool) : FunDecl Slot → List Token
  | .mk _ params body =>
    params.filter (·.same decl) ++ Stmt.occurrencesAll (declares decl params body :: levels) body

def FunDecl.occurrencesAll (levels : List Bool) : List (FunDecl Slot) → List Token
  | [] => []
  | f :: rest => f.occurrences levels ++ FunDecl.occurrencesAll levels rest

end

end

/-! ## Occurrences are tokens -/

/-- The occurrences are among the tokens, and have the name of the variable. -/
def Within (decl : Token) (os ts : List Token) : Prop :=
  ∀ t ∈ os, t ∈ ts ∧ t.lexeme = decl.lexeme

section

variable {decl t : Token} {os os' ts ts' : List Token} {levels : List Bool}

theorem within_nil : Within decl [] ts :=
  fun _ ht => absurd ht List.not_mem_nil

theorem Within.cons (h : Within decl os ts) : Within decl os (t :: ts) :=
  fun u hu => ⟨List.mem_cons_of_mem t (h u hu).1, (h u hu).2⟩

theorem Within.append (h : Within decl os ts) (h' : Within decl os' ts') :
    Within decl (os ++ os') (ts ++ ts') := by
  intro t ht
  rcases List.mem_append.mp ht with ht | ht
  · exact ⟨List.mem_append_left _ (h t ht).1, (h t ht).2⟩
  · exact ⟨List.mem_append_right _ (h' t ht).1, (h' t ht).2⟩

theorem within_single {p : Prop} [Decidable p] (h : p → t.lexeme = decl.lexeme) :
    Within decl (if p then [t] else []) [t] := by
  split
  · next hp =>
      intro u hu
      rw [List.mem_singleton.mp hu]
      exact ⟨List.mem_singleton_self t, h hp⟩
  · exact within_nil

theorem within_usesOf (t : Token) (slot : Slot) :
    Within decl (usesOf decl levels t slot) [t] :=
  within_single fun h => h.1

theorem Token.same_iff {u : Token} :
    t.same u = true ↔ t.lexeme = u.lexeme ∧ t.position = u.position :=
  decide_eq_true_iff

theorem within_params (params : List Token) :
    Within decl (params.filter (·.same decl)) params := by
  intro t ht
  obtain ⟨hmem, hsame⟩ := List.mem_filter.mp ht
  exact ⟨hmem, (Token.same_iff.mp hsame).1⟩

end

section

variable {decl : Token}

mutual

theorem Expr.within_uses (levels : List Bool) (e : Expr Slot) :
    Within decl (e.uses decl levels) e.tokens := by
  cases e with
  | literal | thisRef | superRef => exact within_nil
  | unary operator a => exact .cons (Expr.within_uses levels a)
  | binary a operator b | logical a operator b =>
      exact .cons (.append (Expr.within_uses levels a) (Expr.within_uses levels b))
  | conditional a b c =>
      exact .append (Expr.within_uses levels a)
        (.append (Expr.within_uses levels b) (Expr.within_uses levels c))
  | grouping a => exact Expr.within_uses levels a
  | var t slot => exact within_usesOf t slot
  | assign t slot a => exact .append (within_usesOf t slot) (Expr.within_uses levels a)
  | call a paren es =>
      exact .cons (.append (Expr.within_uses levels a) (Expr.within_usesAll levels es))
  | get a name => exact .cons (Expr.within_uses levels a)
  | set a name b => exact .cons (.append (Expr.within_uses levels a) (Expr.within_uses levels b))
  | vector bracket es => exact .cons (Expr.within_usesAll levels es)

theorem Expr.within_usesAll (levels : List Bool) (es : List (Expr Slot)) :
    Within decl (Expr.usesAll decl levels es) (Expr.tokensAll es) := by
  cases es with
  | nil => exact within_nil
  | cons e es => exact .append (Expr.within_uses levels e) (Expr.within_usesAll levels es)

end

theorem Expr.within_usesOption (levels : List Bool) (e : Option (Expr Slot)) :
    Within decl (Expr.usesOption decl levels e) (Expr.tokensOption e) := by
  cases e with
  | none => exact within_nil
  | some e => exact e.within_uses levels

theorem Reference.within_uses (levels : List Bool) (r : Option (Reference Slot)) :
    Within decl (Reference.uses decl levels r) (r.toList.map (·.name)) := by
  cases r with
  | none => exact within_nil
  | some r => exact within_usesOf r.name r.slot

mutual

theorem Stmt.within_occurrences (levels : List Bool) (s : Stmt Slot) :
    Within decl (s.occurrences decl levels) s.tokens := by
  cases s with
  | expression e | print e => exact e.within_uses levels
  | varDecl t e =>
      exact .append (within_single fun h => (Token.same_iff.mp h.2).1)
        (Expr.within_usesOption levels e)
  | block body => exact Stmt.within_occurrencesAll _ body
  | ifThen e a | whileLoop e a =>
      exact .append (e.within_uses levels) (Stmt.within_occurrences levels a)
  | ifElse e a b =>
      exact .append (e.within_uses levels)
        (.append (Stmt.within_occurrences levels a) (Stmt.within_occurrences levels b))
  | function d => exact FunDecl.within_occurrences levels d
  | ret keyword e => exact .cons (Expr.within_usesOption levels e)
  | classDecl t r methods =>
      exact .cons (.append (Reference.within_uses levels r)
        (FunDecl.within_occurrencesAll _ methods))

theorem Stmt.within_occurrencesAll (levels : List Bool) (ss : List (Stmt Slot)) :
    Within decl (Stmt.occurrencesAll decl levels ss) (Stmt.tokensAll ss) := by
  cases ss with
  | nil => exact within_nil
  | cons s ss =>
      exact .append (Stmt.within_occurrences levels s) (Stmt.within_occurrencesAll levels ss)

theorem FunDecl.within_occurrences (levels : List Bool) (d : FunDecl Slot) :
    Within decl (d.occurrences decl levels) d.tokens := by
  cases d with
  | mk t params body =>
      exact .cons (.append (within_params params) (Stmt.within_occurrencesAll _ body))

theorem FunDecl.within_occurrencesAll (levels : List Bool) (ds : List (FunDecl Slot)) :
    Within decl (FunDecl.occurrencesAll decl levels ds) (FunDecl.tokensAll ds) := by
  cases ds with
  | nil => exact within_nil
  | cons d ds =>
      exact .append (FunDecl.within_occurrences levels d) (FunDecl.within_occurrencesAll levels ds)

end

end

/-! ## The declaration is an occurrence -/

section

variable {decl : Token} {levels : List Bool}

theorem Token.same_self (t : Token) : t.same t = true :=
  Token.same_iff.mpr ⟨rfl, rfl⟩

theorem Stmt.occurrences_subset {s : Stmt Slot} {body : List (Stmt Slot)} (h : s ∈ body) :
    s.occurrences decl levels ⊆ Stmt.occurrencesAll decl levels body := by
  induction body with
  | nil => exact absurd h List.not_mem_nil
  | cons first rest ih =>
      rcases List.mem_cons.mp h with rfl | h
      · exact List.subset_append_left _ _
      · exact List.subset_append_of_subset_right _ (ih h)

/-- Where a scope declares the variable, it occurs. -/
theorem mem_occurrences_of_scope {params : List Token} {body : List (Stmt Slot)}
    (h : decl ∈ scopeVariables params body) :
    decl ∈ params.filter (·.same decl) ++
      Stmt.occurrencesAll decl (declares decl params body :: levels) body := by
  have hhere : declares decl params body = true :=
    List.any_eq_true.mpr ⟨decl, h, decl.same_self⟩
  rw [hhere, List.mem_append]
  rcases List.mem_append.mp h with h | h
  · exact .inl (List.mem_filter.mpr ⟨h, decl.same_self⟩)
  · obtain ⟨s, hs, hvariable⟩ := List.mem_filterMap.mp h
    refine .inr (Stmt.occurrences_subset hs ?_)
    cases s with
    | varDecl name e =>
        cases hvariable
        rw [Stmt.occurrences, if_pos ⟨rfl, decl.same_self⟩]
        exact List.mem_cons_self
    | _ => cases hvariable

mutual

theorem Stmt.mem_occurrences (levels : List Bool) (s : Stmt Slot) (h : decl ∈ s.locals) :
    decl ∈ s.occurrences decl levels := by
  cases s with
  | block body =>
      rcases List.mem_append.mp h with h | h
      · exact mem_occurrences_of_scope h
      · exact Stmt.mem_occurrencesAll _ body h
  | ifThen _ a | whileLoop _ a => exact List.mem_append_right _ (Stmt.mem_occurrences levels a h)
  | ifElse _ a b =>
      refine List.mem_append_right _ (List.mem_append.mpr ?_)
      exact (List.mem_append.mp h).imp (Stmt.mem_occurrences levels a)
        (Stmt.mem_occurrences levels b)
  | function d => exact FunDecl.mem_occurrences levels d h
  | classDecl _ _ methods => exact List.mem_append_right _ (FunDecl.mem_occurrencesAll _ methods h)
  | _ => exact absurd h List.not_mem_nil

theorem Stmt.mem_occurrencesAll (levels : List Bool) (ss : List (Stmt Slot))
    (h : decl ∈ Stmt.localsAll ss) : decl ∈ Stmt.occurrencesAll decl levels ss := by
  cases ss with
  | nil => exact absurd h List.not_mem_nil
  | cons s ss =>
      refine List.mem_append.mpr ?_
      exact (List.mem_append.mp h).imp (Stmt.mem_occurrences levels s)
        (Stmt.mem_occurrencesAll levels ss)

theorem FunDecl.mem_occurrences (levels : List Bool) (d : FunDecl Slot) (h : decl ∈ d.locals) :
    decl ∈ d.occurrences decl levels := by
  cases d with
  | mk _ params body =>
      rcases List.mem_append.mp h with h | h
      · exact mem_occurrences_of_scope h
      · exact List.mem_append_right _ (Stmt.mem_occurrencesAll _ body h)

theorem FunDecl.mem_occurrencesAll (levels : List Bool) (ds : List (FunDecl Slot))
    (h : decl ∈ FunDecl.localsAll ds) : decl ∈ FunDecl.occurrencesAll decl levels ds := by
  cases ds with
  | nil => exact absurd h List.not_mem_nil
  | cons d ds =>
      refine List.mem_append.mpr ?_
      exact (List.mem_append.mp h).imp (FunDecl.mem_occurrences levels d)
        (FunDecl.mem_occurrencesAll levels ds)

end

end

/-! ## Which tokens of a fragment are occurrences -/

/-- Of the tokens of a fragment, all different, exactly the occurrences are to be replaced.
No token has the name that comes into their place. -/
structure Marked (replaced : Token → Prop) (name : String) (ts os : List Token) : Prop where
  distinct : ts.Nodup
  fresh : ∀ t ∈ ts, t.lexeme ≠ name
  occurs : ∀ t ∈ ts, replaced t ↔ t ∈ os

namespace Marked

variable {replaced : Token → Prop} {name : String} {decl t : Token}
  {os os' ts ts' : List Token}

/-- Parts of a fragment share no tokens, so each has its own occurrences. -/
theorem parts (h : Marked replaced name (ts ++ ts') (os ++ os')) (hos : Within decl os ts)
    (hos' : Within decl os' ts') :
    Marked replaced name ts os ∧ Marked replaced name ts' os' := by
  obtain ⟨hdistinct, hdistinct', hdisjoint⟩ := List.nodup_append.mp h.distinct
  refine ⟨⟨hdistinct, fun t ht => h.fresh t (List.mem_append_left _ ht), fun t ht => ?_⟩,
    ⟨hdistinct', fun t ht => h.fresh t (List.mem_append_right _ ht), fun t ht => ?_⟩⟩
  · rw [h.occurs t (List.mem_append_left _ ht), List.mem_append]
    exact or_iff_left fun hmem => hdisjoint t ht t (hos' t hmem).1 rfl
  · rw [h.occurs t (List.mem_append_right _ ht), List.mem_append]
    exact or_iff_right fun hmem => hdisjoint t (hos t hmem).1 t ht rfl

/-- A token that is no occurrence is kept. -/
theorem keeps (h : Marked replaced name (t :: ts) os) (hos : Within decl os ts) :
    ¬ replaced t ∧ Marked replaced name ts os := by
  have hsplit : Marked replaced name ([t] ++ ts) ([] ++ os) := h
  obtain ⟨ht, hts⟩ := hsplit.parts within_nil hos
  exact ⟨fun hr => absurd ((ht.occurs t List.mem_cons_self).mp hr) List.not_mem_nil, hts⟩

theorem fresh_head (h : Marked replaced name (t :: ts) os) : t.lexeme ≠ name :=
  h.fresh t List.mem_cons_self

variable {levels : List Bool} {s : Stmt Slot} {body : List (Stmt Slot)}

theorem statement (h : Marked replaced name (Stmt.tokensAll body)
    (Stmt.occurrencesAll decl levels body)) (hs : s ∈ body) :
    Marked replaced name s.tokens (s.occurrences decl levels) := by
  induction body with
  | nil => exact absurd hs List.not_mem_nil
  | cons u body ih =>
      obtain ⟨hu, hbody⟩ := h.parts (u.within_occurrences levels)
        (Stmt.within_occurrencesAll levels body)
      rcases List.mem_cons.mp hs with rfl | hs
      · exact hu
      · exact ih hbody hs

/-- A function is no variable, so its name is kept. -/
theorem function_name {d : FunDecl Slot}
    (h : Marked replaced name d.tokens (d.occurrences decl levels)) : ¬ replaced d.name := by
  cases d
  exact (h.keeps (.append (within_params _) (Stmt.within_occurrencesAll _ _))).1

/-- Of the names that statements declare, only those of variables are replaced. -/
theorem declared (h : Marked replaced name s.tokens (s.occurrences decl levels))
    (ht : t ∈ s.declared?) :
    t ∈ s.tokens ∧
      (replaced t ↔ levels.headD false = true ∧ t.same decl = true ∧ t ∈ s.var?) := by
  cases s with
  | varDecl u e =>
      cases ht
      refine ⟨List.mem_cons_self, ?_⟩
      have hsplit : Marked replaced name ([t] ++ Expr.tokensOption e) (_ ++ _) := h
      obtain ⟨hu, _⟩ := hsplit.parts (within_single fun hu => (Token.same_iff.mp hu.2).1)
        (Expr.within_usesOption levels e)
      rw [hu.occurs t List.mem_cons_self]
      split
      · next huse => exact iff_of_true List.mem_cons_self ⟨huse.1, huse.2, rfl⟩
      · next huse => exact iff_of_false List.not_mem_nil fun hmem => huse ⟨hmem.1, hmem.2.1⟩
  | function d =>
      cases ht
      have hmem : d.name ∈ d.tokens := by
        cases d
        exact List.mem_cons_self
      exact ⟨hmem, iff_of_false (function_name h) fun huse => by cases huse.2.2⟩
  | classDecl u r methods =>
      cases ht
      have hkept := (h.keeps (.append (Reference.within_uses levels r)
        (FunDecl.within_occurrencesAll _ methods))).1
      exact ⟨List.mem_cons_self, iff_of_false hkept fun hmem => by cases hmem.2.2⟩
  | _ => cases ht

end Marked

/-- In a scope that declares each name once, the tokens that declare something are
replaced if they have the name of the variable, and the scope is the one that declares
it. -/
theorem Marked.scope {replaced : Token → Prop} {name : String} {decl : Token}
    {params : List Token} {body : List (Stmt Slot)} {levels : List Bool}
    (h : Marked replaced name (params ++ Stmt.tokensAll body)
      (params.filter (·.same decl) ++
        Stmt.occurrencesAll decl (declares decl params body :: levels) body))
    (hdistinct : ((params ++ body.filterMap Stmt.declared?).map (·.lexeme)).Nodup) :
    ∀ t ∈ params ++ body.filterMap Stmt.declared?, t.lexeme ≠ name ∧
      (replaced t ↔ t.lexeme = decl.lexeme ∧ declares decl params body = true) := by
  obtain ⟨hparams, hbody⟩ := h.parts (within_params params) (Stmt.within_occurrencesAll _ body)
  have hkept : ∀ t ∈ params ++ body.filterMap Stmt.declared?, t.lexeme ≠ name ∧
      (replaced t → t.same decl = true ∧ t ∈ scopeVariables params body) := by
    intro t ht
    rcases List.mem_append.mp ht with ht | ht
    · refine ⟨hparams.fresh t ht, fun hr => ?_⟩
      exact ⟨(List.mem_filter.mp ((hparams.occurs t ht).mp hr)).2, List.mem_append_left _ ht⟩
    · obtain ⟨s, hs, ht⟩ := List.mem_filterMap.mp ht
      obtain ⟨htokens, hreplaced⟩ := (hbody.statement hs).declared ht
      refine ⟨(hbody.statement hs).fresh t htokens, fun hr => ?_⟩
      obtain ⟨_, hsame, hvariable⟩ := hreplaced.mp hr
      exact ⟨hsame, List.mem_append_right _ (List.mem_filterMap.mpr ⟨s, hs, hvariable⟩)⟩
  have hreplaced : ∀ t ∈ scopeVariables params body, t.same decl = true → replaced t ∧
      t ∈ params ++ body.filterMap Stmt.declared? := by
    intro t ht hsame
    have hhere : declares decl params body = true := List.any_eq_true.mpr ⟨t, ht, hsame⟩
    rcases List.mem_append.mp ht with ht | ht
    · exact ⟨(hparams.occurs t ht).mpr (List.mem_filter.mpr ⟨ht, hsame⟩),
        List.mem_append_left _ ht⟩
    · obtain ⟨s, hs, ht⟩ := List.mem_filterMap.mp ht
      have hdeclared : t ∈ s.declared? := Stmt.declared_of_variable ht
      exact ⟨((hbody.statement hs).declared hdeclared).2.mpr ⟨hhere, hsame, ht⟩,
        List.mem_append_right _ (List.mem_filterMap.mpr ⟨s, hs, hdeclared⟩)⟩
  intro t ht
  refine ⟨(hkept t ht).1, fun hr => ?_, fun hmem => ?_⟩
  · obtain ⟨hsame, hvariable⟩ := (hkept t ht).2 hr
    exact ⟨(Token.same_iff.mp hsame).1, List.any_eq_true.mpr ⟨t, hvariable, hsame⟩⟩
  · obtain ⟨u, hu, hsame⟩ := List.any_eq_true.mp hmem.2
    obtain ⟨hr, hu⟩ := hreplaced u hu hsame
    have hname : u.lexeme = t.lexeme := (Token.same_iff.mp hsame).1.trans hmem.1.symm
    exact List.inj_on_of_nodup_map hdistinct hu ht hname ▸ hr

end Lox
