import Lox.Proofs.Grammar
import Lox.Proofs.Spelling

/-!
# Well-formed trees

What the trees of a parse have in common, beyond their type: names are no reserved
words, `this` and `super` are spelled so, and no branch of an `if` and no body of a
loop is a declaration. Everything that looks names up relies on it.
-/

namespace Lox

/-- The token is spelled the way tokens of its kind are. -/
def Token.Spelled (t : Token) : Prop :=
  Piece.isSymbol t.kind = true ∨ t.kind = .ofWord t.lexeme

/-- The token is spelled as a name. -/
def Token.IsName (t : Token) : Prop :=
  TokenKind.ofWord t.lexeme = .identifier

namespace Token

variable {t : Token}

theorem Spelled.name (h : t.Spelled) (hk : t.kind = .identifier) : t.IsName := by
  rcases h with h | h
  · rw [hk] at h
    cases h
  · exact h.symm.trans hk

theorem Spelled.this (h : t.Spelled) (hk : t.kind = .thisWord) : t.lexeme = thisName := by
  rcases h with h | h
  · rw [hk] at h
    cases h
  · exact TokenKind.eq_of_ofWord.1 (h.symm.trans hk)

theorem Spelled.super (h : t.Spelled) (hk : t.kind = .superWord) : t.lexeme = superName := by
  rcases h with h | h
  · rw [hk] at h
    cases h
  · exact TokenKind.eq_of_ofWord.2 (h.symm.trans hk)

theorem IsName.ne_this (h : t.IsName) : t.lexeme ≠ thisName := by
  intro heq
  rw [IsName, heq] at h
  exact absurd h (by decide)

theorem IsName.ne_super (h : t.IsName) : t.lexeme ≠ superName := by
  intro heq
  rw [IsName, heq] at h
  exact absurd h (by decide)

end Token

/-- The name that a statement declares in the scope around it. -/
def Stmt.declared? {δ : Type} : Stmt δ → Option Token
  | .varDecl name _ => some name
  | .function f => some f.name
  | .classDecl name _ _ => some name
  | _ => none

/-! ## Trees -/

section

variable {δ : Type}

mutual

def Expr.WellFormed : Expr δ → Prop
  | .literal _ => True
  | .unary _ operand => operand.WellFormed
  | .binary left _ right => left.WellFormed ∧ right.WellFormed
  | .logical left _ right => left.WellFormed ∧ right.WellFormed
  | .conditional condition thenBranch elseBranch =>
    condition.WellFormed ∧ thenBranch.WellFormed ∧ elseBranch.WellFormed
  | .grouping inner => inner.WellFormed
  | .var name _ => name.IsName
  | .assign name _ value => name.IsName ∧ value.WellFormed
  | .call callee _ arguments => callee.WellFormed ∧ Expr.WellFormedAll arguments
  | .get object _ => object.WellFormed
  | .set object _ value => object.WellFormed ∧ value.WellFormed
  | .thisRef keyword _ => keyword.lexeme = thisName
  | .superRef keyword _ _ => keyword.lexeme = superName
  | .vector _ elements => Expr.WellFormedAll elements

def Expr.WellFormedAll : List (Expr δ) → Prop
  | [] => True
  | e :: rest => e.WellFormed ∧ Expr.WellFormedAll rest

end

def Expr.WellFormedOption : Option (Expr δ) → Prop
  | none => True
  | some e => e.WellFormed

mutual

def Stmt.WellFormed : Stmt δ → Prop
  | .expression e => e.WellFormed
  | .print e => e.WellFormed
  | .varDecl name initializer => name.IsName ∧ Expr.WellFormedOption initializer
  | .block body => Stmt.WellFormedAll body
  | .ifThen condition thenBranch =>
    condition.WellFormed ∧ thenBranch.WellFormed ∧ thenBranch.declared? = none
  | .ifElse condition thenBranch elseBranch =>
    condition.WellFormed ∧ (thenBranch.WellFormed ∧ thenBranch.declared? = none) ∧
      elseBranch.WellFormed ∧ elseBranch.declared? = none
  | .whileLoop condition body => condition.WellFormed ∧ body.WellFormed ∧ body.declared? = none
  | .function f => f.WellFormed
  | .ret _ value => Expr.WellFormedOption value
  | .classDecl name superclass methods =>
    name.IsName ∧ (∀ r ∈ superclass, r.name.IsName) ∧ FunDecl.WellFormedAll methods

def Stmt.WellFormedAll : List (Stmt δ) → Prop
  | [] => True
  | s :: rest => s.WellFormed ∧ Stmt.WellFormedAll rest

def FunDecl.WellFormed : FunDecl δ → Prop
  | .mk name params body => name.IsName ∧ (∀ p ∈ params, p.IsName) ∧ Stmt.WellFormedAll body

def FunDecl.WellFormedAll : List (FunDecl δ) → Prop
  | [] => True
  | f :: rest => f.WellFormed ∧ FunDecl.WellFormedAll rest

end

end

/-! ## Derived trees are well-formed -/

namespace Grammar

open Token

theorem chain_node_wellFormed {level : Chain} {left right : Expr Unit} {operator : Token}
    (hl : left.WellFormed) (hr : right.WellFormed) :
    (level.node left operator right).WellFormed := by
  cases level <;> exact ⟨hl, hr⟩

/-- The parts of a list of spelled tokens are spelled. -/
theorem spelled_append {ts us : List Token} (h : ∀ t ∈ ts ++ us, t.Spelled) :
    (∀ t ∈ ts, t.Spelled) ∧ ∀ t ∈ us, t.Spelled :=
  ⟨fun t ht => h t (List.mem_append_left _ ht), fun t ht => h t (List.mem_append_right _ ht)⟩

theorem spelled_cons {t : Token} {ts : List Token} (h : ∀ u ∈ t :: ts, u.Spelled) :
    t.Spelled ∧ ∀ u ∈ ts, u.Spelled :=
  ⟨h t List.mem_cons_self, fun u hu => h u (List.mem_cons_of_mem t hu)⟩

mutual

theorem Assignment.wellFormed {ts : List Token} {e : Expr Unit} (h : Assignment ts e)
    (hs : ∀ t ∈ ts, t.Spelled) : e.WellFormed := by
  match h with
  | .var hn _ hv =>
      have hs' := spelled_cons hs
      exact ⟨hs'.1.name hn, hv.wellFormed (spelled_cons hs'.2).2⟩
  | .property ho _ _ _ hv =>
      have hs' := spelled_append hs
      exact ⟨ho.wellFormed hs'.1,
        hv.wellFormed (spelled_cons (spelled_cons (spelled_cons hs'.2).2).2).2⟩
  | .level h => exact h.wellFormed hs

theorem Level.wellFormed {level : Chain} {ts : List Token} {e : Expr Unit}
    (h : Level level ts e) (hs : ∀ t ∈ ts, t.Spelled) : e.WellFormed := by
  match h with
  | .operand h => exact h.wellFormed hs
  | .step hl _ hr =>
      have hs' := spelled_append hs
      exact chain_node_wellFormed (hl.wellFormed hs'.1) (hr.wellFormed (spelled_cons hs'.2).2)

theorem Operand.wellFormed {level : Chain} {ts : List Token} {e : Expr Unit}
    (h : Operand level ts e) (hs : ∀ t ∈ ts, t.Spelled) : e.WellFormed := by
  match h with
  | .or h => exact h.wellFormed hs
  | .and h => exact h.wellFormed hs
  | .equality h => exact h.wellFormed hs
  | .comparison h => exact h.wellFormed hs
  | .term h => exact h.wellFormed hs
  | .factor h => exact h.wellFormed hs

theorem Conditional.wellFormed {ts : List Token} {e : Expr Unit} (h : Conditional ts e)
    (hs : ∀ t ∈ ts, t.Spelled) : e.WellFormed := by
  match h with
  | .plain h => exact h.wellFormed hs
  | .choice hc _ ha _ hb =>
      have hs' := spelled_append hs
      have hs₁ := spelled_append hs'.1
      exact ⟨hc.wellFormed hs₁.1, ha.wellFormed (spelled_cons hs₁.2).2,
        hb.wellFormed (spelled_cons hs'.2).2⟩

theorem Unary.wellFormed {ts : List Token} {e : Expr Unit} (h : Unary ts e)
    (hs : ∀ t ∈ ts, t.Spelled) : e.WellFormed := by
  match h with
  | .operator _ h => exact h.wellFormed (spelled_cons hs).2
  | .call h => exact h.wellFormed hs

theorem Call.wellFormed {ts : List Token} {e : Expr Unit} (h : Call ts e)
    (hs : ∀ t ∈ ts, t.Spelled) : e.WellFormed := by
  match h with
  | .primary h => exact h.wellFormed hs
  | .call hc _ ha _ =>
      have hs' := spelled_append (spelled_append hs).1
      exact ⟨hc.wellFormed hs'.1, ha.wellFormed (spelled_cons hs'.2).2⟩
  | .property ho _ _ => exact ho.wellFormed (spelled_append hs).1

theorem Arguments.wellFormed {ts : List Token} {es : List (Expr Unit)} (h : Arguments ts es)
    (hs : ∀ t ∈ ts, t.Spelled) : Expr.WellFormedAll es := by
  match h with
  | .none => trivial
  | .some h _ => exact h.wellFormed hs

theorem Items.wellFormed {ts : List Token} {es : List (Expr Unit)} (h : Items ts es)
    (hs : ∀ t ∈ ts, t.Spelled) : Expr.WellFormedAll es := by
  match h with
  | .last h => exact ⟨h.wellFormed hs, trivial⟩
  | .more h _ hrest =>
      have hs' := spelled_append hs
      exact ⟨h.wellFormed hs'.1, hrest.wellFormed (spelled_cons hs'.2).2⟩

theorem Primary.wellFormed {ts : List Token} {e : Expr Unit} (h : Primary ts e)
    (hs : ∀ t ∈ ts, t.Spelled) : e.WellFormed := by
  match h with
  | .number _ => trivial
  | .string _ => trivial
  | .true _ => trivial
  | .false _ => trivial
  | .nil _ => trivial
  | .this hk => exact (spelled_cons hs).1.this hk
  | .identifier hk => exact (spelled_cons hs).1.name hk
  | .grouping _ h _ => exact h.wellFormed (spelled_cons (spelled_append hs).1).2
  | .super hk _ _ => exact (spelled_cons hs).1.super hk
  | .vector _ h _ => exact h.wellFormed (spelled_cons (spelled_append hs).1).2

end

theorem Names.wellFormed {ts names : List Token} (h : Names ts names)
    (hs : ∀ t ∈ ts, t.Spelled) : ∀ name ∈ names, name.IsName := by
  induction h with
  | last hk =>
      intro name hmem
      rw [List.mem_singleton.mp hmem]
      exact (spelled_cons hs).1.name hk
  | more hk _ _ ih =>
      have hs' := spelled_cons hs
      intro name hmem
      rcases List.mem_cons.mp hmem with rfl | hmem
      · exact hs'.1.name hk
      · exact ih (spelled_cons hs'.2).2 name hmem

theorem Params.wellFormed {ts names : List Token} (h : Params ts names)
    (hs : ∀ t ∈ ts, t.Spelled) : ∀ name ∈ names, name.IsName := by
  cases h with
  | none => exact fun _ hmem => nomatch hmem
  | some h _ => exact h.wellFormed hs

theorem Optional.wellFormed {ts : List Token} {e : Option (Expr Unit)} (h : Optional ts e)
    (hs : ∀ t ∈ ts, t.Spelled) : Expr.WellFormedOption e := by
  cases h with
  | none => trivial
  | some h => exact h.wellFormed hs

theorem VarDecl.wellFormed {ts : List Token} {s : Stmt Unit} (h : VarDecl ts s)
    (hs : ∀ t ∈ ts, t.Spelled) : s.WellFormed := by
  cases h with
  | plain _ hn _ => exact ⟨(spelled_cons (spelled_cons hs).2).1.name hn, trivial⟩
  | initialized _ hn _ h _ =>
      have hs' := spelled_cons (spelled_cons (spelled_append hs).1).2
      exact ⟨hs'.1.name hn, h.wellFormed (spelled_cons hs'.2).2⟩

theorem ExpressionStatement.wellFormed {ts : List Token} {s : Stmt Unit}
    (h : ExpressionStatement ts s) (hs : ∀ t ∈ ts, t.Spelled) : s.WellFormed := by
  cases h with
  | mk h _ => exact h.wellFormed (spelled_append hs).1

theorem ForInitializer.wellFormed {ts : List Token} {s : Option (Stmt Unit)}
    (h : ForInitializer ts s) (hs : ∀ t ∈ ts, t.Spelled) : ∀ stmt ∈ s, stmt.WellFormed := by
  cases h with
  | none _ => exact fun _ hmem => nomatch hmem
  | var h =>
      intro _ hmem
      cases hmem
      exact h.wellFormed hs
  | expression h =>
      intro _ hmem
      cases hmem
      exact h.wellFormed hs

theorem Superclass.wellFormed {ts : List Token} {r : Option (Reference Unit)}
    (h : Superclass ts r) (hs : ∀ t ∈ ts, t.Spelled) : ∀ parent ∈ r, parent.name.IsName := by
  cases h with
  | none => exact fun _ hmem => nomatch hmem
  | some _ hn =>
      intro _ hmem
      cases hmem
      exact (spelled_cons (spelled_cons hs).2).1.name hn

theorem whileForm_declared? (initializer : Option (Stmt Unit))
    (condition increment : Option (Expr Unit)) (body : Stmt Unit) :
    (whileForm initializer condition increment body).declared? = none := by
  cases initializer <;> rfl

theorem whileForm_wellFormed {initializer : Option (Stmt Unit)}
    {condition increment : Option (Expr Unit)} {body : Stmt Unit}
    (hi : ∀ s ∈ initializer, s.WellFormed) (hc : Expr.WellFormedOption condition)
    (hinc : Expr.WellFormedOption increment) (hb : body.WellFormed)
    (hd : body.declared? = none) :
    (whileForm initializer condition increment body).WellFormed := by
  have hcondition : (condition.getD (.literal (.bool true))).WellFormed := by
    cases condition with
    | none => trivial
    | some e => exact hc
  have hloop : (Stmt.whileLoop (condition.getD (.literal (.bool true)))
      (increment.elim body fun e => .block [body, .expression e])).WellFormed := by
    cases increment with
    | none => exact ⟨hcondition, hb, hd⟩
    | some e => exact ⟨hcondition, ⟨hb, hinc, trivial⟩, rfl⟩
  cases initializer with
  | none => exact hloop
  | some s => exact ⟨hi s rfl, hloop, trivial⟩

theorem Statement.declared? {rule : ElseRule} {isOpen : Bool} {ts : List Token} {s : Stmt Unit}
    (h : Statement rule isOpen ts s) : s.declared? = none := by
  cases h with
  | expression h => cases h; rfl
  | forLoop => exact whileForm_declared? _ _ _ _
  | print | ret | block | whileLoop | ifThen | ifElse => rfl

mutual

theorem Declaration.wellFormed {rule : ElseRule} {isOpen : Bool} {ts : List Token}
    {s : Stmt Unit} (h : Declaration rule isOpen ts s) (hs : ∀ t ∈ ts, t.Spelled) :
    s.WellFormed := by
  match h with
  | .classDecl _ hn hp _ hms _ =>
      have hs' := spelled_append (spelled_append hs).1
      have hhead := spelled_cons (spelled_cons hs'.1).2
      exact ⟨hhead.1.name hn, hp.wellFormed hhead.2, hms.wellFormed (spelled_cons hs'.2).2⟩
  | .function _ hf => exact hf.wellFormed (spelled_cons hs).2
  | .var h => exact h.wellFormed hs
  | .statement h => exact h.wellFormed hs

theorem Function.wellFormed {rule : ElseRule} {ts : List Token} {f : FunDecl Unit}
    (h : Function rule ts f) (hs : ∀ t ∈ ts, t.Spelled) : f.WellFormed := by
  match h with
  | .mk hn _ hp _ hbody =>
      have hs' := spelled_append hs
      have hhead := spelled_cons hs'.1
      exact ⟨hhead.1.name hn, hp.wellFormed (spelled_cons hhead.2).2,
        hbody.wellFormed (spelled_cons hs'.2).2⟩

theorem Functions.wellFormed {rule : ElseRule} {ts : List Token} {fs : List (FunDecl Unit)}
    (h : Functions rule ts fs) (hs : ∀ t ∈ ts, t.Spelled) : FunDecl.WellFormedAll fs := by
  match h with
  | .nil => trivial
  | .cons hf hfs =>
      have hs' := spelled_append hs
      exact ⟨hf.wellFormed hs'.1, hfs.wellFormed hs'.2⟩

theorem Block.wellFormed {rule : ElseRule} {ts : List Token} {body : List (Stmt Unit)}
    (h : Block rule ts body) (hs : ∀ t ∈ ts, t.Spelled) : Stmt.WellFormedAll body := by
  match h with
  | .mk _ h _ => exact h.wellFormed (spelled_cons (spelled_append hs).1).2

theorem Declarations.wellFormed {rule : ElseRule} {ts : List Token} {body : List (Stmt Unit)}
    (h : Declarations rule ts body) (hs : ∀ t ∈ ts, t.Spelled) : Stmt.WellFormedAll body := by
  match h with
  | .nil => trivial
  | .cons h hrest =>
      have hs' := spelled_append hs
      exact ⟨h.wellFormed hs'.1, hrest.wellFormed hs'.2⟩

theorem Statement.wellFormed {rule : ElseRule} {isOpen : Bool} {ts : List Token}
    {s : Stmt Unit} (h : Statement rule isOpen ts s) (hs : ∀ t ∈ ts, t.Spelled) :
    s.WellFormed := by
  match h with
  | .expression h => exact h.wellFormed hs
  | .print _ he _ => exact he.wellFormed (spelled_cons (spelled_append hs).1).2
  | .ret _ hv _ => exact hv.wellFormed (spelled_cons (spelled_append hs).1).2
  | .block h => exact h.wellFormed hs
  | .whileLoop _ _ hc _ h =>
      have hs' := spelled_append hs
      exact ⟨hc.wellFormed (spelled_cons (spelled_cons hs'.1).2).2,
        h.wellFormed (spelled_cons hs'.2).2, h.declared?⟩
  | .forLoop _ _ hi hc _ hinc _ h =>
      have hs₁ := spelled_append hs
      have hs₂ := spelled_append hs₁.1
      have hs₃ := spelled_append hs₂.1
      exact whileForm_wellFormed (hi.wellFormed (spelled_cons (spelled_cons hs₃.1).2).2)
        (hc.wellFormed hs₃.2) (hinc.wellFormed (spelled_cons hs₂.2).2)
        (h.wellFormed (spelled_cons hs₁.2).2) h.declared?
  | .ifThen _ _ hc _ h =>
      have hs' := spelled_append hs
      exact ⟨hc.wellFormed (spelled_cons (spelled_cons hs'.1).2).2,
        h.wellFormed (spelled_cons hs'.2).2, h.declared?⟩
  | .ifElse _ _ hc _ hthen _ _ helse =>
      have hs₁ := spelled_append hs
      have hs₂ := spelled_append hs₁.1
      exact ⟨hc.wellFormed (spelled_cons (spelled_cons hs₂.1).2).2,
        ⟨hthen.wellFormed (spelled_cons hs₂.2).2, hthen.declared?⟩,
        helse.wellFormed (spelled_cons hs₁.2).2, helse.declared?⟩

end

theorem Program.ne_nil {rule : ElseRule} {ts : List Token} {p : List (Stmt Unit)}
    (h : Program rule ts p) : ts ≠ [] := by
  induction h with
  | finish | semicolon => exact List.cons_ne_nil _ _
  | declaration _ _ ih => exact List.append_ne_nil_of_right_ne_nil _ ih

/-- The end of the input is not spelled. -/
theorem Program.wellFormed {rule : ElseRule} {ts : List Token} {p : List (Stmt Unit)}
    (h : Program rule ts p) (hs : ∀ t ∈ ts.dropLast, t.Spelled) : Stmt.WellFormedAll p := by
  induction h with
  | finish => trivial
  | semicolon hk hrest ih =>
      rw [List.dropLast_cons_of_ne_nil hrest.ne_nil] at hs
      exact ih (spelled_cons hs).2
  | declaration hd hrest ih =>
      rw [List.dropLast_append_of_ne_nil hrest.ne_nil] at hs
      have hs' := spelled_append hs
      exact ⟨hd.wellFormed hs'.1, ih hs'.2⟩

end Grammar
end Lox
