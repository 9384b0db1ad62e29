import Lox.Proofs.Grammar

/-!
# The tokens of a tree

A tree keeps some of the tokens it was parsed from. The parser uses each token of a
program once, so no token stands in two places of the tree: whoever is told a token is
told the place where it is used.
-/

namespace Lox

section

variable {δ : Type}

mutual

/-- The tokens in an expression. -/
def Expr.tokens : Expr δ → List Token
  | .literal _ => []
  | .unary operator operand => operator :: operand.tokens
  | .binary left operator right => operator :: (left.tokens ++ right.tokens)
  | .logical left operator right => operator :: (left.tokens ++ right.tokens)
  | .conditional condition thenBranch elseBranch =>
    condition.tokens ++ (thenBranch.tokens ++ elseBranch.tokens)
  | .grouping inner => inner.tokens
  | .var name _ => [name]
  | .assign name _ value => name :: value.tokens
  | .call callee paren arguments => paren :: (callee.tokens ++ Expr.tokensAll arguments)
  | .get object name => name :: object.tokens
  | .set object name value => name :: (object.tokens ++ value.tokens)
  | .thisRef keyword _ => [keyword]
  | .superRef keyword method _ => [keyword, method]
  | .vector bracket elements => bracket :: Expr.tokensAll elements

def Expr.tokensAll : List (Expr δ) → List Token
  | [] => []
  | e :: rest => e.tokens ++ Expr.tokensAll rest

end

def Expr.tokensOption : Option (Expr δ) → List Token
  | none => []
  | some e => e.tokens

mutual

/-- The tokens in a statement. -/
def Stmt.tokens : Stmt δ → List Token
  | .expression e => e.tokens
  | .print e => e.tokens
  | .varDecl name initializer => name :: Expr.tokensOption initializer
  | .block body => Stmt.tokensAll body
  | .ifThen condition thenBranch => condition.tokens ++ thenBranch.tokens
  | .ifElse condition thenBranch elseBranch =>
    condition.tokens ++ (thenBranch.tokens ++ elseBranch.tokens)
  | .whileLoop condition body => condition.tokens ++ body.tokens
  | .function f => f.tokens
  | .ret keyword value => keyword :: Expr.tokensOption value
  | .classDecl name superclass methods =>
    name :: (superclass.toList.map (·.name) ++ FunDecl.tokensAll methods)

def Stmt.tokensAll : List (Stmt δ) → List Token
  | [] => []
  | s :: rest => s.tokens ++ Stmt.tokensAll rest

/-- The tokens in a function, with its own name and its parameters. -/
def FunDecl.tokens : FunDecl δ → List Token
  | .mk name params body => name :: (params ++ Stmt.tokensAll body)

def FunDecl.tokensAll : List (FunDecl δ) → List Token
  | [] => []
  | f :: rest => f.tokens ++ FunDecl.tokensAll rest

end

end

/-! ## A derivation uses each token once -/

namespace Grammar

variable {q : Token → Bool}

theorem chain_node_tokens (level : Chain) (left right : Expr Unit) (operator : Token) :
    (level.node left operator right).tokens = operator :: (left.tokens ++ right.tokens) := by
  cases level <;> rfl

mutual

theorem Assignment.tokens {ts : List Token} {e : Expr Unit} (h : Assignment ts e) :
    e.tokens.countP q ≤ ts.countP q := by
  match h with
  | .var _ _ hv =>
      have hv' := hv.tokens
      simp only [Expr.tokens, List.countP_cons]
      omega
  | .property ho _ _ _ hv =>
      have ho' := ho.tokens
      have hv' := hv.tokens
      simp only [Expr.tokens, List.countP_append, List.countP_cons]
      omega
  | .level h => exact h.tokens

theorem Level.tokens {level : Chain} {ts : List Token} {e : Expr Unit} (h : Level level ts e) :
    e.tokens.countP q ≤ ts.countP q := by
  match h with
  | .operand h => exact h.tokens
  | .step hl _ hr =>
      have hl' := hl.tokens
      have hr' := hr.tokens
      simp only [chain_node_tokens, List.countP_append, List.countP_cons]
      omega

theorem Operand.tokens {level : Chain} {ts : List Token} {e : Expr Unit} (h : Operand level ts e) :
    e.tokens.countP q ≤ ts.countP q := by
  match h with
  | .or h => exact h.tokens
  | .and h => exact h.tokens
  | .equality h => exact h.tokens
  | .comparison h => exact h.tokens
  | .term h => exact h.tokens
  | .factor h => exact h.tokens

theorem Conditional.tokens {ts : List Token} {e : Expr Unit} (h : Conditional ts e) :
    e.tokens.countP q ≤ ts.countP q := by
  match h with
  | .plain h => exact h.tokens
  | .choice hc _ ha _ hb =>
      have hc' := hc.tokens
      have ha' := ha.tokens
      have hb' := hb.tokens
      simp only [Expr.tokens, List.countP_append, List.countP_cons]
      omega

theorem Unary.tokens {ts : List Token} {e : Expr Unit} (h : Unary ts e) :
    e.tokens.countP q ≤ ts.countP q := by
  match h with
  | .operator _ h =>
      have h' := h.tokens
      simp only [Expr.tokens, List.countP_cons]
      omega
  | .call h => exact h.tokens

theorem Call.tokens {ts : List Token} {e : Expr Unit} (h : Call ts e) :
    e.tokens.countP q ≤ ts.countP q := by
  match h with
  | .primary h => exact h.tokens
  | .call hc _ ha _ =>
      have hc' := hc.tokens
      have ha' := ha.tokens
      simp only [Expr.tokens, List.countP_append, List.countP_cons]
      omega
  | .property ho _ _ =>
      have ho' := ho.tokens
      simp only [Expr.tokens, List.countP_append, List.countP_cons]
      omega

theorem Arguments.tokens {ts : List Token} {es : List (Expr Unit)} (h : Arguments ts es) :
    (Expr.tokensAll es).countP q ≤ ts.countP q := by
  match h with
  | .none => exact Nat.le_refl _
  | .some h _ => exact h.tokens

theorem Items.tokens {ts : List Token} {es : List (Expr Unit)} (h : Items ts es) :
    (Expr.tokensAll es).countP q ≤ ts.countP q := by
  match h with
  | .last h =>
      have h' := h.tokens
      simp only [Expr.tokensAll, List.append_nil]
      omega
  | .more h _ hrest =>
      have h' := h.tokens
      have hrest' := hrest.tokens
      simp only [Expr.tokensAll, List.countP_append, List.countP_cons]
      omega

theorem Primary.tokens {ts : List Token} {e : Expr Unit} (h : Primary ts e) :
    e.tokens.countP q ≤ ts.countP q := by
  match h with
  | .number _ | .string _ | .true _ | .false _ | .nil _ => exact Nat.zero_le _
  | .this _ | .identifier _ => exact Nat.le_refl _
  | .grouping _ h _ =>
      have h' := h.tokens
      simp only [Expr.tokens, List.countP_append, List.countP_cons]
      omega
  | .super _ _ _ =>
      simp only [Expr.tokens, List.countP_cons]
      omega
  | .vector _ h _ =>
      have h' := h.tokens
      simp only [Expr.tokens, List.countP_append, List.countP_cons]
      omega

end

theorem Names.tokens {ts names : List Token} (h : Names ts names) :
    names.countP q ≤ ts.countP q := by
  induction h with
  | last _ => exact Nat.le_refl _
  | more _ _ _ ih =>
      simp only [List.countP_cons]
      omega

theorem Params.tokens {ts names : List Token} (h : Params ts names) :
    names.countP q ≤ ts.countP q := by
  cases h with
  | none => exact Nat.le_refl _
  | some h _ => exact h.tokens

theorem Optional.tokens {ts : List Token} {e : Option (Expr Unit)} (h : Optional ts e) :
    (Expr.tokensOption e).countP q ≤ ts.countP q := by
  cases h with
  | none => exact Nat.le_refl _
  | some h => exact h.tokens

theorem VarDecl.tokens {ts : List Token} {s : Stmt Unit} (h : VarDecl ts s) :
    s.tokens.countP q ≤ ts.countP q := by
  cases h with
  | plain _ _ _ =>
      simp only [Stmt.tokens, Expr.tokensOption, List.countP_cons]
      omega
  | initialized _ _ _ h _ =>
      have h' := h.tokens (q := q)
      simp only [Stmt.tokens, Expr.tokensOption, List.countP_append, List.countP_cons]
      omega

theorem ExpressionStatement.tokens {ts : List Token} {s : Stmt Unit}
    (h : ExpressionStatement ts s) : s.tokens.countP q ≤ ts.countP q := by
  cases h with
  | mk h _ =>
      have h' := h.tokens (q := q)
      simp only [Stmt.tokens, List.countP_append, List.countP_cons]
      omega

/-- The tokens in a statement that may be missing. -/
def stmtTokensOption (s : Option (Stmt Unit)) : List Token :=
  s.elim [] Stmt.tokens

theorem ForInitializer.tokens {ts : List Token} {s : Option (Stmt Unit)}
    (h : ForInitializer ts s) : (stmtTokensOption s).countP q ≤ ts.countP q := by
  cases h with
  | none _ => exact Nat.zero_le _
  | var h => exact h.tokens
  | expression h => exact h.tokens

theorem Superclass.tokens {ts : List Token} {r : Option (Reference Unit)} (h : Superclass ts r) :
    (r.toList.map (·.name)).countP q ≤ ts.countP q := by
  cases h with
  | none => exact Nat.le_refl _
  | some _ _ =>
      simp only [Option.toList, List.map_cons, List.map_nil, List.countP_cons]
      omega

/-- The increment of a loop stands before its body in the text, and behind it in the
tree. -/
theorem whileForm_tokens (initializer : Option (Stmt Unit))
    (condition increment : Option (Expr Unit)) (body : Stmt Unit) :
    (whileForm initializer condition increment body).tokens.countP q =
      (stmtTokensOption initializer).countP q + (Expr.tokensOption condition).countP q +
        (Expr.tokensOption increment).countP q + body.tokens.countP q := by
  cases initializer <;> cases increment <;> cases condition <;>
    simp [whileForm, stmtTokensOption, Stmt.tokens, Stmt.tokensAll, Expr.tokens, Expr.tokensOption,
      List.countP_append] <;> omega

variable {rule : ElseRule}

mutual

theorem Declaration.tokens {isOpen : Bool} {ts : List Token} {s : Stmt Unit}
    (h : Declaration rule isOpen ts s) : s.tokens.countP q ≤ ts.countP q := by
  match h with
  | .classDecl _ _ hp _ hms _ =>
      have hp' := hp.tokens (q := q)
      have hms' := hms.tokens
      simp only [Stmt.tokens, List.countP_append, List.countP_cons]
      omega
  | .function _ h =>
      have h' := h.tokens
      simp only [Stmt.tokens, List.countP_cons]
      omega
  | .var h => exact h.tokens
  | .statement h => exact h.tokens

theorem Function.tokens {ts : List Token} {f : FunDecl Unit} (h : Function rule ts f) :
    f.tokens.countP q ≤ ts.countP q := by
  match h with
  | .mk _ _ hp _ hbody =>
      have hp' := hp.tokens (q := q)
      have hbody' := hbody.tokens
      simp only [FunDecl.tokens, List.countP_append, List.countP_cons]
      omega

theorem Functions.tokens {ts : List Token} {fs : List (FunDecl Unit)}
    (h : Functions rule ts fs) : (FunDecl.tokensAll fs).countP q ≤ ts.countP q := by
  match h with
  | .nil => exact Nat.le_refl _
  | .cons h hrest =>
      have h' := h.tokens
      have hrest' := hrest.tokens
      simp only [FunDecl.tokensAll, List.countP_append]
      omega

theorem Block.tokens {ts : List Token} {body : List (Stmt Unit)} (h : Block rule ts body) :
    (Stmt.tokensAll body).countP q ≤ ts.countP q := by
  match h with
  | .mk _ h _ =>
      have h' := h.tokens
      simp only [List.cons_append, List.countP_append, List.countP_cons]
      omega

theorem Declarations.tokens {ts : List Token} {body : List (Stmt Unit)}
    (h : Declarations rule ts body) : (Stmt.tokensAll body).countP q ≤ ts.countP q := by
  match h with
  | .nil => exact Nat.le_refl _
  | .cons h hrest =>
      have h' := h.tokens
      have hrest' := hrest.tokens
      simp only [Stmt.tokensAll, List.countP_append]
      omega

theorem Statement.tokens {isOpen : Bool} {ts : List Token} {s : Stmt Unit}
    (h : Statement rule isOpen ts s) : s.tokens.countP q ≤ ts.countP q := by
  match h with
  | .expression h => exact h.tokens
  | .print _ h _ =>
      have h' := h.tokens (q := q)
      simp only [Stmt.tokens, List.countP_append, List.countP_cons]
      omega
  | .ret _ h _ =>
      have h' := h.tokens (q := q)
      simp only [Stmt.tokens, List.countP_append, List.countP_cons]
      omega
  | .block h => exact h.tokens
  | .whileLoop _ _ hc _ h =>
      have hc' := hc.tokens (q := q)
      have h' := h.tokens
      simp only [Stmt.tokens, List.countP_append, List.countP_cons]
      omega
  | .forLoop _ _ hi hc _ hinc _ h =>
      have hi' := hi.tokens (q := q)
      have hc' := hc.tokens (q := q)
      have hinc' := hinc.tokens (q := q)
      have h' := h.tokens
      simp only [whileForm_tokens, List.countP_append, List.countP_cons]
      omega
  | .ifThen _ _ hc _ h =>
      have hc' := hc.tokens (q := q)
      have h' := h.tokens
      simp only [Stmt.tokens, List.countP_append, List.countP_cons]
      omega
  | .ifElse _ _ hc _ hthen _ _ helse =>
      have hc' := hc.tokens (q := q)
      have hthen' := hthen.tokens
      have helse' := helse.tokens
      simp only [Stmt.tokens, List.countP_append, List.countP_cons]
      omega

end

/-- No token of a program is used twice in its tree. -/
theorem Program.tokens {ts : List Token} {p : List (Stmt Unit)} (h : Program rule ts p) :
    (Stmt.tokensAll p).countP q ≤ ts.countP q := by
  induction h with
  | finish _ => exact Nat.zero_le _
  | semicolon _ _ ih =>
      rw [List.countP_cons]
      omega
  | declaration h _ ih =>
      have h' := h.tokens (q := q)
      simp only [Stmt.tokensAll, List.countP_append]
      omega

end Grammar
end Lox
