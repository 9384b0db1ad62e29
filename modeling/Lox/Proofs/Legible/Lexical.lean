import Lox.Proofs.Mapping
import Lox.Proofs.Scanning.Respelling

/-!
# Trees made of lexemes

Every token in a tree is a lexeme of a kind that its place asks for, and no text in a tree
holds the quote that ends it. A lexeme is known by its text: its kind and the constant it
stands for are those the text is read as. So two such trees are the same, up to the places
of their tokens, if the texts of their tokens and their constants are.
-/

namespace Lox

namespace Token

/-- The token without its place. -/
def unplaced (t : Token) : Token :=
  { t with line := 0, column := 0 }

theorem unplaced_eq_of_content {t t' : Token} (h : t.content = t'.content) :
    t.unplaced = t'.unplaced := by
  cases t
  cases t'
  simp only [content, Prod.mk.injEq] at h
  obtain ⟨rfl, rfl, rfl⟩ := h
  rfl

/-- Lexemes with one text say the same. -/
theorem IsLexeme.unplaced_eq {t t' : Token} (h : t.IsLexeme) (h' : t'.IsLexeme)
    (heq : t.lexeme = t'.lexeme) : t.unplaced = t'.unplaced := by
  obtain ⟨⟨kind, text, literal, hlegal⟩, htext, hcontent⟩ := h.exists_spelling
  obtain ⟨⟨kind', text', literal', hlegal'⟩, htext', hcontent'⟩ := h'.exists_spelling
  obtain rfl : text = text' := htext.trans ((congrArg String.toList heq).trans htext'.symm)
  obtain ⟨c, cs, rfl, hcut⟩ := hlegal.cutAs
  obtain ⟨_, _, hcons, hcut'⟩ := hlegal'.cutAs
  cases hcons
  have hpieces := (hcut [] .finish).symm.trans (hcut' [] .finish)
  simp only [Prod.mk.injEq, Piece.mk.injEq, Form.lexeme.injEq] at hpieces
  obtain ⟨⟨rfl, -⟩, -⟩ := hpieces
  obtain rfl : literal = literal' := hlegal.literal_eq.symm.trans hlegal'.literal_eq
  exact unplaced_eq_of_content (hcontent.symm.trans hcontent')

/-- The token is a lexeme of one of some kinds. -/
structure IsOf (wanted : TokenKind → Bool) (t : Token) : Prop where
  isLexeme : t.IsLexeme
  kind : wanted t.kind = true

/-- The token is a lexeme of a kind. -/
abbrev IsA (kind : TokenKind) : Token → Prop :=
  IsOf (· == kind)

theorem IsOf.unplaced_eq {wanted wanted' : TokenKind → Bool} {t t' : Token} (h : t.IsOf wanted)
    (h' : t'.IsOf wanted') (heq : t.lexeme = t'.lexeme) : t.unplaced = t'.unplaced :=
  h.isLexeme.unplaced_eq h'.isLexeme heq

end Token

/-- The operators that stand in front of their operand. -/
def TokenKind.isUnary (kind : TokenKind) : Bool :=
  kind == .bang || kind == .minus

/-- The operators of a binary node. -/
def TokenKind.isBinary (kind : TokenKind) : Bool :=
  Chain.equality.operators kind || Chain.comparison.operators kind ||
    Chain.term.operators kind || Chain.factor.operators kind

/-- The operators of a logical node. -/
def TokenKind.isLogical (kind : TokenKind) : Bool :=
  Chain.or.operators kind || Chain.and.operators kind

/-- A text that can stand between double quotes. -/
def Constant.Lexical : Constant → Prop
  | .text s => '"' ∉ s.toList
  | _ => True

section

variable {δ : Type}

open Token

mutual

/-- The tokens of an expression are lexemes of the kinds that belong there. -/
def Expr.Lexical : Expr δ → Prop
  | .literal value => value.Lexical
  | .unary operator operand => operator.IsOf TokenKind.isUnary ∧ operand.Lexical
  | .binary left operator right =>
    left.Lexical ∧ operator.IsOf TokenKind.isBinary ∧ right.Lexical
  | .logical left operator right =>
    left.Lexical ∧ operator.IsOf TokenKind.isLogical ∧ right.Lexical
  | .conditional condition thenBranch elseBranch =>
    condition.Lexical ∧ thenBranch.Lexical ∧ elseBranch.Lexical
  | .grouping inner => inner.Lexical
  | .var name _ => name.IsA .identifier
  | .assign name _ value => name.IsA .identifier ∧ value.Lexical
  | .call callee paren arguments =>
    callee.Lexical ∧ paren.IsA .rightParen ∧ Expr.LexicalAll arguments
  | .get object name => object.Lexical ∧ name.IsA .identifier
  | .set object name value => object.Lexical ∧ name.IsA .identifier ∧ value.Lexical
  | .thisRef keyword _ => keyword.IsA .thisWord
  | .superRef keyword method _ => keyword.IsA .superWord ∧ method.IsA .identifier
  | .vector bracket elements => bracket.IsA .leftBracket ∧ Expr.LexicalAll elements

def Expr.LexicalAll : List (Expr δ) → Prop
  | [] => True
  | e :: rest => e.Lexical ∧ Expr.LexicalAll rest

end

def Expr.LexicalOption (e : Option (Expr δ)) : Prop :=
  ∀ e' ∈ e, e'.Lexical

mutual

/-- The tokens of a statement are lexemes of the kinds that belong there. -/
def Stmt.Lexical : Stmt δ → Prop
  | .expression e => e.Lexical
  | .print e => e.Lexical
  | .varDecl name initializer => name.IsA .identifier ∧ Expr.LexicalOption initializer
  | .block body => Stmt.LexicalAll body
  | .ifThen condition thenBranch => condition.Lexical ∧ thenBranch.Lexical
  | .ifElse condition thenBranch elseBranch =>
    condition.Lexical ∧ thenBranch.Lexical ∧ elseBranch.Lexical
  | .whileLoop condition body => condition.Lexical ∧ body.Lexical
  | .function f => f.Lexical
  | .ret keyword value => keyword.IsA .returnWord ∧ Expr.LexicalOption value
  | .classDecl name superclass methods =>
    name.IsA .identifier ∧ (∀ r ∈ superclass, r.name.IsA .identifier) ∧
      FunDecl.LexicalAll methods

def Stmt.LexicalAll : List (Stmt δ) → Prop
  | [] => True
  | s :: rest => s.Lexical ∧ Stmt.LexicalAll rest

def FunDecl.Lexical : FunDecl δ → Prop
  | .mk name params body =>
    name.IsA .identifier ∧ (∀ p ∈ params, p.IsA .identifier) ∧ Stmt.LexicalAll body

def FunDecl.LexicalAll : List (FunDecl δ) → Prop
  | [] => True
  | f :: rest => f.Lexical ∧ FunDecl.LexicalAll rest

end

end

/-! ## The spelling of a lexeme -/

/-- Lexemes of a kind with one spelling are spelled so. -/
theorem Token.IsLexeme.lexeme_eq {t : Token} (h : t.IsLexeme) (hfree : t.kind.isFree = false) :
    t.lexeme = t.kind.spelling := by
  obtain ⟨⟨kind, text, literal, hlegal⟩, htext, hcontent⟩ := h.exists_spelling
  simp only [Spelling.content, Token.content, Prod.mk.injEq] at hcontent
  obtain ⟨hkind, hlexeme, -⟩ := hcontent
  rw [← hkind] at hfree ⊢
  cases hlegal with
  | sign => rw [← hlexeme, String.ofList_toList]
  | name | whole | decimal | text => cases hfree

/-- A lexeme that is a name is a word, and not a reserved one. -/
theorem Token.IsA.name {t : Token} (h : t.IsA .identifier) :
    Piece.IsWord t.lexeme.toList ∧ TokenKind.keywords.lookup t.lexeme = none := by
  obtain ⟨⟨kind, text, literal, hlegal⟩, htext, hcontent⟩ := h.isLexeme.exists_spelling
  simp only [Spelling.content, Token.content, Prod.mk.injEq] at hcontent
  obtain ⟨hkind, hlexeme, -⟩ := hcontent
  obtain rfl : kind = .identifier := hkind.trans (beq_iff_eq.mp h.kind)
  rw [← hlexeme, String.toList_ofList]
  cases hlegal with
  | sign hfree => cases hfree
  | name hword hlookup => exact ⟨hword, hlookup⟩

/-- What a lexeme of a string stands for holds no quote. -/
theorem Token.IsLexeme.literal_lexical {t : Token} (h : t.IsLexeme) : t.literal.Lexical := by
  obtain ⟨⟨kind, text, literal, hlegal⟩, -, hcontent⟩ := h.exists_spelling
  simp only [Spelling.content, Token.content, Prod.mk.injEq] at hcontent
  rw [← hcontent.2.2]
  cases hlegal with
  | sign | name | whole | decimal => exact trivial
  | text hquote => rwa [Constant.Lexical, String.toList_ofList]

end Lox
