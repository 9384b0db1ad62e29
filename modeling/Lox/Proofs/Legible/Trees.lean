import Lox.Proofs.Legible.Lines
import Lox.Proofs.Legible.Parsed
import Lox.Proofs.Legible.Prefixed

/-!
# Printed trees are told apart

The trees that come out of the parser, and those that stand in them, are made of lexemes. So
what is printed of them shows which they are, but for the places of their tokens.
-/

namespace Lox

section

variable {δ : Type}

/-- The statements right inside a statement. A method is a function there. -/
def Stmt.parts : Stmt δ → List (Stmt δ)
  | .block body => body
  | .ifThen _ thenBranch => [thenBranch]
  | .ifElse _ thenBranch elseBranch => [thenBranch, elseBranch]
  | .whileLoop _ body => [body]
  | .function f => f.body
  | .classDecl _ _ methods => methods.map .function
  | _ => []

/-- The expressions right inside a statement. -/
def Stmt.expressions : Stmt δ → List (Expr δ)
  | .expression e => [e]
  | .print e => [e]
  | .varDecl _ initializer => initializer.toList
  | .ifThen condition _ => [condition]
  | .ifElse condition _ _ => [condition]
  | .whileLoop condition _ => [condition]
  | .ret _ value => value.toList
  | .classDecl _ superclass _ => superclass.toList.map fun r => .var r.name r.slot
  | _ => []

end

/-- The statement comes out of the parser for some source, or stands in one that does. -/
inductive Stmt.Parsed : Stmt Unit → Prop
  | program {s : Stmt Unit} {im : Importer} {limit : ErrorLimit} {typed : Bool}
      {source : String} {name : Option String} :
      s ∈ (parseProgram im limit (unitTokens typed source) name).program → s.Parsed
  | part {s part : Stmt Unit} : s.Parsed → part ∈ s.parts → part.Parsed

/-- The expression comes out of the parser for some source, or stands in a tree that does. -/
inductive Expr.Parsed : Expr Unit → Prop
  | alone {e : Expr Unit} {typed : Bool} {source : String} :
      (parseExpression (unitTokens typed source)).1 = some e → e.Parsed
  | statement {s : Stmt Unit} {e : Expr Unit} : s.Parsed → e ∈ s.expressions → e.Parsed
  | part {e part : Expr Unit} : e.Parsed → part ∈ e.parts → part.Parsed

/-! ## Parsed trees are made of lexemes -/

section

variable {δ : Type}

theorem Expr.lexicalAll_iff {es : List (Expr δ)} :
    Expr.LexicalAll es ↔ ∀ e ∈ es, e.Lexical := by
  induction es with
  | nil => simp [LexicalAll]
  | cons e es ih => rw [LexicalAll, ih, List.forall_mem_cons]

theorem Stmt.lexicalAll_iff {ss : List (Stmt δ)} :
    Stmt.LexicalAll ss ↔ ∀ s ∈ ss, s.Lexical := by
  induction ss with
  | nil => simp [LexicalAll]
  | cons s ss ih => rw [LexicalAll, ih, List.forall_mem_cons]

theorem FunDecl.lexicalAll_iff {fs : List (FunDecl δ)} :
    FunDecl.LexicalAll fs ↔ ∀ f ∈ fs, f.Lexical := by
  induction fs with
  | nil => simp [LexicalAll]
  | cons f fs ih => rw [LexicalAll, ih, List.forall_mem_cons]

theorem Expr.Lexical.part {e part : Expr δ} (h : e.Lexical) (hpart : part ∈ e.parts) :
    part.Lexical := by
  cases e with
  | literal | var | thisRef | superRef => cases hpart
  | call a paren es =>
      rcases List.mem_cons.mp hpart with rfl | hpart
      · exact h.1
      · exact lexicalAll_iff.mp h.2.2 part hpart
  | vector bracket es => exact lexicalAll_iff.mp h.2 part hpart
  | _ =>
      simp only [parts, List.mem_cons, List.not_mem_nil, or_false] at hpart
      simp only [Expr.Lexical] at h
      rcases hpart with rfl | rfl | rfl <;> simp only [h]

theorem Stmt.Lexical.part {s part : Stmt δ} (h : s.Lexical) (hpart : part ∈ s.parts) :
    part.Lexical := by
  cases s with
  | expression | print | varDecl | ret => cases hpart
  | block body =>
      have hbody : Stmt.LexicalAll body := h
      exact lexicalAll_iff.mp hbody part hpart
  | ifThen condition thenBranch => exact List.mem_singleton.mp hpart ▸ h.2
  | ifElse condition thenBranch elseBranch =>
      rcases List.mem_pair.mp hpart with rfl | rfl
      · exact h.2.1
      · exact h.2.2
  | whileLoop condition body => exact List.mem_singleton.mp hpart ▸ h.2
  | function f =>
      cases f with
      | mk name params body => exact lexicalAll_iff.mp h.2.2 part hpart
  | classDecl name superclass methods =>
      obtain ⟨f, hf, rfl⟩ := List.mem_map.mp hpart
      exact FunDecl.lexicalAll_iff.mp h.2.2 f hf

theorem Stmt.Lexical.expression {s : Stmt δ} {e : Expr δ} (h : s.Lexical)
    (he : e ∈ s.expressions) : e.Lexical := by
  cases s with
  | block | function => cases he
  | expression e' | print e' => exact List.mem_singleton.mp he ▸ h
  | varDecl | ret => exact h.2 e (Option.mem_toList.mp he)
  | ifThen | ifElse | whileLoop => exact List.mem_singleton.mp he ▸ h.1
  | classDecl name superclass methods =>
      obtain ⟨r, hr, rfl⟩ := List.mem_map.mp he
      exact h.2.1 r (Option.mem_toList.mp hr)

end

theorem Stmt.Parsed.lexical {s : Stmt Unit} (h : s.Parsed) : s.Lexical := by
  induction h with
  | program h => exact Stmt.lexicalAll_iff.mp (parseProgram_lexical _ _ _ _ _) _ h
  | part _ hpart ih => exact ih.part hpart

theorem Expr.Parsed.lexical {e : Expr Unit} (h : e.Parsed) : e.Lexical := by
  induction h with
  | alone h => exact parseExpression_lexical h
  | statement h he => exact h.lexical.expression he
  | part _ hpart ih => exact ih.part hpart

/-! ## What is printed -/

/-- The printers lose nothing. Statements with one outline, at one level, are the same up to
the places of their tokens, and so are expressions with one prefix form whose numbers are
finite. -/
theorem printers_loseNothing :
    (∀ (level : Nat) (ss ss' : List (Stmt Unit)), (∀ s ∈ ss, s.Parsed) → (∀ s ∈ ss', s.Parsed) →
      outlineText level ss = outlineText level ss' →
      Stmt.unplacedAll ss = Stmt.unplacedAll ss') ∧
    (∀ e e' : Expr Unit, e.Parsed → e'.Parsed → e.FiniteNumbers → e'.FiniteNumbers →
      e.prefixed = e'.prefixed → e.unplaced = e'.unplaced) := by
  refine ⟨fun level ss ss' hss hss' htext => ?_, fun e e' he he' hfinite hfinite' hform => ?_⟩
  · exact outlineText_injective (Stmt.lexicalAll_iff.mpr fun s hs => (hss s hs).lexical)
      (Stmt.lexicalAll_iff.mpr fun s hs => (hss' s hs).lexical) htext
  · exact Expr.prefixed_injective he.lexical he'.lexical hfinite hfinite' hform

/-- A program and an expression, each written in two ways. -/
theorem printers_loseNothing_respelled :
    let program := fun source : String =>
      (parseProgram ⟨⟨[], false⟩, {}⟩ (.count 20) (unitTokens false source) none).program
    let source := "class A < B { f(x) { return x + 1.50; } } print -A().f(\"(a\nb)\");"
    let source' := "class A<B{f(x){return x+1.5;}}\n\nprint - A().f( \"(a\nb)\" );"
    (program source).length = 2 ∧
      (∀ s ∈ program source, s.Parsed) ∧ (∀ s ∈ program source', s.Parsed) ∧
      outlineText 1 (program source) = outlineText 1 (program source') ∧
      Stmt.unplacedAll (program source) = Stmt.unplacedAll (program source') ∧
      ∃ e e', (parseExpression (unitTokens false "-f(1.50, \") 2\")")).1 = some e ∧
        (parseExpression (unitTokens false " - f ( 1.5,\") 2\")")).1 = some e' ∧
        e.FiniteNumbers ∧ e'.FiniteNumbers ∧ e.prefixed = e'.prefixed ∧
        e.unplaced = e'.unplaced := by
  intro program source source'
  have hparsed : ∀ source, ∀ s ∈ program source, s.Parsed := fun _ _ => .program
  have htext : outlineText 1 (program source) = outlineText 1 (program source') := by
    decide +kernel
  refine ⟨by decide +kernel, hparsed _, hparsed _, htext,
    printers_loseNothing.1 _ _ _ (hparsed _) (hparsed _) htext, ?_⟩
  have hread : ∀ source ∈ ["-f(1.50, \") 2\")", " - f ( 1.5,\") 2\")"],
      (parseExpression (unitTokens false source)).1.isSome = true ∧
        ∀ e ∈ (parseExpression (unitTokens false source)).1,
          e.FiniteNumbers ∧ e.prefixed = "(- (call f 1.5 \") 2\"))" := by
    decide +kernel
  obtain ⟨hsome, hshown⟩ := hread _ (.head _)
  obtain ⟨hsome', hshown'⟩ := hread _ (.tail _ (.head _))
  obtain ⟨e, he⟩ := Option.isSome_iff_exists.mp hsome
  obtain ⟨e', he'⟩ := Option.isSome_iff_exists.mp hsome'
  obtain ⟨hfinite, hform⟩ := hshown e he
  obtain ⟨hfinite', hform'⟩ := hshown' e' he'
  have hsame := hform.trans hform'.symm
  exact ⟨e, e', he, he', hfinite, hfinite', hsame,
    printers_loseNothing.2 e e' (.alone he) (.alone he') hfinite hfinite' hsame⟩

end Lox
