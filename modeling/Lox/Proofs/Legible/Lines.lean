import Lox.Proofs.Legible.Outlines

/-!
# An outline is its lines

No line of an outline holds a newline: names and numbers have none, and a text is shown
between quotes with its newlines written out. So the lines are found again in the text that
joins them, and the text of an outline shows its tree as the lines do.
-/

namespace Lox

namespace Outline

variable {level : Nat} {name text text' : String} {lines lines' : List String}

/-- Every line is one line. -/
def Flat (lines : List String) : Prop :=
  ∀ line ∈ lines, '\n' ∉ line.toList

theorem flat_nil : Flat [] :=
  fun _ h => by cases h

theorem Flat.append (h : Flat lines) (h' : Flat lines') : Flat (lines ++ lines') :=
  List.forall_mem_append.mpr ⟨h, h'⟩

theorem Flat.cons (h : '\n' ∉ text.toList) (h' : Flat lines) : Flat (text :: lines) :=
  List.forall_mem_cons.mpr ⟨h, h'⟩

theorem newline_not_mem_append (h : '\n' ∉ text.toList) (h' : '\n' ∉ text'.toList) :
    '\n' ∉ (text ++ text').toList := by
  rw [String.toList_append, List.mem_append]
  exact not_or.mpr ⟨h, h'⟩

theorem newline_not_mem_indentation (level : Nat) : '\n' ∉ (indentation level).toList := by
  rw [indentation, String.toList_ofList]
  exact fun h => absurd (List.eq_of_mem_replicate h) (by decide)

theorem flat_heading {kind : String} (h : '\n' ∉ kind.toList) (h' : Flat lines) :
    Flat (heading level kind :: lines) :=
  .cons (newline_not_mem_append (newline_not_mem_indentation _) h) h'

theorem flat_field (hname : '\n' ∉ name.toList) (htext : '\n' ∉ text.toList) :
    Flat (field level name text) :=
  .cons (newline_not_mem_append (newline_not_mem_append (newline_not_mem_append
    (newline_not_mem_indentation _) hname) (by decide)) htext) flat_nil

theorem flat_child (hname : '\n' ∉ name.toList) (h : Flat lines) :
    Flat (child level name lines) :=
  .cons (newline_not_mem_append (newline_not_mem_append (newline_not_mem_indentation _) hname)
    (by decide)) h

theorem flat_items (hname : '\n' ∉ name.toList) (h : Flat lines) :
    Flat (items level name lines) := by
  have hopen : '\n' ∉ (indentation (level + 1) ++ name ++ ": [").toList :=
    newline_not_mem_append (newline_not_mem_append (newline_not_mem_indentation _) hname)
      (by decide)
  have hclose : '\n' ∉ (indentation (level + 1) ++ "]").toList :=
    newline_not_mem_append (newline_not_mem_indentation _) (by decide)
  exact (Flat.cons hopen h).append (.cons hclose flat_nil)

end Outline

open Outline Token

/-! ## Constants and lexemes -/

theorem Layout.newline_not_mem_dump (x : Float) : '\n' ∉ (Layout.dump.number x).toList := by
  obtain ⟨b, hdumped⟩ := Layout.number_dumped x
  generalize (Layout.dump.number x).toList = text at hdumped
  cases hdumped with
  | nan | infinity | negativeInfinity => decide
  | finite hnumeral => exact fun h => absurd (hnumeral.isNumeral _ h) (by decide)
  | negative hnumeral =>
      intro h
      rcases List.mem_cons.mp h with h | h
      · exact absurd h (by decide)
      · exact absurd (hnumeral.isNumeral _ h) (by decide)

theorem Constant.newline_not_mem_outline (value : Constant) : '\n' ∉ value.outline.toList := by
  cases value with
  | nil => decide
  | bool b => cases b <;> decide
  | number x => exact Layout.newline_not_mem_dump x
  | text s => exact newline_not_mem_quoted s

/-- A lexeme stays on one line, unless it is a string. -/
theorem Token.IsOf.newline_not_mem {wanted : TokenKind → Bool} {t : Token} (h : t.IsOf wanted)
    (hstring : wanted .string = false) : '\n' ∉ t.lexeme.toList := by
  obtain ⟨⟨kind, text, literal, hlegal⟩, htext, hcontent⟩ := h.isLexeme.exists_spelling
  simp only [Spelling.content, Token.content, Prod.mk.injEq] at hcontent
  have hkind := h.kind
  rw [← hcontent.1] at hkind
  rw [← htext]
  have hsign : ∀ kind : TokenKind, '\n' ∉ kind.spelling.toList := by
    intro kind
    cases kind <;> decide
  have hdigits : ∀ {ds : List Char}, (∀ c ∈ ds, Piece.isDigit c = true) → '\n' ∉ ds :=
    fun hds h => absurd (hds _ h) (by decide)
  cases hlegal with
  | sign => exact hsign kind
  | name hword =>
      obtain ⟨c, cs, rfl, hc, hcs⟩ := hword
      intro h
      rcases List.mem_cons.mp h with rfl | h
      · cases hc
      · exact absurd (hcs _ h) (by decide)
  | whole hds => exact hdigits hds
  | decimal hds hpart =>
      intro h
      rcases List.mem_append.mp h with h | h
      · exact hdigits hds h
      · rcases List.mem_cons.mp h with h | h
        · exact absurd h (by decide)
        · exact hdigits hpart h
  | text => exact absurd hkind (by simp [hstring])

/-! ## Nodes -/

section

variable {δ : Type} {level : Nat}

theorem Token.IsOf.flat_field {wanted : TokenKind → Bool} {t : Token} {name : String}
    (h : t.IsOf wanted) (hstring : wanted .string = false) (hname : '\n' ∉ name.toList) :
    Flat (field level name t.lexeme) :=
  Outline.flat_field hname (h.newline_not_mem hstring)

theorem Outline.flat_names {name : String} {ts : List Token} (hname : '\n' ∉ name.toList)
    (h : ∀ t ∈ ts, t.IsA .identifier) : Flat (names level name ts) := by
  refine flat_items hname fun line hline => ?_
  obtain ⟨t, ht, rfl⟩ := List.mem_map.mp hline
  exact newline_not_mem_append (newline_not_mem_indentation _) ((h t ht).newline_not_mem rfl)

mutual

theorem Expr.flat_outline {level : Nat} {e : Expr δ} (he : e.Lexical) :
    Flat (e.outline level) := by
  cases e with
  | literal value =>
      exact flat_heading (by decide) (flat_field (by decide) value.newline_not_mem_outline)
  | unary operator operand =>
      exact (flat_heading (by decide) (he.1.flat_field rfl (by decide))).append
        (flat_child (by decide) (Expr.flat_outline he.2))
  | binary left operator right =>
      exact ((flat_heading (by decide) (flat_child (by decide) (Expr.flat_outline he.1))).append
        (he.2.1.flat_field rfl (by decide))).append
        (flat_child (by decide) (Expr.flat_outline he.2.2))
  | logical left operator right =>
      exact ((flat_heading (by decide) (flat_child (by decide) (Expr.flat_outline he.1))).append
        (he.2.1.flat_field rfl (by decide))).append
        (flat_child (by decide) (Expr.flat_outline he.2.2))
  | conditional condition thenBranch elseBranch =>
      exact ((flat_heading (by decide) (flat_child (by decide) (Expr.flat_outline he.1))).append
        (flat_child (by decide) (Expr.flat_outline he.2.1))).append
        (flat_child (by decide) (Expr.flat_outline he.2.2))
  | grouping inner =>
      have hlexical : inner.Lexical := he
      exact flat_heading (by decide) (flat_child (by decide) (Expr.flat_outline hlexical))
  | var name slot =>
      have hlexical : name.IsA .identifier := he
      exact flat_heading (by decide) (hlexical.flat_field rfl (by decide))
  | assign name slot value =>
      exact (flat_heading (by decide) (he.1.flat_field rfl (by decide))).append
        (flat_child (by decide) (Expr.flat_outline he.2))
  | call callee paren arguments =>
      exact ((flat_heading (by decide) (flat_child (by decide) (Expr.flat_outline he.1))).append
        (he.2.1.flat_field rfl (by decide))).append
        (flat_items (by decide) (Expr.flat_outlineAll he.2.2))
  | get object name =>
      exact (flat_heading (by decide) (flat_child (by decide) (Expr.flat_outline he.1))).append
        (he.2.flat_field rfl (by decide))
  | set object name value =>
      exact ((flat_heading (by decide) (flat_child (by decide) (Expr.flat_outline he.1))).append
        (he.2.1.flat_field rfl (by decide))).append
        (flat_child (by decide) (Expr.flat_outline he.2.2))
  | thisRef keyword slot =>
      have hlexical : keyword.IsA .thisWord := he
      exact flat_heading (by decide) (hlexical.flat_field rfl (by decide))
  | superRef keyword method slot =>
      exact (flat_heading (by decide) (he.1.flat_field rfl (by decide))).append
        (he.2.flat_field rfl (by decide))
  | vector bracket elements =>
      exact (flat_heading (by decide) (he.1.flat_field rfl (by decide))).append
        (flat_items (by decide) (Expr.flat_outlineAll he.2))

theorem Expr.flat_outlineAll {level : Nat} {es : List (Expr δ)} (hes : Expr.LexicalAll es) :
    Flat (Expr.outlineAll level es) := by
  cases es with
  | nil => exact flat_nil
  | cons e es => exact (Expr.flat_outline hes.1).append (Expr.flat_outlineAll hes.2)

end

theorem Expr.flat_outlineOption {name : String} {e : Option (Expr δ)}
    (hname : '\n' ∉ name.toList) (he : Expr.LexicalOption e) :
    Flat (Expr.outlineOption level name e) := by
  cases e with
  | none => exact flat_field hname (by decide)
  | some e => exact flat_child hname (Expr.flat_outline (he e rfl))

theorem Reference.flat_outlineOption {r : Option (Reference δ)}
    (hr : ∀ x ∈ r, x.name.IsA .identifier) : Flat (Reference.outlineOption level r) := by
  cases r with
  | none => exact flat_field (by decide) (by decide)
  | some r =>
      have hlexical : (Expr.var r.name r.slot).Lexical := hr r rfl
      exact flat_child (by decide) (Expr.flat_outline hlexical)

mutual

theorem Stmt.flat_outline {level : Nat} {s : Stmt δ} (hs : s.Lexical) :
    Flat (s.outline level) := by
  cases s with
  | expression e =>
      have hlexical : e.Lexical := hs
      exact flat_heading (by decide) (flat_child (by decide) (Expr.flat_outline hlexical))
  | print e =>
      have hlexical : e.Lexical := hs
      exact flat_heading (by decide) (flat_child (by decide) (Expr.flat_outline hlexical))
  | varDecl name initializer =>
      exact (flat_heading (by decide) (hs.1.flat_field rfl (by decide))).append
        (Expr.flat_outlineOption (by decide) hs.2)
  | block body =>
      have hlexical : Stmt.LexicalAll body := hs
      exact flat_heading (by decide) (flat_items (by decide) (Stmt.flat_outlineAll hlexical))
  | ifThen condition thenBranch =>
      exact ((flat_heading (by decide) (flat_child (by decide) (Expr.flat_outline hs.1))).append
        (flat_child (by decide) (Stmt.flat_outline hs.2))).append
        (flat_field (by decide) (by decide))
  | ifElse condition thenBranch elseBranch =>
      exact ((flat_heading (by decide) (flat_child (by decide) (Expr.flat_outline hs.1))).append
        (flat_child (by decide) (Stmt.flat_outline hs.2.1))).append
        (flat_child (by decide) (Stmt.flat_outline hs.2.2))
  | whileLoop condition body =>
      exact (flat_heading (by decide) (flat_child (by decide) (Expr.flat_outline hs.1))).append
        (flat_child (by decide) (Stmt.flat_outline hs.2))
  | function f =>
      have hlexical : f.Lexical := hs
      exact FunDecl.flat_outline hlexical
  | ret keyword value =>
      exact (flat_heading (by decide) (hs.1.flat_field rfl (by decide))).append
        (Expr.flat_outlineOption (by decide) hs.2)
  | classDecl name superclass methods =>
      exact ((flat_heading (by decide) (hs.1.flat_field rfl (by decide))).append
        (Reference.flat_outlineOption hs.2.1)).append
        (flat_items (by decide) (FunDecl.flat_outlineAll hs.2.2))

theorem Stmt.flat_outlineAll {level : Nat} {ss : List (Stmt δ)} (hss : Stmt.LexicalAll ss) :
    Flat (Stmt.outlineAll level ss) := by
  cases ss with
  | nil => exact flat_nil
  | cons s ss => exact (Stmt.flat_outline hss.1).append (Stmt.flat_outlineAll hss.2)

theorem FunDecl.flat_outline {level : Nat} {f : FunDecl δ} (hf : f.Lexical) :
    Flat (f.outline level) := by
  cases f with
  | mk name params body =>
      exact ((flat_heading (by decide) (hf.1.flat_field rfl (by decide))).append
        (flat_names (by decide) hf.2.1)).append
        (flat_items (by decide) (Stmt.flat_outlineAll hf.2.2))

theorem FunDecl.flat_outlineAll {level : Nat} {fs : List (FunDecl δ)}
    (hfs : FunDecl.LexicalAll fs) : Flat (FunDecl.outlineAll level fs) := by
  cases fs with
  | nil => exact flat_nil
  | cons f fs => exact (FunDecl.flat_outline hfs.1).append (FunDecl.flat_outlineAll hfs.2)

end

end

/-! ## The text of an outline -/

/-- Lines are found again in the text that joins them. -/
theorem Outline.Flat.splitOn_intercalate {lines : List String} (h : Flat lines)
    (hne : lines ≠ []) :
    (String.intercalate "\n" lines).toList.splitOn '\n' = lines.map String.toList := by
  rw [String.toList_intercalate]
  refine List.splitOn_intercalate '\n' (fun line hline => ?_) (by simpa using hne)
  obtain ⟨line, hmem, rfl⟩ := List.mem_map.mp hline
  exact h line hmem

/-- Lines that say nothing are none, if the first of them would say something. -/
theorem Outline.Flat.eq_nil {lines : List String} (h : Flat lines) (hhead : lines.head? ≠ some "")
    (hjoined : String.intercalate "\n" lines = "") : lines = [] := by
  by_contra hne
  have hlines := h.splitOn_intercalate hne
  rw [hjoined] at hlines
  obtain ⟨line, rest, rfl⟩ := List.exists_cons_of_ne_nil hne
  exact hhead (congrArg some (String.toList_inj.mp (List.cons.inj hlines).1.symm))

/-- Lines that are not empty at their head are known by the text that joins them. -/
theorem Outline.Flat.intercalate_injective {lines lines' : List String} (h : Flat lines)
    (h' : Flat lines') (hhead : lines.head? ≠ some "") (hhead' : lines'.head? ≠ some "")
    (heq : String.intercalate "\n" lines = String.intercalate "\n" lines') : lines = lines' := by
  by_cases hnil : lines = []
  · exact hnil.trans (h'.eq_nil hhead' (heq ▸ hnil ▸ rfl)).symm
  · have hnil' : lines' ≠ [] := fun hnil' => hnil (h.eq_nil hhead (heq.trans (hnil' ▸ rfl)))
    have hlines := h.splitOn_intercalate hnil
    rw [heq, h'.splitOn_intercalate hnil'] at hlines
    exact (List.map_injective_iff.mpr fun _ _ h => String.toList_inj.mp h) hlines.symm

theorem Stmt.outlineAll_head {δ : Type} (level : Nat) (ss : List (Stmt δ)) :
    (Stmt.outlineAll level ss).head? ≠ some "" := by
  cases ss with
  | nil => exact fun h => by cases h
  | cons s ss =>
      obtain ⟨parts, hparts⟩ := s.outline_heading level
      rw [Stmt.outlineAll, hparts]
      intro h
      have hkind := congrArg String.toList (Option.some.inj h)
      rw [heading, String.toList_append, String.toList_empty, List.append_eq_nil_iff] at hkind
      exact absurd hkind.2 (by cases s <;> simp [Stmt.kindName])

/-- The text of an outline shows its tree. -/
theorem outlineText_injective {level : Nat} {p p' : List (Stmt Unit)} (hp : Stmt.LexicalAll p)
    (hp' : Stmt.LexicalAll p') (h : outlineText level p = outlineText level p') :
    Stmt.unplacedAll p = Stmt.unplacedAll p' := by
  have hlines := (Stmt.flat_outlineAll hp).intercalate_injective (Stmt.flat_outlineAll hp')
    (Stmt.outlineAll_head level p) (Stmt.outlineAll_head level p') h
  exact (Stmt.outlineAll_injective hp hp' ends_nil ends_nil (congrArg (· ++ []) hlines) 0).1

end Lox
