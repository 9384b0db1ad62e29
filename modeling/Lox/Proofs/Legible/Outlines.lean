import Lox.Proofs.Legible.Lexical
import Lox.Proofs.Legible.Quotes
import Lox.Proofs.Numerals.Paper
import Lox.Tree.Outline

/-!
# An outline shows its tree

Each line of an outline says how deep it stands and which part it begins, so what follows a
part never looks like more of it. Reading the lines from the front, the kind of a node tells
which parts come, and each part ends where the next begins: two trees made of lexemes with one
outline are the same, up to the places of their tokens.
-/

namespace Lox

/-- The expression without the places of its tokens. -/
def Expr.unplaced (e : Expr Unit) : Expr Unit :=
  e.map Token.unplaced id

/-- The statements without the places of their tokens. -/
def Stmt.unplacedAll (ss : List (Stmt Unit)) : List (Stmt Unit) :=
  Stmt.mapAll Token.unplaced (fun _ => id) 0 ss

namespace Outline

variable {level : Nat} {name text text' : String} {lines lines' rest rest' : List String}

/-- The line that ends a list. -/
def closing (level : Nat) : String :=
  indentation (level + 1) ++ "]"

/-! ## Lines apart -/

theorem heading_injective {kind kind' : String} (h : heading level kind = heading level kind') :
    kind = kind' :=
  (String.append_right_inj _).mp h

theorem field_injective
    (h : field level name text ++ rest = field level name text' ++ rest') :
    text = text' ∧ rest = rest' := by
  simp only [field, List.singleton_append, List.cons.injEq] at h
  exact ⟨(String.append_right_inj _).mp h.1, h.2⟩

theorem child_injective (h : child level name lines ++ rest = child level name lines' ++ rest') :
    lines ++ rest = lines' ++ rest' := by
  simpa only [child, List.cons_append, List.cons.injEq, true_and] using h

theorem items_injective (h : items level name lines ++ rest = items level name lines' ++ rest') :
    lines ++ closing level :: rest = lines' ++ closing level :: rest' := by
  simpa only [items, closing, List.cons_append, List.append_assoc, List.nil_append,
    List.cons.injEq, true_and] using h

/-- A part that stands on the line of its name is not one that follows it. -/
theorem field_ne_child : field level name text ++ rest ≠ child level name lines ++ rest' := by
  intro h
  simp only [field, child, List.cons_append, List.cons.injEq] at h
  have hline := congrArg String.toList h.1
  simp only [String.toList_append, List.append_assoc] at hline
  have hcolon := List.append_cancel_left (List.append_cancel_left hline)
  exact absurd (congrArg List.length hcolon) (by simp)

/-- No further node of this level begins here. -/
def Ends (level : Nat) (rest : List String) : Prop :=
  ∀ text, rest.head? ≠ some (indentation level ++ text)

theorem ends_nil : Ends level [] :=
  fun _ h => by cases h

/-- The line that ends a list stands less deep than its items. -/
theorem ends_closing (level : Nat) (rest : List String) :
    Ends (level + 2) (closing level :: rest) := by
  intro text h
  have hline := congrArg String.toList (Option.some.inj h)
  have hdeeper : 2 * (level + 2) = 2 * (level + 1) + 2 := by omega
  simp only [closing, indentation, String.toList_append, String.toList_ofList, hdeeper,
    List.replicate_add, List.append_assoc] at hline
  have hhead := List.append_cancel_left hline
  cases hhead

end Outline

open Outline Token

/-! ## Constants and lexemes -/

theorem Layout.number_dumped (x : Float) : ∃ b, Dumped b (Layout.dump.number x).toList :=
  ⟨_, Layout.dumped (Binary.ofFloat x)⟩

/-- What a dump shows of a number starts with a sign, a digit, or the name of what is none. -/
theorem Layout.dump_head (x : Float) :
    ∃ c cs, (Layout.dump.number x).toList = c :: cs ∧
      (Piece.isDigit c = true ∨ c = '-' ∨ c = 'n' ∨ c = 'i') := by
  obtain ⟨b, hdumped⟩ := Layout.number_dumped x
  generalize (Layout.dump.number x).toList = text at hdumped
  cases hdumped with
  | nan => exact ⟨_, _, rfl, .inr (.inr (.inl rfl))⟩
  | infinity => exact ⟨_, _, rfl, .inr (.inr (.inr rfl))⟩
  | negativeInfinity => exact ⟨_, _, rfl, .inr (.inl rfl)⟩
  | finite hnumeral =>
      obtain ⟨c, cs, rfl, hc⟩ := hnumeral.head
      exact ⟨c, cs, rfl, .inl hc⟩
  | negative => exact ⟨_, _, rfl, .inr (.inl rfl)⟩

theorem Piece.ne_of_test {q : Char → Bool} {c : Char} (h : q c = true) (d : Char)
    (hd : q d = false) : c ≠ d := by
  rintro rfl
  rw [h] at hd
  cases hd

/-- The sorts of constants, where the two truth values are one each. -/
def Constant.sort : Constant → Nat
  | .nil => 0
  | .bool true => 1
  | .bool false => 2
  | .number _ => 3
  | .text _ => 4

/-- The first character of what is shown of a constant tells its sort. -/
def Constant.HeadTells (sortOf : Char → Nat) (shown : String) (value : Constant) : Prop :=
  ∃ c cs, shown.toList = c :: cs ∧ sortOf c = value.sort

/-- What is shown of a constant tells which one it is, if it does so for numbers and for
texts, and its first character tells the sort. -/
theorem Constant.eq_of_heads {f : Constant → String} {sortOf : Char → Nat}
    {value value' : Constant} (hhead : HeadTells sortOf (f value) value)
    (hhead' : HeadTells sortOf (f value') value')
    (hnumber : ∀ x y, f (.number x) = f (.number y) → x = y)
    (htext : ∀ s s', f (.text s) = f (.text s') → s = s') (h : f value = f value') :
    value = value' := by
  obtain ⟨c, cs, hshown, hsort⟩ := hhead
  obtain ⟨c', cs', hshown', hsort'⟩ := hhead'
  rw [h, hshown'] at hshown
  obtain ⟨rfl, -⟩ := List.cons.inj hshown
  have hsame := hsort.symm.trans hsort'
  cases value with
  | nil => rcases value' with _ | ⟨_ | _⟩ | _ | _ <;> first | rfl | cases hsame
  | bool b => cases b <;> rcases value' with _ | ⟨_ | _⟩ | _ | _ <;> first | rfl | cases hsame
  | number x =>
      rcases value' with _ | ⟨_ | _⟩ | y | _
      case number => exact congrArg Constant.number (hnumber x y h)
      all_goals cases hsame
  | text s =>
      rcases value' with _ | ⟨_ | _⟩ | _ | s'
      case text => exact congrArg Constant.text (htext s s' h)
      all_goals cases hsame

/-- The first character of a constant in an outline tells its sort. -/
def Constant.sortOfHead (c : Char) : Nat :=
  if c = 'N' then 0 else if c = 'T' then 1 else if c = 'F' then 2
  else if c = '\'' ∨ c = '"' then 4 else 3

theorem Constant.outline_head (value : Constant) : HeadTells sortOfHead value.outline value := by
  cases value with
  | nil => exact ⟨_, _, rfl, rfl⟩
  | bool b => cases b <;> exact ⟨_, _, rfl, rfl⟩
  | number x =>
      obtain ⟨c, cs, htext, hc⟩ := Layout.dump_head x
      refine ⟨c, cs, htext, ?_⟩
      rcases hc with hc | rfl | rfl | rfl
      · have hne := Piece.ne_of_test hc
        simp [sortOfHead, sort, hne 'N' rfl, hne 'T' rfl, hne 'F' rfl, hne '\'' rfl, hne '"' rfl]
      · rfl
      · rfl
      · rfl
  | text s =>
      obtain ⟨quote, hquote, htext⟩ := quoted_toList s
      refine ⟨quote, _, htext, ?_⟩
      rcases hquote with rfl | rfl <;> rfl

/-- The outline of a constant tells which one it is. -/
theorem Constant.outline_injective {value value' : Constant}
    (h : value.outline = value'.outline) : value = value' :=
  eq_of_heads value.outline_head value'.outline_head (fun _ _ => Layout.dump_number_injective)
    (fun _ _ => quoted_injective) h

/-! ## Expressions -/

/-- The name of the kind of a node. -/
def Expr.kindName {δ : Type} : Expr δ → String
  | .literal _ => "Literal"
  | .unary .. => "UnaryOp"
  | .binary .. => "BinaryOp"
  | .logical .. => "LogicalOp"
  | .conditional .. => "ConditionalExpr"
  | .grouping _ => "Grouping"
  | .var .. => "Identifier"
  | .assign .. => "Assignment"
  | .call .. => "FunctionCall"
  | .get .. => "MemberAccess"
  | .set .. => "MemberAssignment"
  | .thisRef .. => "ThisExpr"
  | .superRef .. => "SuperAccess"
  | .vector .. => "VectorLiteral"

theorem Expr.outline_heading {δ : Type} (level : Nat) (e : Expr δ) :
    ∃ parts, e.outline level = heading level e.kindName :: parts := by
  cases e <;> exact ⟨_, rfl⟩

theorem Expr.kindName_eq {level : Nat} {e e' : Expr Unit} {rest rest' : List String}
    (h : e.outline level ++ rest = e'.outline level ++ rest') : e.kindName = e'.kindName := by
  obtain ⟨parts, hparts⟩ := e.outline_heading level
  obtain ⟨parts', hparts'⟩ := e'.outline_heading level
  rw [hparts, hparts'] at h
  exact heading_injective (List.cons.inj h).1

mutual

/-- The lines of an expression tell which one it is, whatever follows them. -/
theorem Expr.outline_injective {level : Nat} {e e' : Expr Unit} {rest rest' : List String}
    (he : e.Lexical) (he' : e'.Lexical)
    (h : e.outline level ++ rest = e'.outline level ++ rest') :
    e.unplaced = e'.unplaced ∧ rest = rest' := by
  have hkind := Expr.kindName_eq h
  match e with
  | .literal value =>
      cases e' with
      | literal value' =>
          obtain ⟨hvalue, hrest⟩ := field_injective (List.cons.inj h).2
          exact ⟨congrArg Expr.literal (Constant.outline_injective hvalue), hrest⟩
      | _ => exact absurd hkind (by simp [Expr.kindName])
  | .unary operator operand =>
      cases e' with
      | unary operator' operand' =>
          simp only [Expr.outline, List.cons_append, List.append_assoc, List.cons.injEq] at h
          obtain ⟨hoperator, h⟩ := field_injective h.2
          obtain ⟨hoperand, hrest⟩ := Expr.outline_injective he.2 he'.2 (child_injective h)
          exact ⟨congrArg₂ Expr.unary (he.1.unplaced_eq he'.1 hoperator) hoperand, hrest⟩
      | _ => exact absurd hkind (by simp [Expr.kindName])
  | .binary left operator right =>
      cases e' with
      | binary left' operator' right' =>
          simp only [Expr.outline, List.cons_append, List.append_assoc, List.cons.injEq] at h
          obtain ⟨hleft, h⟩ := Expr.outline_injective he.1 he'.1 (child_injective h.2)
          obtain ⟨hoperator, h⟩ := field_injective h
          obtain ⟨hright, hrest⟩ := Expr.outline_injective he.2.2 he'.2.2 (child_injective h)
          have hsame := he.2.1.unplaced_eq he'.2.1 hoperator
          have hnode := congr (congrArg₂ Expr.binary hleft hsame) hright
          exact ⟨hnode, hrest⟩
      | _ => exact absurd hkind (by simp [Expr.kindName])
  | .logical left operator right =>
      cases e' with
      | logical left' operator' right' =>
          simp only [Expr.outline, List.cons_append, List.append_assoc, List.cons.injEq] at h
          obtain ⟨hleft, h⟩ := Expr.outline_injective he.1 he'.1 (child_injective h.2)
          obtain ⟨hoperator, h⟩ := field_injective h
          obtain ⟨hright, hrest⟩ := Expr.outline_injective he.2.2 he'.2.2 (child_injective h)
          have hsame := he.2.1.unplaced_eq he'.2.1 hoperator
          have hnode := congr (congrArg₂ Expr.logical hleft hsame) hright
          exact ⟨hnode, hrest⟩
      | _ => exact absurd hkind (by simp [Expr.kindName])
  | .conditional condition thenBranch elseBranch =>
      cases e' with
      | conditional condition' thenBranch' elseBranch' =>
          simp only [Expr.outline, List.cons_append, List.append_assoc, List.cons.injEq] at h
          obtain ⟨hc, h⟩ := Expr.outline_injective he.1 he'.1 (child_injective h.2)
          obtain ⟨ha, h⟩ := Expr.outline_injective he.2.1 he'.2.1 (child_injective h)
          obtain ⟨hb, hrest⟩ := Expr.outline_injective he.2.2 he'.2.2 (child_injective h)
          have hnode := congr (congrArg₂ Expr.conditional hc ha) hb
          exact ⟨hnode, hrest⟩
      | _ => exact absurd hkind (by simp [Expr.kindName])
  | .grouping inner =>
      cases e' with
      | grouping inner' =>
          have hlexical : inner.Lexical := he
          have hlexical' : inner'.Lexical := he'
          obtain ⟨hinner, hrest⟩ :=
            Expr.outline_injective hlexical hlexical' (child_injective (List.cons.inj h).2)
          exact ⟨congrArg Expr.grouping hinner, hrest⟩
      | _ => exact absurd hkind (by simp [Expr.kindName])
  | .var name slot =>
      cases e' with
      | var name' slot' =>
          obtain ⟨hname, hrest⟩ := field_injective (List.cons.inj h).2
          exact ⟨congrArg (Expr.var · ()) (he.unplaced_eq he' hname), hrest⟩
      | _ => exact absurd hkind (by simp [Expr.kindName])
  | .assign name slot value =>
      cases e' with
      | assign name' slot' value' =>
          simp only [Expr.outline, List.cons_append, List.append_assoc, List.cons.injEq] at h
          obtain ⟨hname, h⟩ := field_injective h.2
          obtain ⟨hvalue, hrest⟩ := Expr.outline_injective he.2 he'.2 (child_injective h)
          exact ⟨congrArg₂ (Expr.assign · ()) (he.1.unplaced_eq he'.1 hname) hvalue, hrest⟩
      | _ => exact absurd hkind (by simp [Expr.kindName])
  | .call callee paren arguments =>
      cases e' with
      | call callee' paren' arguments' =>
          simp only [Expr.outline, List.cons_append, List.append_assoc, List.cons.injEq] at h
          obtain ⟨hcallee, h⟩ := Expr.outline_injective he.1 he'.1 (child_injective h.2)
          obtain ⟨hparen, h⟩ := field_injective h
          obtain ⟨harguments, hclosing⟩ := Expr.outlineAll_injective he.2.2 he'.2.2
            (ends_closing level _) (ends_closing level _) (items_injective h)
          have hrest := (List.cons.inj hclosing).2
          have hsame := he.2.1.unplaced_eq he'.2.1 hparen
          have hnode := congr (congrArg₂ Expr.call hcallee hsame) harguments
          exact ⟨hnode, hrest⟩
      | _ => exact absurd hkind (by simp [Expr.kindName])
  | .get object name =>
      cases e' with
      | get object' name' =>
          simp only [Expr.outline, List.cons_append, List.append_assoc, List.cons.injEq] at h
          obtain ⟨hobject, h⟩ := Expr.outline_injective he.1 he'.1 (child_injective h.2)
          obtain ⟨hname, hrest⟩ := field_injective h
          exact ⟨congrArg₂ Expr.get hobject (he.2.unplaced_eq he'.2 hname), hrest⟩
      | _ => exact absurd hkind (by simp [Expr.kindName])
  | .set object name value =>
      cases e' with
      | set object' name' value' =>
          simp only [Expr.outline, List.cons_append, List.append_assoc, List.cons.injEq] at h
          obtain ⟨hobject, h⟩ := Expr.outline_injective he.1 he'.1 (child_injective h.2)
          obtain ⟨hname, h⟩ := field_injective h
          obtain ⟨hvalue, hrest⟩ := Expr.outline_injective he.2.2 he'.2.2 (child_injective h)
          have hsame := he.2.1.unplaced_eq he'.2.1 hname
          have hnode := congr (congrArg₂ Expr.set hobject hsame) hvalue
          exact ⟨hnode, hrest⟩
      | _ => exact absurd hkind (by simp [Expr.kindName])
  | .thisRef keyword slot =>
      cases e' with
      | thisRef keyword' slot' =>
          obtain ⟨hkeyword, hrest⟩ := field_injective (List.cons.inj h).2
          exact ⟨congrArg (Expr.thisRef · ()) (he.unplaced_eq he' hkeyword), hrest⟩
      | _ => exact absurd hkind (by simp [Expr.kindName])
  | .superRef keyword method slot =>
      cases e' with
      | superRef keyword' method' slot' =>
          simp only [Expr.outline, List.cons_append, List.append_assoc, List.cons.injEq] at h
          obtain ⟨hkeyword, h⟩ := field_injective h.2
          obtain ⟨hmethod, hrest⟩ := field_injective h
          have hsame := he.1.unplaced_eq he'.1 hkeyword
          have hsame' := he.2.unplaced_eq he'.2 hmethod
          exact ⟨congrArg₂ (Expr.superRef · · ()) hsame hsame', hrest⟩
      | _ => exact absurd hkind (by simp [Expr.kindName])
  | .vector bracket elements =>
      cases e' with
      | vector bracket' elements' =>
          simp only [Expr.outline, List.cons_append, List.append_assoc, List.cons.injEq] at h
          obtain ⟨hbracket, h⟩ := field_injective h.2
          obtain ⟨helements, hclosing⟩ := Expr.outlineAll_injective he.2 he'.2
            (ends_closing level _) (ends_closing level _) (items_injective h)
          have hnode := congrArg₂ Expr.vector (he.1.unplaced_eq he'.1 hbracket) helements
          exact ⟨hnode, (List.cons.inj hclosing).2⟩
      | _ => exact absurd hkind (by simp [Expr.kindName])

/-- The items of a list tell which they are, up to where the list ends. -/
theorem Expr.outlineAll_injective {level : Nat} {es es' : List (Expr Unit)}
    {rest rest' : List String} (hes : Expr.LexicalAll es) (hes' : Expr.LexicalAll es')
    (hends : Ends level rest) (hends' : Ends level rest')
    (h : Expr.outlineAll level es ++ rest = Expr.outlineAll level es' ++ rest') :
    Expr.mapAll Token.unplaced id es = Expr.mapAll Token.unplaced id es' ∧ rest = rest' := by
  match es with
  | [] =>
      cases es' with
      | nil => exact ⟨rfl, h⟩
      | cons e' es' =>
          obtain ⟨parts, hparts⟩ := e'.outline_heading level
          rw [Expr.outlineAll, Expr.outlineAll, hparts] at h
          exact absurd (congrArg List.head? h) (hends _)
  | e :: es =>
      cases es' with
      | nil =>
          obtain ⟨parts, hparts⟩ := e.outline_heading level
          rw [Expr.outlineAll, Expr.outlineAll, hparts] at h
          exact absurd (congrArg List.head? h.symm) (hends' _)
      | cons e' es' =>
          rw [Expr.outlineAll, Expr.outlineAll, List.append_assoc, List.append_assoc] at h
          obtain ⟨he, h⟩ := Expr.outline_injective hes.1 hes'.1 h
          obtain ⟨hrest, h⟩ := Expr.outlineAll_injective hes.2 hes'.2 hends hends' h
          exact ⟨congrArg₂ List.cons he hrest, h⟩

end

/-! ## Statements -/

section

variable {level : Nat} {rest rest' : List String}

theorem Expr.outlineOption_injective {name : String} {e e' : Option (Expr Unit)}
    (he : Expr.LexicalOption e) (he' : Expr.LexicalOption e')
    (h : Expr.outlineOption level name e ++ rest = Expr.outlineOption level name e' ++ rest') :
    e.map (Expr.map Token.unplaced id) = e'.map (Expr.map Token.unplaced id) ∧ rest = rest' := by
  cases e with
  | none =>
      cases e' with
      | none => exact ⟨rfl, (field_injective h).2⟩
      | some e' => exact absurd h field_ne_child
  | some e =>
      cases e' with
      | none => exact absurd h.symm field_ne_child
      | some e' =>
          obtain ⟨hsame, hrest⟩ :=
            Expr.outline_injective (he e rfl) (he' e' rfl) (child_injective h)
          exact ⟨congrArg some hsame, hrest⟩

theorem Reference.outlineOption_injective {r r' : Option (Reference Unit)}
    (hr : ∀ x ∈ r, x.name.IsA .identifier) (hr' : ∀ x ∈ r', x.name.IsA .identifier)
    (h : Reference.outlineOption level r ++ rest = Reference.outlineOption level r' ++ rest') :
    r.map (Reference.map Token.unplaced id) = r'.map (Reference.map Token.unplaced id) ∧
      rest = rest' := by
  cases r with
  | none =>
      cases r' with
      | none => exact ⟨rfl, (field_injective h).2⟩
      | some r' => exact absurd h field_ne_child
  | some r =>
      cases r' with
      | none => exact absurd h.symm field_ne_child
      | some r' =>
          have hnode := (List.cons.inj (child_injective h)).2
          obtain ⟨hname, hrest⟩ := field_injective hnode
          have hsame := (hr r rfl).unplaced_eq (hr' r' rfl) hname
          exact ⟨congrArg (fun name => some (Reference.mk name ())) hsame, hrest⟩

/-- A list of names ends where no further name stands. -/
theorem Outline.names_injective {name : String} {ts ts' : List Token}
    (hts : ∀ t ∈ ts, t.IsA .identifier) (hts' : ∀ t ∈ ts', t.IsA .identifier)
    (h : names level name ts ++ rest = names level name ts' ++ rest') :
    ts.map Token.unplaced = ts'.map Token.unplaced ∧ rest = rest' := by
  have hitems := items_injective h
  have hends := ends_closing level
  generalize closing level = last at hitems hends
  clear h
  induction ts generalizing ts' with
  | nil =>
      cases ts' with
      | nil => exact ⟨rfl, (List.cons.inj hitems).2⟩
      | cons t' ts' => exact absurd (congrArg List.head? hitems) (hends rest _)
  | cons t ts ih =>
      cases ts' with
      | nil => exact absurd (congrArg List.head? hitems.symm) (hends rest' _)
      | cons t' ts' =>
          obtain ⟨ht, hts⟩ := List.forall_mem_cons.mp hts
          obtain ⟨ht', hts'⟩ := List.forall_mem_cons.mp hts'
          obtain ⟨hname, hitems⟩ := List.cons.inj hitems
          obtain ⟨hrest, hlines⟩ := ih hts hts' hitems
          have hsame := ht.unplaced_eq ht' ((String.append_right_inj _).mp hname)
          exact ⟨congrArg₂ List.cons hsame hrest, hlines⟩

/-- The name of the kind of a node. An `if` has one, with an `else` or without. -/
def Stmt.kindName {δ : Type} : Stmt δ → String
  | .expression _ => "ExpressionStatement"
  | .print _ => "PrintStatement"
  | .varDecl .. => "VarDecl"
  | .block _ => "Block"
  | .ifThen .. | .ifElse .. => "IfStatement"
  | .whileLoop .. => "WhileStatement"
  | .function _ => "FunctionDef"
  | .ret .. => "ReturnStatement"
  | .classDecl .. => "ClassDef"

theorem FunDecl.outline_heading {δ : Type} (level : Nat) (f : FunDecl δ) :
    ∃ parts, f.outline level = heading level "FunctionDef" :: parts := by
  cases f
  exact ⟨_, rfl⟩

theorem Stmt.outline_heading {δ : Type} (level : Nat) (s : Stmt δ) :
    ∃ parts, s.outline level = heading level s.kindName :: parts := by
  cases s with
  | function f => exact f.outline_heading level
  | _ => exact ⟨_, rfl⟩

theorem Stmt.kindName_eq {s s' : Stmt Unit}
    (h : s.outline level ++ rest = s'.outline level ++ rest') : s.kindName = s'.kindName := by
  obtain ⟨parts, hparts⟩ := s.outline_heading level
  obtain ⟨parts', hparts'⟩ := s'.outline_heading level
  rw [hparts, hparts'] at h
  exact heading_injective (List.cons.inj h).1

end

mutual

/-- The lines of a statement tell which one it is, whatever follows them. -/
theorem Stmt.outline_injective {level : Nat} {s s' : Stmt Unit} {rest rest' : List String}
    (hs : s.Lexical) (hs' : s'.Lexical)
    (h : s.outline level ++ rest = s'.outline level ++ rest') (n : Nat) :
    s.map Token.unplaced (fun _ => id) n = s'.map Token.unplaced (fun _ => id) n ∧
      rest = rest' := by
  have hkind := Stmt.kindName_eq h
  match s with
  | .expression e =>
      cases s' with
      | expression e' =>
          have hlexical : e.Lexical := hs
          have hlexical' : e'.Lexical := hs'
          obtain ⟨he, hrest⟩ :=
            Expr.outline_injective hlexical hlexical' (child_injective (List.cons.inj h).2)
          exact ⟨congrArg Stmt.expression he, hrest⟩
      | _ => exact absurd hkind (by simp [Stmt.kindName])
  | .print e =>
      cases s' with
      | print e' =>
          have hlexical : e.Lexical := hs
          have hlexical' : e'.Lexical := hs'
          obtain ⟨he, hrest⟩ :=
            Expr.outline_injective hlexical hlexical' (child_injective (List.cons.inj h).2)
          exact ⟨congrArg Stmt.print he, hrest⟩
      | _ => exact absurd hkind (by simp [Stmt.kindName])
  | .varDecl name initializer =>
      cases s' with
      | varDecl name' initializer' =>
          simp only [Stmt.outline, List.cons_append, List.append_assoc, List.cons.injEq] at h
          obtain ⟨hname, h⟩ := field_injective h.2
          obtain ⟨he, hrest⟩ := Expr.outlineOption_injective hs.2 hs'.2 h
          exact ⟨congrArg₂ Stmt.varDecl (hs.1.unplaced_eq hs'.1 hname) he, hrest⟩
      | _ => exact absurd hkind (by simp [Stmt.kindName])
  | .block body =>
      cases s' with
      | block body' =>
          have hlexical : Stmt.LexicalAll body := hs
          have hlexical' : Stmt.LexicalAll body' := hs'
          obtain ⟨hbody, hclosing⟩ := Stmt.outlineAll_injective hlexical hlexical'
            (ends_closing level _) (ends_closing level _) (items_injective (List.cons.inj h).2)
            (n + 1)
          exact ⟨congrArg Stmt.block hbody, (List.cons.inj hclosing).2⟩
      | _ => exact absurd hkind (by simp [Stmt.kindName])
  | .ifThen condition thenBranch =>
      cases s' with
      | ifThen condition' thenBranch' =>
          simp only [Stmt.outline, List.cons_append, List.append_assoc, List.cons.injEq] at h
          obtain ⟨hc, h⟩ := Expr.outline_injective hs.1 hs'.1 (child_injective h.2)
          obtain ⟨ha, h⟩ := Stmt.outline_injective hs.2 hs'.2 (child_injective h) n
          exact ⟨congrArg₂ Stmt.ifThen hc ha, (field_injective h).2⟩
      | ifElse condition' thenBranch' elseBranch' =>
          simp only [Stmt.outline, List.cons_append, List.append_assoc, List.cons.injEq] at h
          obtain ⟨hc, h⟩ := Expr.outline_injective hs.1 hs'.1 (child_injective h.2)
          obtain ⟨ha, h⟩ := Stmt.outline_injective hs.2 hs'.2.1 (child_injective h) n
          exact absurd h field_ne_child
      | _ => exact absurd hkind (by simp [Stmt.kindName])
  | .ifElse condition thenBranch elseBranch =>
      cases s' with
      | ifElse condition' thenBranch' elseBranch' =>
          simp only [Stmt.outline, List.cons_append, List.append_assoc, List.cons.injEq] at h
          obtain ⟨hc, h⟩ := Expr.outline_injective hs.1 hs'.1 (child_injective h.2)
          obtain ⟨ha, h⟩ := Stmt.outline_injective hs.2.1 hs'.2.1 (child_injective h) n
          obtain ⟨hb, hrest⟩ := Stmt.outline_injective hs.2.2 hs'.2.2 (child_injective h) n
          have hnode := congr (congrArg₂ Stmt.ifElse hc ha) hb
          exact ⟨hnode, hrest⟩
      | ifThen condition' thenBranch' =>
          simp only [Stmt.outline, List.cons_append, List.append_assoc, List.cons.injEq] at h
          obtain ⟨hc, h⟩ := Expr.outline_injective hs.1 hs'.1 (child_injective h.2)
          obtain ⟨ha, h⟩ := Stmt.outline_injective hs.2.1 hs'.2 (child_injective h) n
          exact absurd h.symm field_ne_child
      | _ => exact absurd hkind (by simp [Stmt.kindName])
  | .whileLoop condition body =>
      cases s' with
      | whileLoop condition' body' =>
          simp only [Stmt.outline, List.cons_append, List.append_assoc, List.cons.injEq] at h
          obtain ⟨hc, h⟩ := Expr.outline_injective hs.1 hs'.1 (child_injective h.2)
          obtain ⟨hbody, hrest⟩ := Stmt.outline_injective hs.2 hs'.2 (child_injective h) n
          exact ⟨congrArg₂ Stmt.whileLoop hc hbody, hrest⟩
      | _ => exact absurd hkind (by simp [Stmt.kindName])
  | .function f =>
      cases s' with
      | function f' =>
          have hlexical : f.Lexical := hs
          have hlexical' : f'.Lexical := hs'
          obtain ⟨hf, hrest⟩ := FunDecl.outline_injective hlexical hlexical' h n
          exact ⟨congrArg Stmt.function hf, hrest⟩
      | _ => exact absurd hkind (by simp [Stmt.kindName])
  | .ret keyword value =>
      cases s' with
      | ret keyword' value' =>
          simp only [Stmt.outline, List.cons_append, List.append_assoc, List.cons.injEq] at h
          obtain ⟨hkeyword, h⟩ := field_injective h.2
          obtain ⟨he, hrest⟩ := Expr.outlineOption_injective hs.2 hs'.2 h
          exact ⟨congrArg₂ Stmt.ret (hs.1.unplaced_eq hs'.1 hkeyword) he, hrest⟩
      | _ => exact absurd hkind (by simp [Stmt.kindName])
  | .classDecl name superclass methods =>
      cases s' with
      | classDecl name' superclass' methods' =>
          simp only [Stmt.outline, List.cons_append, List.append_assoc, List.cons.injEq] at h
          obtain ⟨hname, h⟩ := field_injective h.2
          obtain ⟨hparent, h⟩ := Reference.outlineOption_injective hs.2.1 hs'.2.1 h
          obtain ⟨hmethods, hclosing⟩ := FunDecl.outlineAll_injective hs.2.2 hs'.2.2
            (ends_closing level _) (ends_closing level _) (items_injective h)
            (methodDepth superclass n)
          have hdepth : methodDepth superclass n = methodDepth superclass' n := by
            have hsome := congrArg Option.isSome hparent
            simp only [Option.isSome_map] at hsome
            rw [methodDepth, methodDepth, hsome]
          have hsame := hs.1.unplaced_eq hs'.1 hname
          have hnode := congr (congrArg₂ Stmt.classDecl hsame hparent) hmethods
          simp only [Stmt.map]
          exact ⟨hdepth ▸ hnode, (List.cons.inj hclosing).2⟩
      | _ => exact absurd hkind (by simp [Stmt.kindName])

theorem Stmt.outlineAll_injective {level : Nat} {ss ss' : List (Stmt Unit)}
    {rest rest' : List String} (hss : Stmt.LexicalAll ss) (hss' : Stmt.LexicalAll ss')
    (hends : Ends level rest) (hends' : Ends level rest')
    (h : Stmt.outlineAll level ss ++ rest = Stmt.outlineAll level ss' ++ rest') (n : Nat) :
    Stmt.mapAll Token.unplaced (fun _ => id) n ss =
      Stmt.mapAll Token.unplaced (fun _ => id) n ss' ∧ rest = rest' := by
  match ss with
  | [] =>
      cases ss' with
      | nil => exact ⟨rfl, h⟩
      | cons s' ss' =>
          obtain ⟨parts, hparts⟩ := s'.outline_heading level
          rw [Stmt.outlineAll, Stmt.outlineAll, hparts] at h
          exact absurd (congrArg List.head? h) (hends _)
  | s :: ss =>
      cases ss' with
      | nil =>
          obtain ⟨parts, hparts⟩ := s.outline_heading level
          rw [Stmt.outlineAll, Stmt.outlineAll, hparts] at h
          exact absurd (congrArg List.head? h.symm) (hends' _)
      | cons s' ss' =>
          rw [Stmt.outlineAll, Stmt.outlineAll, List.append_assoc, List.append_assoc] at h
          obtain ⟨hs, h⟩ := Stmt.outline_injective hss.1 hss'.1 h n
          obtain ⟨hrest, h⟩ := Stmt.outlineAll_injective hss.2 hss'.2 hends hends' h n
          exact ⟨congrArg₂ List.cons hs hrest, h⟩

theorem FunDecl.outline_injective {level : Nat} {f f' : FunDecl Unit} {rest rest' : List String}
    (hf : f.Lexical) (hf' : f'.Lexical)
    (h : f.outline level ++ rest = f'.outline level ++ rest') (n : Nat) :
    f.map Token.unplaced (fun _ => id) n = f'.map Token.unplaced (fun _ => id) n ∧
      rest = rest' := by
  match f with
  | .mk name params body =>
      cases f' with
      | mk name' params' body' =>
          simp only [FunDecl.outline, List.cons_append, List.append_assoc, List.cons.injEq] at h
          obtain ⟨hname, h⟩ := field_injective h.2
          obtain ⟨hparams, h⟩ := names_injective hf.2.1 hf'.2.1 h
          obtain ⟨hbody, hclosing⟩ := Stmt.outlineAll_injective hf.2.2 hf'.2.2
            (ends_closing level _) (ends_closing level _) (items_injective h) (n + 1)
          have hsame := hf.1.unplaced_eq hf'.1 hname
          have hnode := congr (congrArg₂ FunDecl.mk hsame hparams) hbody
          exact ⟨hnode, (List.cons.inj hclosing).2⟩

theorem FunDecl.outlineAll_injective {level : Nat} {fs fs' : List (FunDecl Unit)}
    {rest rest' : List String} (hfs : FunDecl.LexicalAll fs) (hfs' : FunDecl.LexicalAll fs')
    (hends : Ends level rest) (hends' : Ends level rest')
    (h : FunDecl.outlineAll level fs ++ rest = FunDecl.outlineAll level fs' ++ rest') (n : Nat) :
    FunDecl.mapAll Token.unplaced (fun _ => id) n fs =
      FunDecl.mapAll Token.unplaced (fun _ => id) n fs' ∧ rest = rest' := by
  match fs with
  | [] =>
      cases fs' with
      | nil => exact ⟨rfl, h⟩
      | cons f' fs' =>
          obtain ⟨parts, hparts⟩ := f'.outline_heading level
          rw [FunDecl.outlineAll, FunDecl.outlineAll, hparts] at h
          exact absurd (congrArg List.head? h) (hends _)
  | f :: fs =>
      cases fs' with
      | nil =>
          obtain ⟨parts, hparts⟩ := f.outline_heading level
          rw [FunDecl.outlineAll, FunDecl.outlineAll, hparts] at h
          exact absurd (congrArg List.head? h.symm) (hends' _)
      | cons f' fs' =>
          rw [FunDecl.outlineAll, FunDecl.outlineAll, List.append_assoc, List.append_assoc] at h
          obtain ⟨hf, h⟩ := FunDecl.outline_injective hfs.1 hfs'.1 h n
          obtain ⟨hrest, h⟩ := FunDecl.outlineAll_injective hfs.2 hfs'.2 hends hends' h n
          exact ⟨congrArg₂ List.cons hf hrest, h⟩

end

end Lox
