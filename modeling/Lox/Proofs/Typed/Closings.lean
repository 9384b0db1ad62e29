import Lox.Proofs.Imports.Assembly
import Lox.Proofs.Imports.Whole

/-!
# How programs end

A declaration is closed by its last token, a semicolon or a brace. Of a semicolon only the kind
counts, since no tree keeps it, and what stands in front of it ends an expression, or is the
name of a variable or the word `return`; so it is neither of the two.

A unit that was typed in is given a semicolon if its last token closes nothing.
-/

namespace Lox

/-- The kinds of the last token of a declaration. -/
def TokenKind.closesUnit : TokenKind → Bool
  | .semicolon | .rightBrace => true
  | _ => false

/-- The kinds of the token in front of the semicolon that closes a declaration. -/
def TokenKind.endsPhrase : TokenKind → Bool
  | .identifier | .number | .string | .trueWord | .falseWord | .nilWord | .thisWord | .rightParen
  | .rightBracket | .returnWord => true
  | _ => false

namespace Grammar

/-- The last of some tokens has a kind of this sort. -/
def EndsIn (sort : TokenKind → Bool) (ts : List Token) : Prop :=
  ∃ us t, ts = us ++ [t] ∧ sort t.kind = true

section

variable {sort : TokenKind → Bool} {ts : List Token}

theorem endsIn_single {t : Token} (h : sort t.kind = true) : EndsIn sort [t] :=
  ⟨[], t, rfl, h⟩

theorem EndsIn.after (h : EndsIn sort ts) (us : List Token) : EndsIn sort (us ++ ts) := by
  obtain ⟨vs, t, rfl, ht⟩ := h
  exact ⟨us ++ vs, t, (List.append_assoc _ _ _).symm, ht⟩

theorem EndsIn.cons (h : EndsIn sort ts) (t : Token) : EndsIn sort (t :: ts) :=
  h.after [t]

end

/-! ## Expressions -/

mutual

theorem Assignment.ends {ts : List Token} {e : Expr Unit} (h : Assignment ts e) :
    EndsIn TokenKind.endsPhrase ts := by
  match h with
  | .var _ _ hv => exact (hv.ends.cons _).cons _
  | .property _ _ _ _ hv => exact (((hv.ends.cons _).cons _).cons _).after _
  | .level h => exact h.ends

theorem Level.ends {level : Chain} {ts : List Token} {e : Expr Unit} (h : Level level ts e) :
    EndsIn TokenKind.endsPhrase ts := by
  match h with
  | .operand h => exact h.ends
  | .step _ _ hr => exact (hr.ends.cons _).after _

theorem Operand.ends {level : Chain} {ts : List Token} {e : Expr Unit}
    (h : Operand level ts e) : EndsIn TokenKind.endsPhrase ts := by
  match h with
  | .or h => exact h.ends
  | .and h => exact h.ends
  | .equality h => exact h.ends
  | .comparison h => exact h.ends
  | .term h => exact h.ends
  | .factor h => exact h.ends

theorem Conditional.ends {ts : List Token} {e : Expr Unit} (h : Conditional ts e) :
    EndsIn TokenKind.endsPhrase ts := by
  match h with
  | .plain h => exact h.ends
  | .choice _ _ _ _ hb => exact (hb.ends.cons _).after _

theorem Unary.ends {ts : List Token} {e : Expr Unit} (h : Unary ts e) :
    EndsIn TokenKind.endsPhrase ts := by
  match h with
  | .operator _ h => exact h.ends.cons _
  | .call h => exact h.ends

theorem Call.ends {ts : List Token} {e : Expr Unit} (h : Call ts e) :
    EndsIn TokenKind.endsPhrase ts := by
  match h with
  | .primary h => exact h.ends
  | .call _ _ _ hk => exact (endsIn_single (by rw [hk]; rfl)).after _
  | .property _ _ hn => exact ((endsIn_single (by rw [hn]; rfl)).cons _).after _

theorem Primary.ends {ts : List Token} {e : Expr Unit} (h : Primary ts e) :
    EndsIn TokenKind.endsPhrase ts := by
  match h with
  | .number hk | .string hk | .true hk | .false hk | .nil hk | .this hk | .identifier hk =>
      exact endsIn_single (by rw [hk]; rfl)
  | .grouping _ _ hk => exact (endsIn_single (by rw [hk]; rfl)).after _
  | .super _ _ hm => exact ((endsIn_single (by rw [hm]; rfl)).cons _).cons _
  | .vector _ _ hk => exact (endsIn_single (by rw [hk]; rfl)).after _

end

/-! ## Declarations -/

/-- Tokens with the property are closed by a brace, or by a semicolon that any other can stand
for. -/
inductive Closes (D : List Token → Prop) : List Token → Prop
  | semicolon {us : List Token} {u t : Token} :
      u.kind.endsPhrase = true → t.kind = .semicolon →
      (∀ t' : Token, t'.kind = .semicolon → D (us ++ [u, t'])) → Closes D (us ++ [u, t])
  | brace {us : List Token} {t : Token} : t.kind = .rightBrace → Closes D (us ++ [t])

section

variable {D E : List Token → Prop} {ts : List Token}

theorem Closes.after (h : Closes D ts) (ws : List Token) (hmap : ∀ us, D us → E (ws ++ us)) :
    Closes E (ws ++ ts) := by
  cases h with
  | semicolon hu ht hd =>
      rw [← List.append_assoc]
      refine .semicolon hu ht fun t' ht' => ?_
      rw [List.append_assoc]
      exact hmap _ (hd t' ht')
  | brace ht =>
      rw [← List.append_assoc]
      exact .brace ht

theorem Closes.mono (h : Closes D ts) (hmap : ∀ us, D us → E us) : Closes E ts :=
  h.after [] hmap

/-- A semicolon behind a phrase. -/
theorem EndsIn.closes {t : Token} (h : EndsIn TokenKind.endsPhrase ts) (ht : t.kind = .semicolon)
    (hd : ∀ t' : Token, t'.kind = .semicolon → D (ts ++ [t'])) : Closes D (ts ++ [t]) := by
  obtain ⟨us, u, rfl, hu⟩ := h
  simp only [List.append_assoc, List.cons_append, List.nil_append] at hd ⊢
  exact .semicolon hu ht hd

theorem closes_of_ends (h : EndsIn (· == .rightBrace) ts) : Closes D ts := by
  obtain ⟨us, t, rfl, ht⟩ := h
  exact .brace (by simpa using ht)

end

variable {rule : ElseRule} {ts : List Token}

theorem VarDecl.closes {s : Stmt Unit} (h : VarDecl ts s) : Closes (VarDecl · s) ts := by
  cases h with
  | plain hw hn hk =>
      exact ((endsIn_single (by rw [hn]; rfl)).cons _).closes hk fun t' ht' => .plain hw hn ht'
  | initialized hw hn he h hk =>
      exact (((h.ends.cons _).cons _).cons _).closes hk fun t' ht' => .initialized hw hn he h ht'

theorem ExpressionStatement.closes {s : Stmt Unit} (h : ExpressionStatement ts s) :
    Closes (ExpressionStatement · s) ts := by
  cases h with
  | mk h hk => exact h.ends.closes hk fun t' ht' => .mk h ht'

theorem Block.ends {body : List (Stmt Unit)} (h : Block rule ts body) :
    EndsIn (· == .rightBrace) ts := by
  cases h with
  | mk _ _ hk => exact (endsIn_single (by rw [hk]; rfl)).after _

theorem Function.ends {f : FunDecl Unit} (h : Function rule ts f) :
    EndsIn (· == .rightBrace) ts := by
  cases h with
  | mk _ _ _ _ hbody => exact (hbody.ends.cons _).after _

/-- A statement that ends in another is closed by it. -/
theorem Statement.closes {isOpen : Bool} {ts : List Token} {s : Stmt Unit}
    (h : Statement rule isOpen ts s) : Closes (Statement rule isOpen · s) ts := by
  match h with
  | .block h => exact closes_of_ends h.ends
  | .expression h => exact h.closes.mono fun _ => .expression
  | .print hw he hk => exact (he.ends.cons _).closes hk fun t' ht' => .print hw he ht'
  | .ret hw hv hk =>
      cases hv with
      | none => exact (endsIn_single (by rw [hw]; rfl)).closes hk fun t' ht' => .ret hw .none ht'
      | some he => exact (he.ends.cons _).closes hk fun t' ht' => .ret hw (.some he) ht'
  | @Statement.whileLoop _ _ word before after ts us c body hw hb hc hk h =>
      have hmap : ∀ us, Statement rule isOpen us body →
          Statement rule isOpen (word :: before :: ts ++ [after] ++ us) (.whileLoop c body) :=
        fun us hus => by simpa using Statement.whileLoop hw hb hc hk hus
      simpa using h.closes.after (word :: before :: ts ++ [after]) hmap
  | @Statement.forLoop _ _ word before semicolon after ts us vs ws i c inc body hw hb hi hc hsemi
      hinc hk h =>
      have hmap : ∀ ws, Statement rule isOpen ws body → Statement rule isOpen
          (word :: before :: ts ++ us ++ semicolon :: vs ++ [after] ++ ws)
          (whileForm i c inc body) :=
        fun ws hws => by simpa using Statement.forLoop hw hb hi hc hsemi hinc hk hws
      simpa using h.closes.after (word :: before :: ts ++ us ++ semicolon :: vs ++ [after]) hmap
  | @Statement.ifThen _ isOpen' word before after ts us c thenBranch hw hb hc hk h =>
      have hmap : ∀ us, Statement rule isOpen' us thenBranch →
          Statement rule true (word :: before :: ts ++ [after] ++ us) (.ifThen c thenBranch) :=
        fun us hus => by simpa using Statement.ifThen hw hb hc hk hus
      simpa using h.closes.after (word :: before :: ts ++ [after]) hmap
  | @Statement.ifElse _ _ _ word before after otherwise ts us vs c thenBranch elseBranch hw hb hc hk
      hthen hadmits ho h =>
      have hmap : ∀ vs, Statement rule isOpen vs elseBranch → Statement rule isOpen
          (word :: before :: ts ++ after :: us ++ [otherwise] ++ vs)
          (.ifElse c thenBranch elseBranch) :=
        fun vs hvs => by simpa using Statement.ifElse hw hb hc hk hthen hadmits ho hvs
      simpa using h.closes.after (word :: before :: ts ++ after :: us ++ [otherwise]) hmap

theorem Declaration.closes {isOpen : Bool} {s : Stmt Unit} (h : Declaration rule isOpen ts s) :
    Closes (Declaration rule isOpen · s) ts := by
  cases h with
  | classDecl _ _ _ _ _ hk => exact .brace hk
  | function _ hf => exact closes_of_ends (hf.ends.cons _)
  | var h => exact h.closes.mono fun _ => .var
  | statement h => exact h.closes.mono fun _ => .statement

end Grammar

/-! ## Last tokens -/

/-- There are no tokens, or the last one has a kind of this sort. -/
def LastIs (sort : TokenKind → Bool) (ts : List Token) : Prop :=
  ∀ t, ts.getLast? = some t → sort t.kind = true

/-- Nothing has to be added to the tokens of a unit that was typed in. -/
def ClosedUnit (ts : List Token) : Prop :=
  LastIs TokenKind.closesUnit ts

section

variable {sort sort' : TokenKind → Bool} {ts us : List Token} {t : Token}

theorem lastIs_nil : LastIs sort [] :=
  fun _ h => nomatch h

theorem lastIs_concat : LastIs sort (ts ++ [t]) ↔ sort t.kind = true := by
  simp [LastIs]

theorem lastIs_singleton : LastIs sort [t] ↔ sort t.kind = true :=
  (lastIs_concat : LastIs sort ([] ++ [t]) ↔ _)

theorem LastIs.append (hts : LastIs sort ts) (hus : LastIs sort us) : LastIs sort (ts ++ us) := by
  rcases List.eq_nil_or_concat' us with rfl | ⟨us, u, rfl⟩
  · rwa [List.append_nil]
  · rw [← List.append_assoc]
    exact lastIs_concat.mpr (lastIs_concat.mp hus)

theorem LastIs.of_append (h : LastIs sort (ts ++ us)) : LastIs sort us := by
  rcases List.eq_nil_or_concat' us with rfl | ⟨us, u, rfl⟩
  · exact lastIs_nil
  · rw [← List.append_assoc] at h
    exact lastIs_concat.mpr (lastIs_concat.mp h)

theorem LastIs.mono (hmap : ∀ kind, sort kind = true → sort' kind = true) (h : LastIs sort ts) :
    LastIs sort' ts :=
  fun t ht => hmap _ (h t ht)

theorem TokenKind.closesUnit_iff {kind : TokenKind} :
    kind.closesUnit = true ↔ kind = .semicolon ∨ kind = .rightBrace := by
  cases kind <;> simp [closesUnit]

theorem TokenKind.closesUnit_of_endsPhrase {kind : TokenKind} (h : kind.endsPhrase = true) :
    kind.closesUnit = false := by
  revert h
  cases kind <;> decide

theorem closedUnit_semicolon (ht : t.kind = .semicolon) : ClosedUnit [t] :=
  lastIs_singleton.mpr (TokenKind.closesUnit_iff.mpr (.inl ht))

/-- An import has a semicolon of its own, whatever its file is. -/
theorem ClosedUnit.imports {word path semicolon : Token}
    (hwords : Parse.ImportWords word path semicolon) (h : ClosedUnit ts) :
    ClosedUnit (word :: path :: semicolon :: ts) :=
  (lastIs_concat.mpr (TokenKind.closesUnit_iff.mpr (.inl hwords.semicolon)) :
    ClosedUnit ([word, path] ++ [semicolon])).append h

theorem Grammar.Closes.closedUnit {D : List Token → Prop} (h : Closes D ts) : ClosedUnit ts := by
  cases h with
  | semicolon _ ht _ =>
      rw [List.append_cons]
      exact lastIs_concat.mpr (TokenKind.closesUnit_iff.mpr (.inl ht))
  | brace ht => exact lastIs_concat.mpr (TokenKind.closesUnit_iff.mpr (.inr ht))

/-- Of the tokens of a program the last one closes, whatever the files leave open. -/
theorem Assembles.closedUnit {im : Importer} {seen : List AbsPath} {p : List (Stmt Unit)}
    (h : Assembles im seen ts p) : ClosedUnit ts := by
  induction h with
  | finish => exact lastIs_nil
  | semicolon hk _ ih => exact (closedUnit_semicolon hk).append ih
  | declaration hd _ ih => exact hd.closes.closedUnit.append ih
  | again hwords _ _ _ ih => exact ih.imports hwords
  | first hwords _ _ _ _ ih => exact ClosedUnit.imports hwords (LastIs.of_append ih)

end

/-! ## Units that were typed in -/

theorem closeUnit_of_closed {ts : List Token} (eof : Token) (h : ClosedUnit ts) :
    closeUnit (ts ++ [eof]) = ts ++ [eof] := by
  rw [closeUnit, List.dropLast_concat, List.getLast?_concat]
  cases hlast : ts.getLast? with
  | none => rfl
  | some t => exact if_pos (TokenKind.closesUnit_iff.mp (h t hlast))

theorem closeUnit_of_not_closed {ts : List Token} (eof : Token) (h : ¬ ClosedUnit ts) :
    ∃ semicolon : Token, semicolon.kind = .semicolon ∧
      closeUnit (ts ++ [eof]) = ts ++ [semicolon, eof] := by
  simp only [ClosedUnit, LastIs, not_forall] at h
  obtain ⟨t, hlast, ht⟩ := h
  rw [closeUnit, List.dropLast_concat, List.getLast?_concat, hlast]
  rw [TokenKind.closesUnit_iff] at ht
  exact ⟨_, rfl, if_neg ht⟩

/-- A unit that was typed in has a semicolon more than its text, or none. -/
theorem unitTokens_eq (typed : Bool) {source : String} {ts : List Token} {eof : Token}
    (h : (scan source.toList).tokens = ts ++ [eof]) :
    ∃ us, (∀ t ∈ us, t.kind = .semicolon) ∧ unitTokens typed source = ts ++ us ++ [eof] := by
  have hsame : ts ++ [eof] = ts ++ [] ++ [eof] := by rw [List.append_nil]
  rw [unitTokens, h]
  cases typed with
  | false => exact ⟨[], by simp, hsame⟩
  | true =>
      by_cases hclosed : ClosedUnit ts
      · exact ⟨[], by simp, (closeUnit_of_closed eof hclosed).trans hsame⟩
      · obtain ⟨semicolon, hk, hunit⟩ := closeUnit_of_not_closed eof hclosed
        exact ⟨[semicolon], fun t ht => List.mem_singleton.mp ht ▸ hk, by simpa using hunit⟩

end Lox
