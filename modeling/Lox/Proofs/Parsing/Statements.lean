import Lox.Proofs.Parsing.Expressions

/-!
# What the statement parser accepts is a statement

The contracts of the procedures for statements and declarations. A declaration
that cannot be parsed is skipped, and its step still succeeds; its contract says
that this never happens silently, and that at least one token goes with it.

The parser attaches an `else` as soon as it sees one. So when a statement is over
and still open, what follows is no `else`, and the derivation that comes out obeys
the nearest rule.
-/

namespace Lox
namespace Parse

open Grammar ParseState

/-- The statement is derived, and if it is open, no `else` comes next. -/
def ReadsStatement (ts rest : List Token) (stmt : Stmt Unit) : Prop :=
  ∃ isOpen, Statement .nearest isOpen ts stmt ∧ (isOpen = true → headKind rest ≠ .elseWord)

/-- The declaration is derived, and if it is open, no `else` comes next. -/
def ReadsDeclaration (ts rest : List Token) (stmt : Stmt Unit) : Prop :=
  ∃ isOpen, Declaration .nearest isOpen ts stmt ∧ (isOpen = true → headKind rest ≠ .elseWord)

variable {n : Nat} {s : ParseState}

/-! ## Pieces without a recursion -/

theorem paramsFrom_reads (n count : Nat) (s : ParseState) :
    ReadsAt (s.ahead.length + 1 ≤ n) 0
      (fun ts _ names => Names ts names ∧ count + names.length ≤ maxArguments) s
      (paramsFrom n count) := by
  induction n generalizing count s with
  | zero => exact readsAt_of_not_enough (by omega)
  | succ n ih =>
      rw [paramsFrom]
      refine checkCount_reads fun s₀ ha₀ _ => ?_
      rw [← ha₀]
      refine readsAt_expect_bind fun name rest ha hn => ?_
      have hadv := length_advance ha
      refine readsAt_accept_bind (fun comma rest' ha' hk => ?_) (fun _ => ?_)
      · have hadv' := length_advance ha'
        refine (ih (count + 1) s₀.advance.advance).bind (by omega) fun names s' ts hm _ => ?_
        refine readsAt_pure fun h _ => ⟨?_, ?_⟩
        · simpa using Names.more hn hk h.1
        · have := h.2
          simp only [List.length_cons]
          omega
      · refine readsAt_pure fun hc => ⟨.last hn, ?_⟩
        simp only [List.length_cons, List.length_nil]
        omega

theorem params_reads (s : ParseState) :
    ReadsAt True 0 (fun ts _ names => Params ts names) s params := by
  rw [params]
  refine readsAt_check_bind ?_
  split
  · exact readsAt_pure .none
  · refine readsAt_budgeted ((paramsFrom_reads _ 0 s).weaken (fun _ => by omega)
      (Nat.le_refl _) fun ts rest names _ h => ?_)
    exact .some h.1 (by omega)

theorem varDecl_reads (s : ParseState) (hs : s.finish.kind = .eof) :
    ReadsAt True 1
      (fun ts _ stmt => ∀ word : Token, word.kind = .varWord → VarDecl (word :: ts) stmt)
      s varDecl := by
  rw [varDecl]
  refine readsAt_expect_bind fun name rest ha hn => ?_
  rw [initializer, bind_assoc]
  refine readsAt_accept_bind (fun equals rest' ha' he => ?_) (fun _ => ?_)
  · rw [bind_assoc]
    refine (expression_reads s.advance.advance hs).bind (fun _ => trivial) fun e s' ts hm _ => ?_
    refine readsAt_expect_bind fun semicolon rest'' ha'' hk => ?_
    exact readsAt_pure fun h word hw => by simpa using VarDecl.initialized hw hn he h hk
  · refine readsAt_expect_bind fun semicolon rest'' ha'' hk => ?_
    exact readsAt_pure fun word hw => .plain hw hn hk

theorem expressionStatement_reads (s : ParseState) (hs : s.finish.kind = .eof) :
    ReadsAt True 1 (fun ts _ stmt => ExpressionStatement ts stmt) s expressionStatement := by
  rw [expressionStatement]
  refine (expression_reads _ hs).bind (fun _ => trivial) fun e s' ts hm _ => ?_
  refine readsAt_expect_bind fun semicolon rest ha hk => ?_
  exact readsAt_pure fun h => by simpa using ExpressionStatement.mk h hk

theorem printStatement_reads (s : ParseState) (hs : s.finish.kind = .eof) :
    ReadsAt True 1 (fun ts _ stmt => ∀ word : Token, word.kind = .printWord →
      Statement .nearest false (word :: ts) stmt) s printStatement := by
  rw [printStatement]
  refine (expression_reads _ hs).bind (fun _ => trivial) fun e s' ts hm _ => ?_
  refine readsAt_expect_bind fun semicolon rest ha hk => ?_
  exact readsAt_pure fun h word hw => by simpa using Statement.print hw h hk

theorem expressionUnless_reads (kind : TokenKind) (s : ParseState) (hs : s.finish.kind = .eof) :
    ReadsAt True 0 (fun ts _ value => Optional ts value) s (expressionUnless kind) := by
  rw [expressionUnless]
  refine readsAt_check_bind ?_
  split
  · exact readsAt_pure .none
  · refine (expression_reads _ hs).bind (fun _ => trivial) fun e s' ts hm _ => ?_
    exact readsAt_pure fun h => by simpa using Optional.some h

theorem returnStatement_reads {word : Token} {earlier : List Token} (s : ParseState)
    (hs : s.finish.kind = .eof) (ht : s.taken = word :: earlier) (hw : word.kind = .returnWord) :
    ReadsAt True 1 (fun ts _ stmt => Statement .nearest false (word :: ts) stmt) s
      returnStatement := by
  rw [returnStatement]
  refine readsAt_previous_bind ht ?_
  refine (expressionUnless_reads _ _ hs).bind (fun _ => trivial)
    fun value s' ts hm _ => ?_
  refine readsAt_expect_bind fun semicolon rest ha hk => ?_
  exact readsAt_pure fun h => by simpa using Statement.ret hw h hk

/-- A condition in parentheses. -/
def ReadsCondition (ts : List Token) (e : Expr Unit) : Prop :=
  ∃ before us after, ts = before :: us ++ [after] ∧ before.kind = .leftParen ∧
    Assignment us e ∧ after.kind = .rightParen

theorem condition_reads (before after : String) (s : ParseState)
    (hs : s.finish.kind = .eof) :
    ReadsAt True 0 (fun ts _ e => ReadsCondition ts e) s (condition before after) := by
  rw [condition]
  refine readsAt_expect_bind fun before rest ha hb => ?_
  refine (expression_reads s.advance hs).bind (fun _ => trivial) fun e s' ts hm _ => ?_
  refine readsAt_expect_bind fun after rest' ha' hk => ?_
  exact readsAt_pure fun h => ⟨before, ts, after, by simp, hb, h, hk⟩

theorem superclass_reads (s : ParseState) :
    ReadsAt True 0 (fun ts _ r => Superclass ts r) s superclass := by
  rw [superclass]
  refine readsAt_accept_bind (fun less rest ha hl => ?_) (fun _ => readsAt_pure .none)
  refine readsAt_expect_bind fun name rest' ha' hn => ?_
  exact readsAt_pure (.some hl hn)

theorem forInitializer_reads (s : ParseState) (hs : s.finish.kind = .eof) :
    ReadsAt True 0 (fun ts _ r => ForInitializer ts r) s forInitializer := by
  rw [forInitializer]
  refine readsAt_accept_bind (fun semicolon rest ha hk => readsAt_pure (.none hk)) (fun _ => ?_)
  refine readsAt_accept_bind (fun word rest ha hw => ?_) (fun _ => ?_)
  · refine (varDecl_reads s.advance hs).bind (fun _ => trivial) fun stmt s' ts hm _ => ?_
    exact readsAt_pure fun h => by simpa using ForInitializer.var (h word hw)
  · refine (expressionStatement_reads _ hs).bind (fun _ => trivial)
      fun stmt s' ts hm _ => ?_
    exact readsAt_pure fun h => by simpa using ForInitializer.expression h

/-- The clauses of a `for` loop in their parentheses. -/
def ReadsClauses (ts : List Token) (clauses : ForClauses) : Prop :=
  ∃ before us vs semicolon ws after, ts = before :: us ++ vs ++ semicolon :: ws ++ [after] ∧
    before.kind = .leftParen ∧ ForInitializer us clauses.initializer ∧
    Optional vs clauses.condition ∧ semicolon.kind = .semicolon ∧
    Optional ws clauses.increment ∧ after.kind = .rightParen

theorem forClauses_reads (s : ParseState) (hs : s.finish.kind = .eof) :
    ReadsAt True 0 (fun ts _ clauses => ReadsClauses ts clauses) s forClauses := by
  rw [forClauses]
  refine readsAt_expect_bind fun before rest ha hb => ?_
  refine (forInitializer_reads s.advance hs).bind (fun _ => trivial)
    fun initializer s₁ us hm₁ _ => ?_
  have hs₁ : s₁.finish.kind = .eof := hm₁.finish ▸ hs
  refine (expressionUnless_reads _ _ hs₁).bind (fun _ => trivial)
    fun condition s₂ vs hm₂ _ => ?_
  have hs₂ : s₂.finish.kind = .eof := hm₂.finish ▸ hs₁
  refine readsAt_expect_bind fun semicolon rest₂ ha₂ hk => ?_
  refine (expressionUnless_reads _ s₂.advance hs₂).bind (fun _ => trivial)
    fun increment s₃ ws hm₃ _ => ?_
  refine readsAt_expect_bind fun after rest₃ ha₃ hk' => ?_
  exact readsAt_pure fun hi hc h₀ =>
    ⟨before, us, vs, semicolon, ws, after, by simp, hb, h₀, hc, hk, hi, hk'⟩

theorem loop_eq_whileForm (clauses : ForClauses) (body : Stmt Unit) :
    clauses.loop body =
      whileForm clauses.initializer clauses.condition clauses.increment body := by
  obtain ⟨initializer, condition, increment⟩ := clauses
  cases initializer <;> cases increment <;> rfl

/-! ## The recursion -/

/-- What the statement procedures do with a budget of `n`. -/
structure StatementReads (n : Nat) : Prop where
  declaration : ∀ s : ParseState, s.finish.kind = .eof →
    ReadsAt (8 * s.ahead.length + 2 ≤ n) (min 1 s.ahead.length)
      (fun ts rest r => ∃ stmt, r = some stmt ∧ ReadsDeclaration ts rest stmt) s (declaration n)
  classDecl : ∀ s : ParseState, s.finish.kind = .eof →
    ReadsAt (8 * s.ahead.length + 1 ≤ n) 1
      (fun ts _ stmt => ∀ word : Token, word.kind = .classWord →
        Declaration .nearest false (word :: ts) stmt) s (classDecl n)
  methods : ∀ s : ParseState, s.finish.kind = .eof →
    ReadsAt (8 * s.ahead.length + 2 ≤ n) 0 (fun ts _ fs => Functions .nearest ts fs) s
      (methods n)
  function : ∀ what (s : ParseState), s.finish.kind = .eof →
    ReadsAt (8 * s.ahead.length + 1 ≤ n) 1 (fun ts _ f => Function .nearest ts f) s
      (function n what)
  blockBody : ∀ s : ParseState, s.finish.kind = .eof →
    ReadsAt (8 * s.ahead.length + 4 ≤ n) 1
      (fun ts _ body => ∀ before : Token, before.kind = .leftBrace →
        Block .nearest (before :: ts) body) s (blockBody n)
  declarations : ∀ s : ParseState, s.finish.kind = .eof →
    ReadsAt (8 * s.ahead.length + 3 ≤ n) 0 (fun ts _ body => Declarations .nearest ts body) s
      (declarations n)
  statement : ∀ s : ParseState, s.finish.kind = .eof →
    ReadsAt (8 * s.ahead.length + 1 ≤ n) 1 ReadsStatement s (statement n)
  ifStatement : ∀ s : ParseState, s.finish.kind = .eof →
    ReadsAt (8 * s.ahead.length + 2 ≤ n) 1
      (fun ts rest stmt => ∀ word : Token, word.kind = .ifWord →
        ReadsStatement (word :: ts) rest stmt) s (ifStatement n)

theorem declaration_reads (ih : StatementReads n) (hs : s.finish.kind = .eof) :
    ReadsAt (8 * s.ahead.length + 2 ≤ n + 1) (min 1 s.ahead.length)
      (fun ts rest r => ∃ stmt, r = some stmt ∧ ReadsDeclaration ts rest stmt) s
      (declaration (n + 1)) := by
  rw [declaration]
  refine readsAt_rescue (readsAt_accept_bind (fun word rest ha hw => ?_) (fun _ => ?_))
  · have hadv := length_advance ha
    exact (ih.classDecl s.advance hs).weaken (by omega) (by omega)
      fun ts rest' stmt _ h => ⟨false, h word hw, by simp⟩
  refine readsAt_accept_bind (fun word rest ha hw => ?_) (fun _ => ?_)
  · have hadv := length_advance ha
    refine (ih.function "function" s.advance hs).bind (by omega) fun f s' ts hm _ => ?_
    exact readsAt_pure fun h => ⟨false, by simpa using Declaration.function hw h, by simp⟩
  refine readsAt_accept_bind (fun word rest ha hw => ?_) (fun _ => ?_)
  · exact (varDecl_reads s.advance hs).weaken (fun _ => trivial) (by omega)
      fun ts rest' stmt _ h => ⟨false, .var (h word hw), by simp⟩
  · refine (ih.statement s hs).weaken (by omega) (Nat.le_refl _) fun ts rest stmt _ h => ?_
    obtain ⟨isOpen, h, hnext⟩ := h
    exact ⟨isOpen, .statement h, hnext⟩

theorem classDecl_reads (ih : StatementReads n) (hs : s.finish.kind = .eof) :
    ReadsAt (8 * s.ahead.length + 1 ≤ n + 1) 1
      (fun ts _ stmt => ∀ word : Token, word.kind = .classWord →
        Declaration .nearest false (word :: ts) stmt) s (classDecl (n + 1)) := by
  rw [classDecl]
  refine readsAt_expect_bind fun name rest ha hn => ?_
  have hadv := length_advance ha
  refine (superclass_reads s.advance).bind (fun _ => trivial) fun parent s₁ ts hm₁ _ => ?_
  have hlen₁ := hm₁.length
  have hs₁ : s₁.finish.kind = .eof := hm₁.finish ▸ hs
  refine readsAt_expect_bind fun before rest₁ ha₁ hb => ?_
  have hadv₁ := length_advance ha₁
  refine (ih.methods s₁.advance hs₁).bind (by omega) fun members s₂ us hm₂ _ => ?_
  refine readsAt_expect_bind fun after rest₂ ha₂ hk => ?_
  exact readsAt_pure fun hms hp word hw => by
    simpa using Declaration.classDecl hw hn hp hb hms hk

theorem methods_reads (ih : StatementReads n) (hs : s.finish.kind = .eof) :
    ReadsAt (8 * s.ahead.length + 2 ≤ n + 1) 0 (fun ts _ fs => Functions .nearest ts fs) s
      (methods (n + 1)) := by
  rw [methods]
  refine readsAt_check_bind (readsAt_atEnd_bind ?_)
  split
  · exact readsAt_pure .nil
  · refine (ih.function "method" s hs).bind (by omega) fun f s' ts hm hpos => ?_
    have hlen := hm.length
    refine (ih.methods s' (hm.finish ▸ hs)).bind (by omega) fun fs s'' us hm' _ => ?_
    exact readsAt_pure fun hfs hf => by simpa using Functions.cons hf hfs

theorem function_reads (ih : StatementReads n) (what : String) (hs : s.finish.kind = .eof) :
    ReadsAt (8 * s.ahead.length + 1 ≤ n + 1) 1 (fun ts _ f => Function .nearest ts f) s
      (function (n + 1) what) := by
  rw [function]
  refine readsAt_expect_bind fun name rest ha hn => ?_
  have hadv := length_advance ha
  refine readsAt_expect_bind fun before rest' ha' hb => ?_
  have hadv' := length_advance ha'
  refine (params_reads s.advance.advance).bind (fun _ => trivial) fun names s₁ ts hm₁ _ => ?_
  have hlen₁ := hm₁.length
  have hs₁ : s₁.finish.kind = .eof := hm₁.finish ▸ hs
  refine readsAt_expect_bind fun after rest₁ ha₁ hk => ?_
  have hadv₁ := length_advance ha₁
  refine readsAt_expect_bind fun brace rest₂ ha₂ hbr => ?_
  have hadv₂ := length_advance ha₂
  refine (ih.blockBody s₁.advance.advance hs₁).bind (by omega) fun body s₂ us hm₂ _ => ?_
  exact readsAt_pure fun h hp => by simpa using Function.mk hn hb hp hk (h brace hbr)

theorem blockBody_reads (ih : StatementReads n) (hs : s.finish.kind = .eof) :
    ReadsAt (8 * s.ahead.length + 4 ≤ n + 1) 1
      (fun ts _ body => ∀ before : Token, before.kind = .leftBrace →
        Block .nearest (before :: ts) body) s (blockBody (n + 1)) := by
  rw [blockBody]
  refine (ih.declarations s hs).bind (by omega) fun body s' ts hm _ => ?_
  refine readsAt_expect_bind fun after rest ha hk => ?_
  exact readsAt_pure fun h before hb => by simpa using Block.mk hb h hk

theorem declarations_reads (ih : StatementReads n) (hs : s.finish.kind = .eof) :
    ReadsAt (8 * s.ahead.length + 3 ≤ n + 1) 0 (fun ts _ body => Declarations .nearest ts body)
      s (declarations (n + 1)) := by
  rw [declarations]
  refine readsAt_check_bind (readsAt_atEnd_bind ?_)
  split
  · exact readsAt_pure .nil
  · next hgo =>
      have hne : s.ahead ≠ [] := by
        intro h
        simp [h] at hgo
      have hpos := List.length_pos_iff.mpr hne
      have hdecl : ReadsAt (8 * s.ahead.length + 2 ≤ n) 1
          (fun ts rest r => ∃ stmt, r = some stmt ∧ ReadsDeclaration ts rest stmt) s
          (declaration n) :=
        (ih.declaration s hs).weaken id (by omega) fun _ _ _ _ h => h
      refine hdecl.bind (by omega) fun first s' ts hm htaken => ?_
      have hlen := hm.length
      refine (ih.declarations s' (hm.finish ▸ hs)).bind (by omega) fun rest s'' us hm' _ => ?_
      refine readsAt_pure fun hrest hfirst => ?_
      obtain ⟨stmt, rfl, isOpen, h, -⟩ := hfirst
      simpa using Declarations.cons h hrest

theorem statement_reads (ih : StatementReads n) (hs : s.finish.kind = .eof) :
    ReadsAt (8 * s.ahead.length + 1 ≤ n + 1) 1 ReadsStatement s (statement (n + 1)) := by
  rw [statement]
  refine readsAt_current_bind (fun _ => ?_) (fun t rest ha => ?_)
  · rw [hs]
    exact (expressionStatement_reads s hs).weaken (fun _ => trivial) (Nat.le_refl _)
      fun ts rest stmt _ h => ⟨false, .expression h, by simp⟩
  have hadv := length_advance ha
  split
  case h_1 hk =>
    refine readsAt_accept_of_head ha hk ?_
    exact (printStatement_reads s.advance hs).weaken (fun _ => trivial) (by omega)
      fun ts rest stmt _ h => ⟨false, h t hk, by simp⟩
  case h_2 hk =>
    refine readsAt_accept_of_head ha hk ?_
    refine (ih.blockBody s.advance hs).bind (by omega) fun body s' ts hm _ => ?_
    exact readsAt_pure fun h => ⟨false, by simpa using Statement.block (h t hk), by simp⟩
  case h_3 hk =>
    refine readsAt_accept_of_head ha hk ?_
    exact (ih.ifStatement s.advance hs).weaken (by omega) (by omega)
      fun ts rest stmt _ h => h t hk
  case h_4 hk =>
    refine readsAt_accept_of_head ha hk ?_
    refine (condition_reads _ _ s.advance hs).bind (fun _ => trivial) fun e s' ts hm _ => ?_
    have hlen := hm.length
    refine (ih.statement s' (hm.finish ▸ hs)).bind (by omega) fun body s'' us hm' _ => ?_
    refine readsAt_pure fun hbody hcond => ?_
    obtain ⟨before, vs, after, rfl, hb, he, hafter⟩ := hcond
    obtain ⟨isOpen, hbody, hnext⟩ := hbody
    exact ⟨isOpen, by simpa using Statement.whileLoop hk hb he hafter hbody, by simpa using hnext⟩
  case h_5 hk =>
    refine readsAt_accept_of_head ha hk ?_
    refine readsAt_previous_bind (taken_advance ha) ?_
    refine (forClauses_reads s.advance hs).bind (fun _ => trivial) fun clauses s' ts hm _ => ?_
    have hlen := hm.length
    refine (ih.statement s' (hm.finish ▸ hs)).bind (by omega) fun body s'' us hm' _ => ?_
    refine readsAt_note_bind (readsAt_pure fun hbody hclauses => ?_)
    obtain ⟨before, vs, ws, semicolon, xs, after, rfl, hb, hi, hc, hsemi, hinc, hafter⟩ := hclauses
    obtain ⟨isOpen, hbody, hnext⟩ := hbody
    rw [loop_eq_whileForm]
    exact ⟨isOpen, by simpa using Statement.forLoop hk hb hi hc hsemi hinc hafter hbody, hnext⟩
  case h_6 hk =>
    refine readsAt_accept_of_head ha hk ?_
    exact (returnStatement_reads s.advance hs (taken_advance ha) hk).weaken (fun _ => trivial)
      (by omega) fun ts rest stmt _ h => ⟨false, h, by simp⟩
  case h_7 => exact readsAt_unexpected
  case h_8 =>
    exact (expressionStatement_reads s hs).weaken (fun _ => trivial) (Nat.le_refl _)
      fun ts rest stmt _ h => ⟨false, .expression h, by simp⟩

theorem ifStatement_reads (ih : StatementReads n) (hs : s.finish.kind = .eof) :
    ReadsAt (8 * s.ahead.length + 2 ≤ n + 1) 1
      (fun ts rest stmt => ∀ word : Token, word.kind = .ifWord →
        ReadsStatement (word :: ts) rest stmt) s (ifStatement (n + 1)) := by
  rw [ifStatement]
  refine (condition_reads _ _ s hs).bind (fun _ => trivial) fun e s₁ ts hm₁ _ => ?_
  have hlen₁ := hm₁.length
  have hs₁ : s₁.finish.kind = .eof := hm₁.finish ▸ hs
  refine (ih.statement s₁ hs₁).bind (by omega) fun thenBranch s₂ us hm₂ _ => ?_
  have hlen₂ := hm₂.length
  have hs₂ : s₂.finish.kind = .eof := hm₂.finish ▸ hs₁
  refine readsAt_accept_bind (fun otherwise rest ha ho => ?_) (fun hno => ?_)
  · -- An `else` follows, so the branch in front of it is not open.
    have hadv := length_advance ha
    refine (ih.statement s₂.advance hs₂).bind (by omega) fun elseBranch s₃ vs hm₃ _ => ?_
    refine readsAt_pure fun helse hthen hcond word hw => ?_
    obtain ⟨before, ws, after, rfl, hb, he, hafter⟩ := hcond
    obtain ⟨isOpen, hthen, hnext⟩ := hthen
    obtain ⟨isOpen', helse, hnext'⟩ := helse
    have hclosed : ElseRule.nearest.Admits isOpen := fun _ => by
      cases isOpen with
      | false => rfl
      | true => exact absurd (by rw [ha]; exact ho) (hnext rfl)
    exact ⟨isOpen', by
      simpa using Statement.ifElse hw hb he hafter hthen hclosed ho helse, by simpa using hnext'⟩
  · refine readsAt_pure fun hthen hcond word hw => ?_
    obtain ⟨before, ws, after, rfl, hb, he, hafter⟩ := hcond
    obtain ⟨isOpen, hthen, hnext⟩ := hthen
    exact ⟨true, by simpa using Statement.ifThen hw hb he hafter hthen,
      fun _ => hno (by decide)⟩

/-- Every statement procedure keeps its contract, whatever the budget. -/
theorem statementReads (n : Nat) : StatementReads n := by
  induction n with
  | zero => constructor <;> intros <;> refine readsAt_of_not_enough ?_ <;> omega
  | succ n ih =>
      exact
        { declaration := fun _ hs => declaration_reads ih hs
          classDecl := fun _ hs => classDecl_reads ih hs
          methods := fun _ hs => methods_reads ih hs
          function := fun what _ hs => function_reads ih what hs
          blockBody := fun _ hs => blockBody_reads ih hs
          declarations := fun _ hs => declarations_reads ih hs
          statement := fun _ hs => statement_reads ih hs
          ifStatement := fun _ hs => ifStatement_reads ih hs }

/-- The budget of a declaration always suffices, and one that is there is taken or
skipped. -/
theorem topDeclaration_reads (s : ParseState) (hs : s.finish.kind = .eof) :
    ReadsAt True (min 1 s.ahead.length)
      (fun ts rest r => ∃ stmt, r = some stmt ∧ ReadsDeclaration ts rest stmt) s
      topDeclaration := by
  rw [topDeclaration]
  refine readsAt_budgeted (((statementReads _).declaration s hs).weaken (fun _ => ?_)
    (Nat.le_refl _) fun _ _ _ _ h => h)
  omega

end Parse
end Lox
