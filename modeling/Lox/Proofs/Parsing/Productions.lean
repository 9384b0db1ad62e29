import Lox.Proofs.Parsing.Derivations
import Lox.Proofs.Parsing.Statements

/-!
# What the grammar derives as a statement, the parser accepts

Each production is followed through the procedure for it. The parser attaches an
`else` as soon as it meets one, so the derivations are those of the nearest rule,
and a statement that is open is only read to its end where no `else` follows.
-/

namespace Lox

/-- Can a statement begin with a token of this kind? -/
def TokenKind.beginsStatement (kind : TokenKind) : Bool :=
  kind.beginsExpression || kind matches .printWord | .leftBrace | .ifWord | .whileWord
    | .forWord | .returnWord

/-- Can a declaration begin with a token of this kind? -/
def TokenKind.beginsDeclaration (kind : TokenKind) : Bool :=
  kind.beginsStatement || kind matches .classWord | .funWord | .varWord

namespace Grammar

open Parse ParseState

theorem Begins.mono {sort sort' : TokenKind → Bool} {ts : List Token} (h : Begins sort ts)
    (hs : ∀ kind, sort kind = true → sort' kind = true) : Begins sort' ts := by
  obtain ⟨t, us, rfl, ht⟩ := h
  exact ⟨t, us, rfl, hs _ ht⟩

theorem Statement.begins {rule : ElseRule} {isOpen : Bool} {ts : List Token} {s : Stmt Unit}
    (h : Statement rule isOpen ts s) : Begins TokenKind.beginsStatement ts := by
  cases h with
  | expression h =>
      obtain ⟨he, _⟩ := h
      exact (he.begins.append _).mono fun kind hk => by simp [TokenKind.beginsStatement, hk]
  | block h =>
      obtain ⟨hb, _, _⟩ := h
      exact ⟨_, _, rfl, by rw [hb]; rfl⟩
  | _ hk => exact ⟨_, _, rfl, by rw [hk]; rfl⟩

theorem VarDecl.begins {ts : List Token} {s : Stmt Unit} (h : VarDecl ts s) :
    ∃ word us, ts = word :: us ∧ word.kind = .varWord := by
  cases h with
  | plain hw _ _ => exact ⟨_, _, rfl, hw⟩
  | initialized hw _ _ _ _ => exact ⟨_, _, rfl, hw⟩

theorem Declaration.begins {rule : ElseRule} {isOpen : Bool} {ts : List Token} {s : Stmt Unit}
    (h : Declaration rule isOpen ts s) : Begins TokenKind.beginsDeclaration ts := by
  cases h with
  | var h =>
      obtain ⟨word, us, rfl, hw⟩ := h.begins
      exact ⟨word, us, rfl, by rw [hw]; rfl⟩
  | statement h => exact h.begins.mono fun kind hk => by simp [TokenKind.beginsDeclaration, hk]
  | _ hk => exact ⟨_, _, rfl, by rw [hk]; rfl⟩

end Grammar

namespace Parse

open Grammar ParseState

variable {s : ParseState} {ts rest : List Token}

/-! ## Pieces without a recursion -/

theorem rescue_leads {α : Type} {p : Parse α} {a : α} (h : LeadsTo s p ts (pure a)) :
    LeadsTo s (rescue p) ts (pure (some a)) := by
  rcases h with ⟨s', hm, hc, hp⟩ | ⟨s', hp⟩
  · refine .inl ⟨s', hm, hc, ?_⟩
    rw [rescue, hp]
    rfl
  · refine .inr ⟨s', ?_⟩
    rw [rescue, hp]

theorem paramsFrom_leads {names : List Token} (h : Names ts names) (n count : Nat) {s : ParseState}
    (ha : s.ahead = ts ++ rest) (hcomma : headKind rest ≠ .comma)
    (hcount : count + names.length ≤ maxArguments) :
    LeadsTo s (paramsFrom n count) ts (pure names) := by
  induction h generalizing n count s with
  | last hn =>
      cases n with
      | zero => exact leadsTo_spent
      | succ n =>
          rw [paramsFrom]
          simp only [List.length_cons] at hcount
          refine checkCount_leads (by omega) (leadsTo_expect_bind ha hn ?_)
          exact leadsTo_accept_none (by rwa [ahead_advance ha]) leadsTo_refl
  | @more name comma us names hn hk _ ih =>
      cases n with
      | zero => exact leadsTo_spent
      | succ n =>
          rw [paramsFrom, ← List.append_nil us]
          simp only [List.length_cons] at hcount
          have ha₁ := ahead_advance ha
          refine checkCount_leads (by omega) (leadsTo_expect_bind ha hn ?_)
          refine leadsTo_accept_bind ha₁ hk ?_
          exact (ih n (count + 1) (ahead_advance ha₁) (by omega)).bind
            fun s' _ => leadsTo_refl

theorem check_of_headKind {kind : TokenKind} (hk : kind ≠ .eof) :
    s.ahead.head?.any (·.kind == kind) = (headKind s.ahead == kind) := by
  cases s.ahead with
  | nil => simp [headKind, hk.symm]
  | cons t us => rfl

theorem params_leads {names : List Token} (h : Params ts names) (ha : s.ahead = ts ++ rest)
    (hrest : headKind rest = .rightParen) : LeadsTo s params ts (pure names) := by
  rw [params]
  refine leadsTo_check_bind ?_
  rw [check_of_headKind (by decide), ha]
  cases h with
  | none =>
      rw [List.nil_append, hrest]
      exact leadsTo_refl
  | some h hlen =>
      have hne : ¬ ((headKind (ts ++ rest) == .rightParen) = true) := by
        cases h <;> simp [headKind, *]
      rw [if_neg hne]
      exact leadsTo_budgeted (paramsFrom_leads h _ 0 ha (by simp [hrest]) (by omega))

theorem varDecl_leads {word : Token} {stmt : Stmt Unit} (h : VarDecl (word :: ts) stmt)
    (ha : s.ahead = ts ++ rest) : LeadsTo s varDecl ts (pure stmt) := by
  rw [varDecl]
  cases h with
  | plain hw hn hk =>
      have ha₁ := ahead_advance ha
      refine leadsTo_expect_bind ha hn ?_
      rw [initializer, bind_assoc]
      refine leadsTo_accept_none (by simp [ha₁, headKind, hk]) ?_
      exact leadsTo_expect_bind ha₁ hk leadsTo_refl
  | @initialized _ name equals semicolon us e hw hn hq he hk =>
      have ha' : s.ahead = name :: equals :: (us ++ semicolon :: rest) := by simpa using ha
      have ha₁ := ahead_advance ha'
      have ha₂ := ahead_advance ha₁
      refine leadsTo_expect_bind ha' hn ?_
      rw [initializer, bind_assoc]
      refine leadsTo_accept_bind ha₁ hq ?_
      rw [bind_assoc]
      refine (he.leads ha₂ (by simp [headKind, hk, TokenKind.pull])).bind fun s₁ hs₁ => ?_
      exact leadsTo_expect_bind (hs₁.ahead_eq ha₂) hk leadsTo_refl

theorem expressionStatement_leads {stmt : Stmt Unit} (h : ExpressionStatement ts stmt)
    (ha : s.ahead = ts ++ rest) : LeadsTo s expressionStatement ts (pure stmt) := by
  obtain ⟨he, hk⟩ := h
  rw [List.append_assoc] at ha
  rw [expressionStatement]
  refine (he.leads ha (by simp [headKind, hk, TokenKind.pull])).bind fun s₁ hs₁ => ?_
  exact leadsTo_expect_bind (hs₁.ahead_eq ha) hk leadsTo_refl

theorem expressionUnless_leads {kind : TokenKind} {value : Option (Expr Unit)}
    (h : Optional ts value) (ha : s.ahead = ts ++ rest) (hrest : headKind rest = kind)
    (hk : kind = .semicolon ∨ kind = .rightParen) :
    LeadsTo s (expressionUnless kind) ts (pure value) := by
  rw [expressionUnless]
  refine leadsTo_check_bind ?_
  rw [check_of_headKind (by rcases hk with rfl | rfl <;> decide), ha]
  cases h with
  | none =>
      rw [List.nil_append, hrest, beq_self_eq_true, if_pos rfl]
      exact leadsTo_refl
  | some he =>
      have hbegin := he.begins.headKind rest
      have hne : ¬ ((headKind (ts ++ rest) == kind) = true) := by
        rw [beq_iff_eq]
        intro heq
        rw [heq] at hbegin
        rcases hk with rfl | rfl <;> exact absurd hbegin (by decide)
      rw [if_neg hne, ← List.append_nil ts]
      refine (he.leads ha ?_).bind fun s₁ _ => leadsTo_refl
      rcases hk with rfl | rfl <;> rw [hrest] <;> rfl

theorem condition_leads {before after : Token} {e : Expr Unit} {message message' : String}
    (hb : before.kind = .leftParen) (h : Assignment ts e) (hk : after.kind = .rightParen)
    (ha : s.ahead = before :: (ts ++ after :: rest)) :
    LeadsTo s (condition message message') (before :: (ts ++ [after])) (pure e) := by
  have ha₁ := ahead_advance ha
  rw [condition]
  refine leadsTo_expect_bind ha hb ?_
  refine (h.leads ha₁ (by simp [headKind, hk, TokenKind.pull])).bind fun s₁ hs₁ => ?_
  exact leadsTo_expect_bind (hs₁.ahead_eq ha₁) hk leadsTo_refl

theorem superclass_leads {parent : Option (Reference Unit)} (h : Superclass ts parent)
    (ha : s.ahead = ts ++ rest) (hrest : headKind rest = .leftBrace) :
    LeadsTo s superclass ts (pure parent) := by
  rw [superclass]
  cases h with
  | none =>
      rw [List.nil_append] at ha
      exact leadsTo_accept_none (by simp [ha, hrest]) leadsTo_refl
  | some hl hn =>
      exact leadsTo_accept_bind ha hl (leadsTo_expect_bind (ahead_advance ha) hn leadsTo_refl)

theorem forInitializer_leads {clause : Option (Stmt Unit)} (h : ForInitializer ts clause)
    (ha : s.ahead = ts ++ rest) : LeadsTo s forInitializer ts (pure clause) := by
  rw [forInitializer]
  cases h with
  | none hk => exact leadsTo_accept_bind ha hk leadsTo_refl
  | var h =>
      obtain ⟨word, us, rfl, hw⟩ := h.begins
      have ha₁ := ahead_advance ha
      refine leadsTo_accept_none (by simp [ha, headKind, hw]) ?_
      rw [← List.append_nil us]
      refine leadsTo_accept_bind ha hw ?_
      exact (varDecl_leads h ha₁).bind fun s₁ _ => leadsTo_refl
  | expression h =>
      obtain @⟨us, semicolon, e, he, hk⟩ := h
      have hbegin := (he.begins.append [semicolon]).headKind rest
      rw [← ha] at hbegin
      refine leadsTo_accept_none (fun heq => ?_) (leadsTo_accept_none (fun heq => ?_) ?_)
      · exact absurd (heq ▸ hbegin) (by decide)
      · exact absurd (heq ▸ hbegin) (by decide)
      · rw [← List.append_nil (us ++ [semicolon])]
        exact (expressionStatement_leads ⟨he, hk⟩ ha).bind fun s₁ _ => leadsTo_refl

/-- What begins as an expression is a statement by being an expression. -/
theorem statement_leads_expression {n : Nat} {q : Parse (Stmt Unit)} {t : Token}
    (ha : s.ahead = t :: rest) (hk : t.kind.beginsExpression = true)
    (h : LeadsTo s expressionStatement ts q) : LeadsTo s (statement (n + 1)) ts q := by
  rw [statement]
  refine leadsTo_current_bind ha ?_
  split
  case h_8 => exact h
  all_goals
    next hk' => exact absurd (hk' ▸ hk) (by decide)

theorem forClauses_leads {before semicolon after : Token} {us vs ws : List Token}
    {clauses : ForClauses} (hb : before.kind = .leftParen)
    (hi : ForInitializer us clauses.initializer) (hc : Optional vs clauses.condition)
    (hsemi : semicolon.kind = .semicolon) (hinc : Optional ws clauses.increment)
    (hk : after.kind = .rightParen)
    (ha : s.ahead = before :: (us ++ (vs ++ semicolon :: (ws ++ after :: rest)))) :
    LeadsTo s forClauses (before :: (us ++ (vs ++ semicolon :: (ws ++ [after]))))
      (pure clauses) := by
  have ha₁ := ahead_advance ha
  rw [forClauses]
  refine leadsTo_expect_bind ha hb ?_
  refine (forInitializer_leads hi ha₁).bind fun s₂ hs₂ => ?_
  have ha₂ := hs₂.ahead_eq ha₁
  refine (expressionUnless_leads hc ha₂ hsemi (.inl rfl)).bind fun s₃ hs₃ => ?_
  have ha₃ := hs₃.ahead_eq ha₂
  have ha₄ := ahead_advance ha₃
  refine leadsTo_expect_bind ha₃ hsemi ?_
  refine (expressionUnless_leads hinc ha₄ hk (.inr rfl)).bind fun s₅ hs₅ => ?_
  exact leadsTo_expect_bind (hs₅.ahead_eq ha₄) hk leadsTo_refl

end Parse

namespace Grammar

open Parse ParseState

/-! ## The derivations -/

/-- What comes after a declaration in a block is no `else`. -/
theorem Declarations.next_ne_else {rule : ElseRule} {ts rest : List Token} {after : Token}
    {body : List (Stmt Unit)} (h : Declarations rule ts body) (hk : after.kind = .rightBrace) :
    headKind (ts ++ after :: rest) ≠ .elseWord := by
  cases h with
  | nil => simp [headKind, hk]
  | @cons _ us vs _ _ h _ =>
      intro heq
      have hbegin := (h.begins.append vs).headKind (after :: rest)
      rw [heq] at hbegin
      exact absurd hbegin (by decide)

mutual

theorem Declaration.leads {isOpen : Bool} {ts : List Token} {stmt : Stmt Unit}
    (h : Declaration .nearest isOpen ts stmt) (n : Nat) (s : ParseState) (rest : List Token)
    (ha : s.ahead = ts ++ rest) (hnext : isOpen = true → headKind rest ≠ .elseWord) :
    LeadsTo s (declaration n) ts (pure (some stmt)) := by
  match n with
  | 0 => exact leadsTo_spent
  | n + 1 =>
      match h with
      | @Declaration.classDecl _ word name before after us vs parent members hw hn hp hb hms hk =>
          have hmethods := hms.leads
          have ha' : s.ahead = word :: name :: (us ++ before :: (vs ++ after :: rest)) := by
            simpa using ha
          have hts : word :: name :: us ++ before :: vs ++ [after] =
              word :: name :: (us ++ before :: (vs ++ [after])) := by simp
          have ha₁ := ahead_advance ha'
          have ha₂ := ahead_advance ha₁
          rw [declaration, hts]
          refine rescue_leads (leadsTo_accept_bind ha' hw ?_)
          match n with
          | 0 => exact leadsTo_spent
          | n + 1 =>
              rw [classDecl]
              refine leadsTo_expect_bind ha₁ hn ?_
              refine (superclass_leads hp ha₂ hb).bind fun s₃ hs₃ => ?_
              have ha₃ := hs₃.ahead_eq ha₂
              have ha₄ := ahead_advance ha₃
              refine leadsTo_expect_bind ha₃ hb ?_
              refine (hmethods n _ after rest ha₄ hk).bind fun s₅ hs₅ => ?_
              exact leadsTo_expect_bind (hs₅.ahead_eq ha₄) hk leadsTo_refl
      | @Declaration.function _ word us f hw hf =>
          have hfunction := hf.leads
          have hnot : headKind s.ahead ≠ .classWord := by simp [ha, headKind, hw]
          rw [declaration, ← List.append_nil us]
          refine rescue_leads (leadsTo_accept_none hnot (leadsTo_accept_bind ha hw ?_))
          exact (hfunction n _ s.advance rest (ahead_advance ha)).bind fun s₁ _ => leadsTo_refl
      | .var h =>
          obtain ⟨word, us, rfl, hw⟩ := h.begins
          have hclass : headKind s.ahead ≠ .classWord := by simp [ha, headKind, hw]
          have hfun : headKind s.ahead ≠ .funWord := by simp [ha, headKind, hw]
          rw [declaration]
          refine rescue_leads (leadsTo_accept_none hclass (leadsTo_accept_none hfun ?_))
          exact leadsTo_accept_bind ha hw (varDecl_leads h (ahead_advance ha))
      | .statement h =>
          have hstatement := h.leads
          have hbegin := h.begins.headKind rest
          rw [← ha] at hbegin
          rw [declaration]
          refine rescue_leads (leadsTo_accept_none (fun heq => ?_) (leadsTo_accept_none
            (fun heq => ?_) (leadsTo_accept_none (fun heq => ?_) ?_)))
          · exact absurd (heq ▸ hbegin) (by decide)
          · exact absurd (heq ▸ hbegin) (by decide)
          · exact absurd (heq ▸ hbegin) (by decide)
          · exact hstatement n s rest ha hnext

theorem Function.leads {ts : List Token} {f : FunDecl Unit} (h : Function .nearest ts f) (n : Nat)
    (what : String) (s : ParseState) (rest : List Token) (ha : s.ahead = ts ++ rest) :
    LeadsTo s (function n what) ts (pure f) := by
  match n with
  | 0 => exact leadsTo_spent
  | n + 1 =>
      match h with
      | @Function.mk _ name before after us vs names body hn hb hp hk hbody =>
          obtain ⟨brace, ws, rfl, hbrace, hread⟩ := hbody.leads
          have ha' : s.ahead = name :: before :: (us ++ after :: brace :: (ws ++ rest)) := by
            simpa using ha
          have hts : name :: before :: us ++ after :: brace :: ws =
              name :: before :: (us ++ after :: brace :: (ws ++ [])) := by simp
          have ha₁ := ahead_advance ha'
          have ha₂ := ahead_advance ha₁
          rw [function, hts]
          refine leadsTo_expect_bind ha' hn (leadsTo_expect_bind ha₁ hb ?_)
          refine (params_leads hp ha₂ hk).bind fun s₃ hs₃ => ?_
          have ha₃ := hs₃.ahead_eq ha₂
          have ha₄ := ahead_advance ha₃
          refine leadsTo_expect_bind ha₃ hk (leadsTo_expect_bind ha₄ hbrace ?_)
          exact (hread n _ rest (ahead_advance ha₄)).bind fun s₅ _ => leadsTo_refl

theorem Functions.leads {ts : List Token} {fs : List (FunDecl Unit)}
    (h : Functions .nearest ts fs) (n : Nat) (s : ParseState) (after : Token) (rest : List Token)
    (ha : s.ahead = ts ++ after :: rest) (hk : after.kind = .rightBrace) :
    LeadsTo s (methods n) ts (pure fs) := by
  match n with
  | 0 => exact leadsTo_spent
  | n + 1 =>
      rw [methods]
      refine leadsTo_check_bind (leadsTo_atEnd_bind ?_)
      rw [check_of_headKind (by decide), ha]
      match h with
      | .nil =>
          rw [List.nil_append, if_pos (by simp [headKind, hk])]
          exact leadsTo_refl
      | @Functions.cons _ us vs f fs hf hfs =>
          have hfirst := hf.leads
          have hmore := hfs.leads
          have ha' : s.ahead = us ++ (vs ++ after :: rest) := by simpa using ha
          have hgo : headKind (us ++ vs ++ after :: rest) = .identifier := by
            obtain ⟨hn, _, _, _, _⟩ := hf
            exact hn
          rw [hgo, if_neg (by simp)]
          refine (hfirst n _ s _ ha').bind fun s₁ hs₁ => ?_
          rw [← List.append_nil vs]
          exact (hmore n s₁ after rest (hs₁.ahead_eq ha') hk).bind fun s₂ _ => leadsTo_refl

theorem Block.leads {ts : List Token} {body : List (Stmt Unit)} (h : Block .nearest ts body) :
    ∃ before us, ts = before :: us ∧ before.kind = .leftBrace ∧
      ∀ (n : Nat) (s : ParseState) (rest : List Token), s.ahead = us ++ rest →
        LeadsTo s (blockBody n) us (pure body) := by
  match h with
  | @Block.mk _ before after us body hb hbody hk =>
      have hread := hbody.leads
      refine ⟨before, us ++ [after], rfl, hb, fun n s rest ha => ?_⟩
      match n with
      | 0 => exact leadsTo_spent
      | n + 1 =>
          have ha' : s.ahead = us ++ after :: rest := by simpa using ha
          rw [blockBody]
          refine (hread n s after rest ha' hk).bind fun s₁ hs₁ => ?_
          exact leadsTo_expect_bind (hs₁.ahead_eq ha') hk leadsTo_refl

theorem Declarations.leads {ts : List Token} {body : List (Stmt Unit)}
    (h : Declarations .nearest ts body) (n : Nat) (s : ParseState) (after : Token)
    (rest : List Token) (ha : s.ahead = ts ++ after :: rest) (hk : after.kind = .rightBrace) :
    LeadsTo s (declarations n) ts (pure body) := by
  match n with
  | 0 => exact leadsTo_spent
  | n + 1 =>
      rw [declarations]
      refine leadsTo_check_bind (leadsTo_atEnd_bind ?_)
      rw [check_of_headKind (by decide), ha]
      match h with
      | .nil =>
          rw [List.nil_append, if_pos (by simp [headKind, hk])]
          exact leadsTo_refl
      | @Declarations.cons _ isOpen us vs first body hd hds =>
          have hfirst := hd.leads
          have hmore := hds.leads
          have ha' : s.ahead = us ++ (vs ++ after :: rest) := by simpa using ha
          have hbegin := (hd.begins.append vs).headKind (after :: rest)
          have hgo : headKind (us ++ vs ++ after :: rest) ≠ .rightBrace := fun heq =>
            absurd (heq ▸ hbegin) (by decide)
          rw [if_neg (by simpa using hgo)]
          refine (hfirst n s _ ha' fun _ => hds.next_ne_else hk).bind fun s₁ hs₁ => ?_
          rw [← List.append_nil vs]
          exact (hmore n s₁ after rest (hs₁.ahead_eq ha') hk).bind fun s₂ _ => leadsTo_refl

theorem Statement.leads {isOpen : Bool} {ts : List Token} {stmt : Stmt Unit}
    (h : Statement .nearest isOpen ts stmt) (n : Nat) (s : ParseState) (rest : List Token)
    (ha : s.ahead = ts ++ rest) (hnext : isOpen = true → headKind rest ≠ .elseWord) :
    LeadsTo s (statement n) ts (pure stmt) := by
  match n with
  | 0 => exact leadsTo_spent
  | n + 1 =>
      match h with
      | .expression h =>
          obtain @⟨us, semicolon, e, he, hk⟩ := h
          obtain ⟨t, vs, hvs, ht⟩ := (he.begins.append [semicolon]).append rest
          exact statement_leads_expression (ha.trans hvs) ht (expressionStatement_leads ⟨he, hk⟩ ha)
      | @Statement.print _ word semicolon us e hw he hk =>
          have ha' : s.ahead = word :: (us ++ semicolon :: rest) := by simpa using ha
          have ha₁ := ahead_advance ha'
          rw [statement, List.cons_append]
          refine leadsTo_current_bind ha' ?_
          simp only [hw]
          refine leadsTo_accept_bind ha' hw ?_
          rw [printStatement]
          refine (he.leads ha₁ (by simp [headKind, hk, TokenKind.pull])).bind fun s₂ hs₂ => ?_
          exact leadsTo_expect_bind (hs₂.ahead_eq ha₁) hk leadsTo_refl
      | @Statement.ret _ word semicolon us value hw hv hk =>
          have ha' : s.ahead = word :: (us ++ semicolon :: rest) := by simpa using ha
          have ha₁ := ahead_advance ha'
          rw [statement, List.cons_append]
          refine leadsTo_current_bind ha' ?_
          simp only [hw]
          refine leadsTo_accept_bind ha' hw ?_
          rw [returnStatement]
          refine leadsTo_previous_bind (taken_advance ha') ?_
          refine (expressionUnless_leads hv ha₁ hk (.inl rfl)).bind fun s₂ hs₂ => ?_
          exact leadsTo_expect_bind (hs₂.ahead_eq ha₁) hk leadsTo_refl
      | .block h =>
          obtain ⟨before, us, rfl, hb, hread⟩ := h.leads
          rw [statement]
          refine leadsTo_current_bind ha ?_
          simp only [hb]
          rw [← List.append_nil us]
          refine leadsTo_accept_bind ha hb ?_
          exact (hread n _ rest (ahead_advance ha)).bind fun s₂ _ => leadsTo_refl
      | @Statement.whileLoop _ isOpen word before after us vs e body hw hb he hk hbody =>
          have hread := hbody.leads
          have ha' : s.ahead = word :: before :: (us ++ after :: (vs ++ rest)) := by
            simpa using ha
          have hts : word :: before :: us ++ after :: vs =
              word :: (before :: (us ++ [after]) ++ (vs ++ [])) := by simp
          have ha₁ := ahead_advance ha'
          rw [statement, hts]
          refine leadsTo_current_bind ha' ?_
          simp only [hw]
          refine leadsTo_accept_bind ha' hw ?_
          refine (condition_leads hb he hk ha₁).bind fun s₂ hs₂ => ?_
          have ha₂ : s₂.ahead = vs ++ rest := hs₂.ahead_eq (by simpa using ha₁)
          exact (hread n s₂ rest ha₂ hnext).bind fun s₃ _ => leadsTo_refl
      | @Statement.forLoop _ isOpen word before semicolon after us vs ws xs initializer e increment
          body hw hb hi he hsemi hinc hk hbody =>
          have hread := hbody.leads
          have ha' : s.ahead =
              word :: before :: (us ++ (vs ++ semicolon :: (ws ++ after :: (xs ++ rest)))) := by
            simpa using ha
          have hts : word :: before :: us ++ vs ++ semicolon :: ws ++ after :: xs =
              word :: (before :: (us ++ (vs ++ semicolon :: (ws ++ [after]))) ++ (xs ++ [])) := by
            simp
          have ha₁ := ahead_advance ha'
          rw [statement, hts]
          refine leadsTo_current_bind ha' ?_
          simp only [hw]
          refine leadsTo_accept_bind ha' hw ?_
          have hclauses : LeadsTo s.advance forClauses _ (pure ⟨initializer, e, increment⟩) :=
            forClauses_leads hb hi he hsemi hinc hk ha₁
          refine leadsTo_previous_bind (taken_advance ha') ?_
          refine hclauses.bind fun s₂ hs₂ => ?_
          have ha₂ : s₂.ahead = xs ++ rest := hs₂.ahead_eq (by simpa using ha₁)
          refine (hread n s₂ rest ha₂ hnext).bind fun s₃ hs₃ => leadsTo_note_bind ?_
          rw [← loop_eq_whileForm ⟨initializer, e, increment⟩]
          exact leadsTo_refl
      | @Statement.ifThen _ isOpen word before after us vs e thenBranch hw hb he hk hbody =>
          have hread := hbody.leads
          have ha' : s.ahead = word :: before :: (us ++ after :: (vs ++ rest)) := by
            simpa using ha
          have hts : word :: before :: us ++ after :: vs =
              word :: (before :: (us ++ [after]) ++ (vs ++ [])) := by simp
          have ha₁ := ahead_advance ha'
          have hno := hnext rfl
          rw [statement, hts]
          refine leadsTo_current_bind ha' ?_
          simp only [hw]
          refine leadsTo_accept_bind ha' hw ?_
          match n with
          | 0 => exact leadsTo_spent
          | n + 1 =>
              rw [ifStatement]
              refine (condition_leads hb he hk ha₁).bind fun s₂ hs₂ => ?_
              have ha₂ : s₂.ahead = vs ++ rest := hs₂.ahead_eq (by simpa using ha₁)
              refine (hread n s₂ rest ha₂ fun _ => hno).bind fun s₃ hs₃ => ?_
              exact leadsTo_accept_none (by rwa [hs₃.ahead_eq ha₂]) leadsTo_refl
      | @Statement.ifElse _ isOpen isOpen' word before after otherwise us vs ws e thenBranch
          elseBranch hw hb he hk hthen hadmits ho helse =>
          have hread := hthen.leads
          have hread' := helse.leads
          have ha' : s.ahead =
              word :: before :: (us ++ after :: (vs ++ otherwise :: (ws ++ rest))) := by
            simpa using ha
          have hts : word :: before :: us ++ after :: vs ++ otherwise :: ws =
              word :: (before :: (us ++ [after]) ++ (vs ++ otherwise :: (ws ++ []))) := by simp
          have ha₁ := ahead_advance ha'
          have hclosed : isOpen = false := hadmits rfl
          rw [statement, hts]
          refine leadsTo_current_bind ha' ?_
          simp only [hw]
          refine leadsTo_accept_bind ha' hw ?_
          match n with
          | 0 => exact leadsTo_spent
          | n + 1 =>
              rw [ifStatement]
              refine (condition_leads hb he hk ha₁).bind fun s₂ hs₂ => ?_
              have ha₂ : s₂.ahead = vs ++ otherwise :: (ws ++ rest) :=
                hs₂.ahead_eq (by simpa using ha₁)
              refine (hread n s₂ _ ha₂ (by simp [hclosed])).bind fun s₃ hs₃ => ?_
              have ha₃ := hs₃.ahead_eq ha₂
              refine leadsTo_accept_bind ha₃ ho ?_
              exact (hread' n _ rest (ahead_advance ha₃) hnext).bind fun s₄ _ => leadsTo_refl

end

end Grammar
end Lox
