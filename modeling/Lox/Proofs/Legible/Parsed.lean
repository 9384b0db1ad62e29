import Lox.Proofs.Imports.Rounds
import Lox.Proofs.Legible.Lexical
import Lox.Proofs.Parsing.Parts
import Lox.Proofs.Parsing.Program
import Lox.Proofs.Typed.Closings

/-!
# The parser makes trees of lexemes

Whatever the parser is given, with faults or without, a tree it makes has lexemes in the
places of its tokens, each of a kind that the place asks for. A judgment about steps says so,
and there is a rule for every way to build a step.
-/

namespace Lox

open Token

/-- A token of a unit: a lexeme, or the semicolon that a unit without one is given. -/
def Token.Legible (t : Token) : Prop :=
  t.IsLexeme ∨ t.kind = .semicolon

theorem Token.Legible.isOf {wanted : TokenKind → Bool} {t : Token} (h : t.Legible)
    (hk : wanted t.kind = true) (hsemicolon : wanted .semicolon = false) : t.IsOf wanted := by
  rcases h with h | h
  · exact ⟨h, hk⟩
  · rw [h, hsemicolon] at hk
    cases hk

theorem Token.Legible.isA {kind : TokenKind} {t : Token} (h : t.Legible) (hk : t.kind = kind)
    (hne : kind ≠ .semicolon) : t.IsA kind :=
  h.isOf (beq_iff_eq.mpr hk) (beq_eq_false_iff_ne.mpr hne.symm)

/-- All tokens but the end of the input are those of a unit. -/
structure ParseState.Legible (s : ParseState) : Prop where
  ahead : ∀ t ∈ s.ahead, t.Legible
  taken : ∀ t ∈ s.taken, t.Legible
  finish : s.finish.kind = .eof

namespace ParseState

variable {s s' : ParseState} {ts : List Token}

theorem Legible.moves (h : s.Legible) (hm : s.Moves ts s') : s'.Legible := by
  have hahead := h.ahead
  rw [hm.ahead] at hahead
  obtain ⟨hts, hrest⟩ := List.forall_mem_append.mp hahead
  refine ⟨hrest, ?_, hm.finish ▸ h.finish⟩
  rw [hm.taken]
  exact List.forall_mem_append.mpr ⟨fun t ht => hts t (List.mem_reverse.mp ht), h.taken⟩

/-- The next token is one of the unit, or the end of the input. -/
theorem Legible.current (h : s.Legible) : s.current.Legible ∨ s.current.kind = .eof := by
  cases ha : s.ahead with
  | nil =>
      have hcurrent : s.current = s.finish := by simp [ParseState.current, ha]
      exact .inr (hcurrent ▸ h.finish)
  | cons t rest =>
      have hcurrent : s.current = t := by simp [ParseState.current, ha]
      exact .inl (hcurrent ▸ h.ahead t (ha ▸ List.mem_cons_self))

end ParseState

namespace Parse

open ParseState

variable {α β : Type} {P : α → Prop} {Q : β → Prop} {p : Parse α}

/-- The state the step ends in is legible, and what it gives has the property. -/
def YieldsAt (s : ParseState) (P : α → Prop) (p : Parse α) : Prop :=
  ∀ a s', p s = .ok a s' → s'.Legible ∧ P a

/-- The step keeps states legible, and what it gives has the property. -/
structure Yields (P : α → Prop) (p : Parse α) : Prop where
  result : ∀ {s a s'}, s.Legible → p s = .ok a s' → s'.Legible ∧ P a

theorem Yields.at {s : ParseState} (h : Yields P p) (hs : s.Legible) : YieldsAt s P p :=
  fun _ _ => h.result hs

/-! ## Rules -/

theorem yields_pure {a : α} (h : P a) : Yields P (pure a) := by
  refine ⟨fun {s b s'} hs heq => ?_⟩
  cases heq
  exact ⟨hs, h⟩

theorem yields_spent : Yields P spent :=
  ⟨fun _ heq => by cases heq⟩

theorem yields_unexpected {message : String} : Yields P (unexpected message) :=
  ⟨fun _ heq => by cases heq⟩

theorem Yields.bind {f : α → Parse β} (hp : Yields P p) (hf : ∀ a, P a → Yields Q (f a)) :
    Yields Q (p >>= f) := by
  refine ⟨fun hs heq => ?_⟩
  obtain ⟨a, s₁, hp', hf'⟩ := bind_eq_ok heq
  obtain ⟨hs₁, ha⟩ := hp.result hs hp'
  exact (hf a ha).result hs₁ hf'

theorem yields_acceptIf_bind {wanted : TokenKind → Bool} {f : Option Token → Parse α}
    (hsome : ∀ t, t.Legible → wanted t.kind = true → Yields P (f (some t)))
    (hnone : Yields P (f none)) : Yields P (acceptIf wanted >>= f) := by
  refine ⟨fun hs heq => ?_⟩
  obtain ⟨found, s₁, haccept, heq⟩ := bind_eq_ok heq
  rw [acceptIf] at haccept
  split at haccept
  · next t rest ha =>
      split at haccept
      · next hk =>
          cases haccept
          exact (hsome t (hs.ahead t (ha ▸ List.mem_cons_self)) hk).result
            (hs.moves (moves_advance ha)) heq
      · cases haccept
        exact hnone.result hs heq
  · cases haccept
    exact hnone.result hs heq

theorem yields_accept_bind {kind : TokenKind} {f : Option Token → Parse α}
    (hsome : ∀ t, t.Legible → t.kind = kind → Yields P (f (some t)))
    (hnone : Yields P (f none)) : Yields P (accept kind >>= f) :=
  yields_acceptIf_bind (fun t ht hk => hsome t ht (beq_iff_eq.mp hk)) hnone

/-- A token that is taken, if it is there, and not kept. -/
theorem yields_skip {kind : TokenKind} (h : Yields P p) :
    Yields P (accept kind >>= fun _ => p) :=
  yields_accept_bind (fun _ _ _ => h) h

theorem yields_expect_bind {kind : TokenKind} {message : String} {f : Token → Parse α}
    (h : ∀ t, t.Legible → t.kind = kind → Yields P (f t)) :
    Yields P (expect kind message >>= f) := by
  rw [expect_eq, bind_assoc]
  refine yields_accept_bind (fun t ht hk => ?_) ?_
  · exact h t ht hk
  · exact yields_unexpected.bind (P := fun _ => False) fun _ hfalse => hfalse.elim

/-- A token that has to be there, and is not kept. -/
theorem yields_need {kind : TokenKind} {message : String} (h : Yields P p) :
    Yields P (expect kind message >>= fun _ => p) :=
  yields_expect_bind fun _ _ _ => h

theorem yields_current_bind {f : Token → Parse α}
    (h : ∀ t, t.Legible ∨ t.kind = .eof → Yields P (f t)) : Yields P (current >>= f) :=
  ⟨fun hs heq => (h _ hs.current).result hs heq⟩

/-- A step that goes on at a state where the next token is known. -/
theorem yields_current_bind_at {f : Token → Parse α}
    (h : ∀ s t, s.Legible → s.current = t → YieldsAt s P (f t)) : Yields P (current >>= f) :=
  ⟨fun hs heq => h _ _ hs rfl _ _ heq⟩

theorem yields_previous : Yields (fun _ => True) previous := by
  refine ⟨fun hs heq => ?_⟩
  rw [previous] at heq
  split at heq
  · cases heq
    exact ⟨hs, trivial⟩
  · cases heq

theorem yields_check_bind {kind : TokenKind} {f : Bool → Parse α} (h : ∀ b, Yields P (f b)) :
    Yields P (check kind >>= f) :=
  ⟨fun hs heq => (h _).result hs heq⟩

theorem yields_atEnd_bind {f : Bool → Parse α} (h : ∀ b, Yields P (f b)) :
    Yields P (atEnd >>= f) :=
  ⟨fun hs heq => (h _).result hs heq⟩

theorem yields_record_bind {fault : SyntaxFault} {f : Unit → Parse α} (h : Yields P (f ())) :
    Yields P (record fault >>= f) :=
  ⟨fun {s} _ _ hs heq => h.result (hs.moves (moves_record s fault)) heq⟩

theorem yields_note_bind {note : Note} {f : Unit → Parse α} (h : Yields P (f ())) :
    Yields P (Parse.note note >>= f) := by
  refine ⟨fun {s} _ _ hs heq => ?_⟩
  have hm : s.Moves [] (s.note note) := ⟨rfl, rfl, rfl, List.prefix_rfl⟩
  exact h.result (hs.moves hm) heq

theorem yields_budgeted {factor : Nat} {f : Nat → Parse α} (h : ∀ n, Yields P (f n)) :
    Yields P (budgeted factor f) :=
  ⟨fun hs heq => (h _).result hs heq⟩

theorem yields_ite {c : Prop} [Decidable c] {q : Parse α} (hp : Yields P p) (hq : Yields P q) :
    Yields P (if c then p else q) := by
  split
  · exact hp
  · exact hq

theorem yields_checkCount_bind {count : Nat} {what : String} {f : Unit → Parse α}
    (h : Yields P (f ())) : Yields P (checkCount count what >>= f) := by
  have hcheck : Yields (fun _ => True) (checkCount count what) := by
    refine yields_ite ?_ (yields_pure trivial)
    exact yields_current_bind fun t _ =>
      yields_record_bind (f := fun u => pure u) (yields_pure trivial)
  exact hcheck.bind fun _ _ => h

/-- What is skipped after a failure was legible, too. -/
theorem yields_rescue (hc : Composed p) (h : Yields P p) :
    Yields (fun found => ∀ a ∈ found, P a) (rescue p) := by
  refine ⟨fun {s found s'} hs heq => ?_⟩
  obtain ⟨ts, hm⟩ := hc.rescue.moves s
  rw [heq] at hm
  refine ⟨hs.moves hm, ?_⟩
  rintro a rfl
  rw [rescue] at heq
  split at heq
  · next b s₁ hp =>
      cases heq
      exact (h.result hs hp).2
  · obtain ⟨_, _, _, hpure⟩ := bind_eq_ok heq
    cases hpure
  · cases heq

/-! ## Expressions -/

theorem chain_node_lexical {level : Chain} {left right : Expr Unit} {operator : Token}
    (hl : left.Lexical) (ho : operator.Legible) (hk : level.operators operator.kind = true)
    (hr : right.Lexical) : (level.node left operator right).Lexical := by
  have hbinary : TokenKind.isBinary operator.kind = true → operator.IsOf TokenKind.isBinary :=
    fun h => ho.isOf h rfl
  have hlogical : TokenKind.isLogical operator.kind = true → operator.IsOf TokenKind.isLogical :=
    fun h => ho.isOf h rfl
  cases level with
  | or | and => exact ⟨hl, hlogical (by simp [TokenKind.isLogical, hk]), hr⟩
  | equality | comparison | term | factor =>
      exact ⟨hl, hbinary (by simp [TokenKind.isBinary, hk]), hr⟩

theorem yields_assignTo {target value : Expr Unit} (equals : Token) (ht : target.Lexical)
    (hv : value.Lexical) : Yields Expr.Lexical (assignTo target equals value) := by
  cases target with
  | var name slot => exact yields_pure ⟨ht, hv⟩
  | get object name => exact yields_pure ⟨ht.1, ht.2, hv⟩
  | _ => exact yields_record_bind (yields_pure ht)

/-- The procedures for expressions with a budget of `n`. -/
structure ExpressionsYield (n : Nat) : Prop where
  assignment : Yields Expr.Lexical (assignment n)
  chain : ∀ level, Yields Expr.Lexical (chain n level)
  chainRest : ∀ level {left}, left.Lexical → Yields Expr.Lexical (chainRest n level left)
  operand : ∀ level, Yields Expr.Lexical (operand n level)
  conditional : Yields Expr.Lexical (conditional n)
  unary : Yields Expr.Lexical (unary n)
  callRest : ∀ {left}, left.Lexical → Yields Expr.Lexical (callRest n left)
  items : ∀ closing, Yields Expr.LexicalAll (items n closing)
  itemsFrom : ∀ count, Yields Expr.LexicalAll (itemsFrom n count)
  primary : Yields Expr.Lexical (primary n)

theorem yields_primary {n : Nat} (ih : ExpressionsYield n) :
    Yields Expr.Lexical (primary (n + 1)) := by
  rw [primary]
  refine yields_current_bind fun t ht => ?_
  have hlegible : t.kind ≠ .eof → t.Legible := ht.resolve_right
  have hlexeme : ∀ {kind : TokenKind}, t.kind = kind → kind ≠ .eof → kind ≠ .semicolon →
      t.IsA kind := fun hk heof hne => (hlegible (hk ▸ heof)).isA hk hne
  split
  case h_1 | h_2 | h_3 => exact yields_skip (yields_pure trivial)
  case h_4 hk | h_5 hk =>
      exact yields_skip (yields_pure (hlexeme hk (by decide) (by decide)).isLexeme.literal_lexical)
  case h_6 hk | h_7 hk => exact yields_skip (yields_pure (hlexeme hk (by decide) (by decide)))
  case h_8 hk =>
      refine yields_skip (yields_need (yields_expect_bind fun method hmethod hk' => ?_))
      exact yields_pure ⟨hlexeme hk (by decide) (by decide), hmethod.isA hk' (by decide)⟩
  case h_9 =>
      refine yields_skip (ih.assignment.bind fun inner hinner => ?_)
      exact yields_need (yields_pure hinner)
  case h_10 hk =>
      refine yields_skip ((ih.items _).bind fun elements helements => ?_)
      exact yields_need (yields_pure ⟨hlexeme hk (by decide) (by decide), helements⟩)
  case h_11 => exact yields_unexpected

theorem expressionsYield (n : Nat) : ExpressionsYield n := by
  induction n with
  | zero => constructor <;> intros <;> exact yields_spent
  | succ n ih =>
      refine ⟨?_, ?_, ?_, ?_, ?_, ?_, ?_, ?_, ?_, yields_primary ih⟩
      · rw [assignment]
        refine (ih.chain _).bind fun target ht => yields_accept_bind (fun equals _ _ => ?_) ?_
        · exact ih.assignment.bind fun value hv => yields_assignTo equals ht hv
        · exact yields_pure ht
      · intro level
        rw [chain]
        exact (ih.operand level).bind fun left hl => ih.chainRest level hl
      · intro level left hl
        rw [chainRest]
        refine yields_acceptIf_bind (fun operator ho hk => ?_) (yields_pure hl)
        exact (ih.operand level).bind fun right hr =>
          ih.chainRest level (chain_node_lexical hl ho hk hr)
      · intro level
        cases level with
        | or => exact ih.chain .and
        | and => exact ih.conditional
        | equality => exact ih.chain .comparison
        | comparison => exact ih.chain .term
        | term => exact ih.chain .factor
        | factor => exact ih.unary
      · rw [conditional]
        refine (ih.chain _).bind fun c hc => yields_accept_bind (fun _ _ _ => ?_) (yields_pure hc)
        refine ih.conditional.bind fun a ha => yields_need ?_
        exact ih.conditional.bind fun b hb => yields_pure ⟨hc, ha, hb⟩
      · rw [unary]
        refine yields_acceptIf_bind (fun operator ho hk => ?_) ?_
        · exact ih.unary.bind fun inner hi => yields_pure ⟨ho.isOf hk rfl, hi⟩
        · exact ih.primary.bind fun callee hcallee => ih.callRest hcallee
      · intro left hl
        rw [callRest]
        refine yields_accept_bind (fun _ _ _ => ?_)
          (yields_accept_bind (fun _ _ _ => ?_) (yields_pure hl))
        · refine (ih.items _).bind fun arguments ha => yields_expect_bind fun paren hp hk => ?_
          exact ih.callRest ⟨hl, hp.isA hk (by decide), ha⟩
        · refine yields_expect_bind fun name hn hk => ?_
          exact ih.callRest ⟨hl, hn.isA hk (by decide)⟩
      · intro closing
        rw [items]
        exact yields_check_bind fun _ => yields_ite (yields_pure trivial) (ih.itemsFrom 0)
      · intro count
        rw [itemsFrom]
        refine yields_checkCount_bind (ih.assignment.bind fun item hi => ?_)
        refine yields_accept_bind (fun _ _ _ => ?_) (yields_pure ⟨hi, trivial⟩)
        exact (ih.itemsFrom (count + 1)).bind fun rest hr => yields_pure ⟨hi, hr⟩

theorem yields_expression : Yields Expr.Lexical expression :=
  yields_budgeted fun n => (expressionsYield n).assignment

/-! ## Statements -/

theorem yields_paramsFrom (n count : Nat) :
    Yields (fun names => ∀ t ∈ names, t.IsA .identifier) (paramsFrom n count) := by
  induction n generalizing count with
  | zero => exact yields_spent
  | succ n ih =>
      rw [paramsFrom]
      refine yields_checkCount_bind (yields_expect_bind fun param hp hk => ?_)
      have hparam : param.IsA .identifier := hp.isA hk (by decide)
      refine yields_accept_bind (fun _ _ _ => ?_)
        (yields_pure fun t ht => List.mem_singleton.mp ht ▸ hparam)
      exact (ih (count + 1)).bind fun rest hr =>
        yields_pure (List.forall_mem_cons.mpr ⟨hparam, hr⟩)

theorem yields_params : Yields (fun names => ∀ t ∈ names, t.IsA .identifier) params :=
  yields_check_bind fun _ => yields_ite (yields_pure fun _ ht => by cases ht)
    (yields_budgeted fun n => yields_paramsFrom (n + 1) 0)

theorem lexicalOption_some {e : Expr Unit} (h : e.Lexical) : Expr.LexicalOption (some e) :=
  fun _ he => Option.some.inj he ▸ h

theorem lexicalOption_none : Expr.LexicalOption (none : Option (Expr Unit)) :=
  fun _ he => by cases he

theorem yields_initializer : Yields Expr.LexicalOption initializer :=
  yields_accept_bind (fun _ _ _ => yields_expression.bind fun _ he =>
    yields_pure (lexicalOption_some he)) (yields_pure lexicalOption_none)

theorem yields_varDecl : Yields Stmt.Lexical varDecl :=
  yields_expect_bind fun _ hn hk => yields_initializer.bind fun _ hv =>
    yields_need (yields_pure ⟨hn.isA hk (by decide), hv⟩)

theorem yields_expressionStatement : Yields Stmt.Lexical expressionStatement :=
  yields_expression.bind fun _ he => yields_need (yields_pure he)

theorem yields_printStatement : Yields Stmt.Lexical printStatement :=
  yields_expression.bind fun _ he => yields_need (yields_pure he)

theorem yields_expressionUnless (kind : TokenKind) :
    Yields Expr.LexicalOption (expressionUnless kind) :=
  yields_check_bind fun _ => yields_ite (yields_pure lexicalOption_none)
    (yields_expression.bind fun _ he => yields_pure (lexicalOption_some he))

theorem yields_condition (before after : String) :
    Yields Expr.Lexical (condition before after) :=
  yields_need (yields_expression.bind fun _ he => yields_need (yields_pure he))

/-- The parts of a `for` loop are made of lexemes. -/
structure ForClauses.Lexical (clauses : ForClauses) : Prop where
  initializer : ∀ s ∈ clauses.initializer, s.Lexical
  condition : Expr.LexicalOption clauses.condition
  increment : Expr.LexicalOption clauses.increment

theorem yields_forInitializer :
    Yields (fun found => ∀ s ∈ found, Stmt.Lexical s) forInitializer := by
  have hsome : ∀ {s : Stmt Unit}, s.Lexical → ∀ s' ∈ some s, Stmt.Lexical s' :=
    fun hs _ hmem => Option.some.inj hmem ▸ hs
  refine yields_accept_bind (fun _ _ _ => yields_pure fun _ hmem => by cases hmem) ?_
  refine yields_accept_bind (fun _ _ _ => ?_) ?_
  · exact yields_varDecl.bind fun _ hs => yields_pure (hsome hs)
  · exact yields_expressionStatement.bind fun _ hs => yields_pure (hsome hs)

theorem yields_forClauses : Yields ForClauses.Lexical forClauses := by
  refine yields_need (yields_forInitializer.bind fun i hi => ?_)
  refine (yields_expressionUnless _).bind fun c hc => yields_need ?_
  refine (yields_expressionUnless _).bind fun inc hinc => yields_need ?_
  exact yields_pure ⟨hi, hc, hinc⟩

/-- The loop that a `for` loop stands for has no tokens of its own. -/
theorem ForClauses.loop_lexical {clauses : ForClauses} (h : clauses.Lexical) {body : Stmt Unit}
    (hbody : body.Lexical) : (clauses.loop body).Lexical := by
  obtain ⟨initializer, condition, increment⟩ := clauses
  have hcondition : (condition.getD (.literal (.bool true))).Lexical := by
    cases condition with
    | none => exact trivial
    | some c => exact h.condition c rfl
  have hround : ∀ round : Stmt Unit, round.Lexical →
      (Stmt.whileLoop (condition.getD (.literal (.bool true))) round).Lexical :=
    fun round hr => ⟨hcondition, hr⟩
  cases increment with
  | none =>
      cases initializer with
      | none => exact hround body hbody
      | some s => exact ⟨h.initializer s rfl, hround body hbody, trivial⟩
  | some e =>
      have hblock : (Stmt.block [body, .expression e]).Lexical :=
        ⟨hbody, h.increment e rfl, trivial⟩
      cases initializer with
      | none => exact hround _ hblock
      | some s => exact ⟨h.initializer s rfl, hround _ hblock, trivial⟩

theorem yields_superclass :
    Yields (fun parent => ∀ r ∈ parent, Token.IsA .identifier (Reference.name r)) superclass := by
  refine yields_accept_bind (fun _ _ _ => ?_) (yields_pure fun _ hmem => by cases hmem)
  refine yields_expect_bind fun name hn hk => yields_pure fun r hr => ?_
  cases hr
  exact hn.isA hk (by decide)

/-- The procedures for statements with a budget of `n`. -/
structure StatementsYield (n : Nat) : Prop where
  declaration : Yields (fun found => ∀ s ∈ found, Stmt.Lexical s) (declaration n)
  classDecl : Yields Stmt.Lexical (classDecl n)
  methods : Yields FunDecl.LexicalAll (methods n)
  function : ∀ what, Yields FunDecl.Lexical (function n what)
  blockBody : Yields Stmt.LexicalAll (blockBody n)
  declarations : Yields Stmt.LexicalAll (declarations n)
  statement : Yields Stmt.Lexical (statement n)
  ifStatement : Yields Stmt.Lexical (ifStatement n)

/-- A `return` keeps its keyword, which is the token that was taken last. -/
theorem yieldsAt_return {s : ParseState} (hs : s.Legible) (hk : s.current.kind = .returnWord) :
    YieldsAt s Stmt.Lexical (accept .returnWord >>= fun _ => returnStatement) := by
  intro stmt s' heq
  cases ha : s.ahead with
  | nil =>
      have hcurrent : s.current = s.finish := by simp [ParseState.current, ha]
      rw [hcurrent, hs.finish] at hk
      cases hk
  | cons t rest =>
      have hcurrent : s.current = t := by simp [ParseState.current, ha]
      rw [hcurrent] at hk
      have hkeyword : t.IsA .returnWord :=
        (hs.ahead t (ha ▸ List.mem_cons_self)).isA hk (by decide)
      have htaken : accept .returnWord s = .ok (some t) s.advance := by
        simp [accept, acceptIf, ha, hk]
      have hprevious : previous s.advance = .ok t s.advance := by
        rw [previous, taken_advance ha]
      have hstatement : returnStatement s.advance = .ok stmt s' := by
        rw [bind_apply, htaken] at heq
        exact heq
      rw [returnStatement, bind_apply, hprevious] at hstatement
      have hrest : Yields Stmt.Lexical (expressionUnless .semicolon >>= fun value =>
          expect .semicolon "Expect ';' after return value." >>= fun _ =>
            pure (Stmt.ret t value)) :=
        (yields_expressionUnless _).bind fun value hv =>
          yields_need (yields_pure ⟨hkeyword, hv⟩)
      exact hrest.result (hs.moves (moves_advance ha)) hstatement

theorem yields_statement {n : Nat} (ih : StatementsYield n) :
    Yields Stmt.Lexical (statement (n + 1)) := by
  rw [statement]
  refine yields_current_bind_at fun s t hs ht => ?_
  split
  case h_1 => exact (yields_skip yields_printStatement).at hs
  case h_2 =>
      refine (yields_skip (ih.blockBody.bind fun body hbody => ?_)).at hs
      exact yields_pure hbody
  case h_3 => exact (yields_skip ih.ifStatement).at hs
  case h_4 =>
      refine (yields_skip ((yields_condition _ _).bind fun e he => ?_)).at hs
      exact ih.statement.bind fun body hbody => yields_pure ⟨he, hbody⟩
  case h_5 =>
      refine (yields_skip (yields_previous.bind fun word _ => ?_)).at hs
      refine yields_forClauses.bind fun clauses hc => ih.statement.bind fun body hbody => ?_
      exact yields_note_bind (yields_pure (ForClauses.loop_lexical hc hbody))
  case h_6 hk => exact yieldsAt_return hs (ht ▸ hk)
  case h_7 => exact yields_unexpected.at hs
  case h_8 => exact yields_expressionStatement.at hs

theorem statementsYield (n : Nat) : StatementsYield n := by
  induction n with
  | zero => constructor <;> intros <;> exact yields_spent
  | succ n ih =>
      refine ⟨?_, ?_, ?_, ?_, ?_, ?_, yields_statement ih, ?_⟩
      · rw [declaration]
        refine yields_rescue ?_ ?_
        · exact .accepting (fun _ => (statementsComposed n).classDecl) <|
            .accepting (fun _ => .bind ((statementsComposed n).function _) fun _ => .pure _) <|
            .accepting (fun _ => composed_varDecl) (statementsComposed n).statement
        · refine yields_accept_bind (fun _ _ _ => ih.classDecl) ?_
          refine yields_accept_bind (fun _ _ _ => ?_) ?_
          · exact (ih.function _).bind fun f hf => yields_pure hf
          · exact yields_accept_bind (fun _ _ _ => yields_varDecl) ih.statement
      · rw [classDecl]
        refine yields_expect_bind fun name hn hk => yields_superclass.bind fun parent hp => ?_
        refine yields_need (ih.methods.bind fun members hm => yields_need ?_)
        exact yields_pure ⟨hn.isA hk (by decide), hp, hm⟩
      · rw [methods]
        refine yields_check_bind fun _ => yields_atEnd_bind fun _ =>
          yields_ite (yields_pure trivial) ?_
        exact (ih.function _).bind fun f hf => ih.methods.bind fun rest hr => yields_pure ⟨hf, hr⟩
      · intro what
        rw [function]
        refine yields_expect_bind fun name hn hk => yields_need ?_
        refine yields_params.bind fun names hnames => yields_need (yields_need ?_)
        exact ih.blockBody.bind fun body hbody =>
          yields_pure ⟨hn.isA hk (by decide), hnames, hbody⟩
      · rw [blockBody]
        exact ih.declarations.bind fun body hbody => yields_need (yields_pure hbody)
      · rw [declarations]
        refine yields_check_bind fun _ => yields_atEnd_bind fun _ =>
          yields_ite (yields_pure trivial) ?_
        refine ih.declaration.bind fun first hf => ih.declarations.bind fun rest hr => ?_
        refine yields_pure ?_
        cases first with
        | none => exact hr
        | some s => exact ⟨hf s rfl, hr⟩
      · rw [ifStatement]
        refine (yields_condition _ _).bind fun e he => ih.statement.bind fun a ha => ?_
        refine yields_accept_bind (fun _ _ _ => ?_) (yields_pure ⟨he, ha⟩)
        exact ih.statement.bind fun b hb => yields_pure ⟨he, ha, hb⟩

theorem yields_topDeclaration :
    Yields (fun found => ∀ s ∈ found, Stmt.Lexical s) topDeclaration :=
  yields_budgeted fun n => (statementsYield n).declaration

/-! ## Programs -/

section

variable {im : Importer} {limit : ErrorLimit} {seen seen' : List AbsPath} {s s' : ParseState}

theorem run_legible {t : Token} (hs : s.Legible) (h : im.run t seen s = .ok (s', seen')) :
    s'.Legible := by
  obtain ⟨name, _, houtcome⟩ := Importer.run_eq_ok h
  cases houtcome with
  | skipped _ hm _ | failed _ _ _ hm _ _ => exact hs.moves hm
  | @spliced _ ts _ htokens hm _ =>
      obtain ⟨_, text, _, _, _, rfl⟩ := Importer.tokens?_eq_some htokens
      obtain ⟨us, eof, hscan, _, hlex⟩ := scan_tokens (unifyNewlines text)
      rw [hscan, List.dropLast_concat] at hm
      have hspliced : ({ s with ahead := us ++ s.ahead } : ParseState).Legible :=
        ⟨List.forall_mem_append.mpr ⟨fun t ht => .inl (hlex t ht), hs.ahead⟩, hs.taken, hs.finish⟩
      exact hspliced.moves hm

/-- All statements of a program are made of lexemes, those of imported files too. -/
theorem program_lexical (n : Nat) (hs : s.Legible) :
    Stmt.LexicalAll (program im limit n seen s).program := by
  induction n generalizing s seen with
  | zero => exact trivial
  | succ n ih =>
      obtain ⟨r, hround, hr⟩ := program_round im limit seen hs.finish
      rw [hr n]
      cases hround with
      | ends | stops | unordered | halts => exact trivial
      | imports _ _ hm _ hrun => exact ih (run_legible (hs.moves hm) hrun)
      | broken _ _ hm => exact ih (hs.moves hm)
      | @declares _ s₁ s₂ stmt _ hm _ _ hd =>
          obtain ⟨hs₂, hstmt⟩ := yields_topDeclaration.result (hs.moves hm) hd
          cases stmt with
          | none => exact ih hs₂
          | some stmt => exact ⟨hstmt stmt rfl, ih hs₂⟩

end

end Parse

/-- The tokens of a unit, before the first is taken. -/
theorem ofTokens_legible (typed : Bool) (source : String) :
    (ParseState.ofTokens (unitTokens typed source)).Legible := by
  obtain ⟨ts, eof, htokens, heof, hlex⟩ := scan_tokens source.toList
  obtain ⟨us, hus, hunit⟩ := unitTokens_eq typed htokens
  have hlegible : ∀ t ∈ ts ++ us, t.Legible :=
    List.forall_mem_append.mpr ⟨fun t ht => .inl (hlex t ht), fun t ht => .inr (hus t ht)⟩
  have hne : ∀ t ∈ ts ++ us, t.kind ≠ .eof := by
    intro t ht
    rcases hlegible t ht with h | h
    · exact h.ne_eof
    · rw [h]
      decide
  obtain ⟨hahead, hfinish⟩ := ofTokens_ended hne heof
  rw [hunit]
  refine ⟨?_, ?_, ?_⟩
  · rw [hahead]
    exact hlegible
  · intro t ht
    cases ht
  · rw [hfinish]
    exact heof

/-- Every program that is parsed from a source is made of lexemes. -/
theorem parseProgram_lexical (im : Importer) (limit : ErrorLimit) (typed : Bool) (source : String)
    (name : Option String) :
    Stmt.LexicalAll (parseProgram im limit (unitTokens typed source) name).program := by
  have hprogram : Stmt.LexicalAll (Parse.program im limit
      (im.supply (unitTokens typed source) + 1) [] (.ofTokens (unitTokens typed source))).program :=
    Parse.program_lexical _ (ofTokens_legible typed source)
  simp only [parseProgram]
  split
  · exact hprogram
  · exact hprogram

/-- Every expression that is parsed from a source is made of lexemes. -/
theorem parseExpression_lexical {typed : Bool} {source : String} {e : Expr Unit}
    (h : (parseExpression (unitTokens typed source)).1 = some e) : e.Lexical := by
  rw [parseExpression] at h
  split at h
  · next e' s' heq =>
      cases h
      exact (Parse.yields_expression.result (ofTokens_legible typed source) heq).2
  · cases h
  · cases h

end Lox
