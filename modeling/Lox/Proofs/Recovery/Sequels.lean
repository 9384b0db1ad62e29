import Lox.Proofs.Parsing.Parts
import Lox.Proofs.Parsing.Program

/-!
# A simple statement does not see past its semicolon

A simple statement is an expression with a word or a name in front at most; the only
semicolon in it is the one at its end. Two parses that stand before the same tokens of such
a statement, and know the same of what came before, go on alike up to that semicolon,
whatever is behind it. If the statement is broken, both fail at the same token, with one
fault for that, and skip to what is behind the semicolon.

`Sequels.Agree` is the judgment: two steps that differ in their budgets only, run from such a
pair of states. The budgets matter because they are proportional to the tokens ahead.
-/

namespace Lox

/-- The kinds of token that end a simple statement or begin another kind of statement. -/
def statementBoundaries : List TokenKind :=
  [.semicolon, .leftBrace, .rightBrace, .classWord, .funWord, .forWord, .ifWord, .importWord,
    .whileWord, .eof]

/-- The tokens of a simple statement, with two things that could stand behind it. -/
structure Sequels where
  tokens : List Token
  semicolon : Token
  first : List Token
  second : List Token
  kind : semicolon.kind = .semicolon
  simple : ∀ t ∈ tokens, t.kind ∉ statementBoundaries

namespace Sequels

open Parse

variable {α β : Type} {q : Sequels} {s s' : ParseState}

/-- The two parses know the same. -/
structure Alike (s s' : ParseState) : Prop where
  taken : s'.taken = s.taken
  faults : s'.faults = s.faults
  notes : s'.notes = s.notes

/-- The two parses stand before the last tokens `us` of the statement. -/
structure At (q : Sequels) (us : List Token) (s s' : ParseState) : Prop extends Alike s s' where
  suffix : us <:+ q.tokens
  ahead : s.ahead = us ++ q.semicolon :: q.first
  ahead' : s'.ahead = us ++ q.semicolon :: q.second

/-- The two parses stand in the statement or before its semicolon. -/
def Before (q : Sequels) (s s' : ParseState) : Prop :=
  ∃ us, q.At us s s'

/-- The two parses stand behind the semicolon. -/
structure Behind (q : Sequels) (s s' : ParseState) : Prop extends Alike s s' where
  ahead : s.ahead = q.first
  ahead' : s'.ahead = q.second

/-- A fault that does not end the statement. -/
def Mild (fault : SyntaxFault) : Prop :=
  fault.code ≠ "E101"

theorem mild_invalidTarget (equals : Token) : Mild (.invalidTarget equals) :=
  show "E102" ≠ "E101" by decide

theorem mild_tooMany (found : Token) (what : String) : Mild (.tooMany found what) :=
  show "E103" ≠ "E101" by decide

/-- The two steps end alike: with the same result, in states that `R` relates, or with one
fault that ends the statement. There were the faults `fs` before. A step that ran out of its
budget says nothing. -/
inductive Ends (q : Sequels) (R : ParseState → ParseState → Prop) (fs : List SyntaxFault) :
    Step α → Step α → Prop
  | spent {s : ParseState} {r : Step α} : Ends q R fs (.spent s) r
  | spent' {s : ParseState} {r : Step α} : Ends q R fs r (.spent s)
  | ok {a : α} {s s' : ParseState} {g : List SyntaxFault} :
      R s s' → s.faults = fs ++ g → (∀ f ∈ g, Mild f) → Ends q R fs (.ok a s) (.ok a s')
  | failed {s s' : ParseState} {g : List SyntaxFault} {f : SyntaxFault} :
      q.Before s s' → s.faults = fs ++ g ++ [f] → (∀ f ∈ g, Mild f) →
      Ends q R fs (.failed s) (.failed s')

/-- The two steps end alike wherever they begin in the statement. -/
def Agree (q : Sequels) (R : ParseState → ParseState → Prop) (p p' : Parse α) : Prop :=
  ∀ s s', q.Before s s' → Ends q R s.faults (p s) (p' s')

variable {R : ParseState → ParseState → Prop} {p p' : Parse α}

/-! ## Steps in the statement -/

theorem kind_ne {t : Token} {kind : TokenKind} (ht : t ∈ q.tokens)
    (hk : kind ∈ statementBoundaries) : t.kind ≠ kind :=
  fun h => q.simple t ht (h ▸ hk)

/-- The token that both parses have ahead. -/
theorem At.current {us : List Token} (h : q.At us s s') :
    s.current = us.headD q.semicolon ∧ s'.current = us.headD q.semicolon := by
  rw [ParseState.current, ParseState.current, h.ahead, h.ahead']
  cases us <;> exact ⟨rfl, rfl⟩

theorem At.advance {t : Token} {us : List Token} (h : q.At (t :: us) s s') :
    q.At us s.advance s'.advance where
  taken := by
    rw [ParseState.taken_advance h.ahead, ParseState.taken_advance h.ahead', h.taken]
  faults := h.faults
  notes := h.notes
  suffix := (List.suffix_cons t us).trans h.suffix
  ahead := ParseState.ahead_advance h.ahead
  ahead' := ParseState.ahead_advance h.ahead'

theorem agree_spent : Agree q R (spent : Parse α) p' := fun _ _ _ => .spent

theorem agree_spent' : Agree q R p (spent : Parse α) := fun _ _ _ => .spent'

theorem agree_pure (a : α) : Agree q q.Before (pure a) (pure a) :=
  fun s _ h => .ok (g := []) h (List.append_nil s.faults).symm (List.forall_mem_nil _)

theorem Agree.bind {f f' : α → Parse β} (hp : Agree q q.Before p p')
    (hf : ∀ a, Agree q R (f a) (f' a)) : Agree q R (p >>= f) (p' >>= f') := by
  intro s s' hs
  have h := hp s s' hs
  rw [bind_apply, bind_apply]
  revert h
  generalize p s = r
  generalize p' s' = r'
  intro h
  cases h with
  | spent => exact .spent
  | spent' => exact .spent'
  | failed hb hgs hmild => exact .failed hb hgs hmild
  | @ok a s₁ s₁' gs hb hgs hmild =>
      have hnext := hf a s₁ s₁' hb
      simp only []
      revert hnext
      generalize f a s₁ = r₁
      generalize f' a s₁' = r₁'
      intro hnext
      cases hnext with
      | spent => exact .spent
      | spent' => exact .spent'
      | @failed _ _ gs' f hb' hgs' hmild' =>
          refine .failed (g := gs ++ gs') (f := f) hb' ?_
            (List.forall_mem_append.mpr ⟨hmild, hmild'⟩)
          rw [hgs', hgs, List.append_assoc s.faults gs gs']
      | @ok _ _ _ gs' hb' hgs' hmild' =>
          refine .ok (g := gs ++ gs') hb' ?_ (List.forall_mem_append.mpr ⟨hmild, hmild'⟩)
          rw [hgs', hgs, List.append_assoc]

theorem agree_budgeted {factor : Nat} {f : Nat → Parse α} (hf : ∀ n m, Agree q R (f n) (f m)) :
    Agree q R (budgeted factor f) (budgeted factor f) :=
  fun s s' h => hf _ _ s s' h

theorem agree_unexpected (message : String) :
    Agree q R (unexpected message : Parse α) (unexpected message) := by
  rintro s s' ⟨us, h⟩
  obtain ⟨hcurrent, hcurrent'⟩ := h.current
  rw [unexpected, unexpected, hcurrent, hcurrent']
  refine .failed (g := []) (f := .unexpectedToken (us.headD q.semicolon) message)
    ⟨us, ⟨⟨h.taken, ?_, h.notes⟩, h.suffix, h.ahead, h.ahead'⟩⟩ ?_
    (List.forall_mem_nil _)
  · exact congrArg (· ++ _) h.faults
  · rw [List.append_nil]
    rfl

theorem agree_record {fault : SyntaxFault} (hmild : Mild fault) :
    Agree q q.Before (record fault) (record fault) := by
  rintro s s' ⟨us, h⟩
  refine .ok (g := [fault]) ⟨us, ⟨⟨h.taken, ?_, h.notes⟩, h.suffix, h.ahead, h.ahead'⟩⟩ rfl
    (List.forall_mem_singleton.mpr hmild)
  exact congrArg (· ++ _) h.faults

/-- A step that depends on the token ahead: one of the statement, or the semicolon. -/
theorem agree_current {f f' : Token → Parse α}
    (hf : ∀ t, t ∈ q.tokens ∨ t = q.semicolon → Agree q R (f t) (f' t)) :
    Agree q R (current >>= f) (current >>= f') := by
  rintro s s' ⟨us, h⟩
  obtain ⟨hcurrent, hcurrent'⟩ := h.current
  rw [bind_apply, bind_apply, current, current]
  simp only [hcurrent, hcurrent']
  refine hf _ ?_ s s' ⟨us, h⟩
  cases us with
  | nil => exact .inr rfl
  | cons t us => exact .inl (h.suffix.subset List.mem_cons_self)

theorem agree_previous {f f' : Token → Parse α} (hf : ∀ t, Agree q R (f t) (f' t)) :
    Agree q R (previous >>= f) (previous >>= f') := by
  intro s s' hs
  obtain ⟨us, h⟩ := hs
  rw [bind_apply, bind_apply, previous, previous, h.taken]
  cases s.taken with
  | nil => exact .spent
  | cons t earlier => exact hf t s s' ⟨us, h⟩

theorem agree_check {kind : TokenKind} {f f' : Bool → Parse α} (hf : ∀ b, Agree q R (f b) (f' b)) :
    Agree q R (check kind >>= f) (check kind >>= f') := by
  rintro s s' ⟨us, h⟩
  have hhead : s'.ahead.head? = s.ahead.head? := by
    rw [h.ahead, h.ahead']
    cases us <;> rfl
  have hs' : check kind s' = .ok (s.ahead.head?.any (·.kind == kind)) s' := by rw [check, hhead]
  rw [bind_apply, bind_apply, hs', check]
  exact hf _ s s' ⟨us, h⟩

/-- A token is accepted within the statement alone. -/
theorem agree_acceptIf {wanted : TokenKind → Bool} {f f' : Option Token → Parse α}
    (hwanted : wanted .semicolon = false)
    (hsome : ∀ t ∈ q.tokens, wanted t.kind = true → Agree q R (f (some t)) (f' (some t)))
    (hnone : Agree q R (f none) (f' none)) :
    Agree q R (acceptIf wanted >>= f) (acceptIf wanted >>= f') := by
  rintro s s' ⟨us, h⟩
  rw [bind_apply, bind_apply, acceptIf, acceptIf, h.ahead, h.ahead']
  cases us with
  | nil =>
      simp only [List.nil_append, q.kind, hwanted, Bool.false_eq_true, if_false]
      exact hnone s s' ⟨[], h⟩
  | cons t us =>
      simp only [List.cons_append]
      by_cases ht : wanted t.kind = true
      · simp only [if_pos ht]
        exact hsome t (h.suffix.subset List.mem_cons_self) ht _ _ ⟨us, h.advance⟩
      · simp only [if_neg ht]
        exact hnone s s' ⟨t :: us, h⟩

theorem agree_accept {kind : TokenKind} {f f' : Option Token → Parse α} (hkind : kind ≠ .semicolon)
    (hsome : ∀ t ∈ q.tokens, t.kind = kind → Agree q R (f (some t)) (f' (some t)))
    (hnone : Agree q R (f none) (f' none)) :
    Agree q R (accept kind >>= f) (accept kind >>= f') :=
  agree_acceptIf (beq_eq_false_iff_ne.mpr hkind.symm) (fun t ht hk => hsome t ht (eq_of_beq hk))
    hnone

theorem agree_expect (kind : TokenKind) (hkind : kind ≠ .semicolon) (message : String) :
    Agree q q.Before (expect kind message) (expect kind message) :=
  agree_accept hkind (fun t _ _ => agree_pure t) (agree_unexpected message)

/-- The semicolon ends the statement. -/
theorem agree_semicolon (message : String) (a : α) :
    Agree q q.Behind (expect .semicolon message >>= fun _ => pure a)
      (expect .semicolon message >>= fun _ => pure a) := by
  rw [expect_eq, bind_assoc]
  rintro s s' ⟨us, h⟩
  cases us with
  | nil =>
      have hsemicolon : (q.semicolon.kind == .semicolon) = true := beq_iff_eq.mpr q.kind
      have haccept : accept .semicolon s = .ok (some q.semicolon) s.advance := by
        simp only [accept, acceptIf, h.ahead, List.nil_append, hsemicolon, if_true]
      have haccept' : accept .semicolon s' = .ok (some q.semicolon) s'.advance := by
        simp only [accept, acceptIf, h.ahead', List.nil_append, hsemicolon, if_true]
      rw [bind_apply, bind_apply, haccept, haccept']
      refine .ok (g := []) ⟨⟨?_, h.faults, h.notes⟩, ParseState.ahead_advance h.ahead,
        ParseState.ahead_advance h.ahead'⟩ (List.append_nil _).symm (List.forall_mem_nil _)
      rw [ParseState.taken_advance h.ahead, ParseState.taken_advance h.ahead', h.taken]
  | cons t us =>
      have ht : ¬ (t.kind == .semicolon) = true := fun hk =>
        kind_ne (h.suffix.subset List.mem_cons_self) (by decide) (eq_of_beq hk)
      have haccept : accept .semicolon s = .ok none s := by
        simp only [accept, acceptIf, h.ahead, List.cons_append, if_neg ht]
      have haccept' : accept .semicolon s' = .ok none s' := by
        simp only [accept, acceptIf, h.ahead', List.cons_append, if_neg ht]
      rw [bind_apply, bind_apply, haccept, haccept']
      exact agree_unexpected message s s' ⟨t :: us, h⟩

/-! ## Expressions -/

theorem agree_checkCount (count : Nat) (what : String) :
    Agree q q.Before (checkCount count what) (checkCount count what) := by
  rw [checkCount]
  split
  · exact agree_current fun t _ => agree_record (mild_tooMany t what)
  · exact agree_pure ()

theorem agree_assignTo (target : Expr Unit) (equals : Token) (value : Expr Unit) :
    Agree q q.Before (assignTo target equals value) (assignTo target equals value) := by
  cases target with
  | var | get => exact agree_pure _
  | _ => exact (agree_record (mild_invalidTarget equals)).bind fun _ => agree_pure _

/-- The procedures for expressions, with budgets of `n` and of `m`. -/
structure ExpressionsAgree (q : Sequels) (n m : Nat) : Prop where
  assignment : Agree q q.Before (assignment n) (assignment m)
  chain : ∀ level, Agree q q.Before (chain n level) (chain m level)
  chainRest : ∀ level left, Agree q q.Before (chainRest n level left) (chainRest m level left)
  operand : ∀ level, Agree q q.Before (operand n level) (operand m level)
  conditional : Agree q q.Before (conditional n) (conditional m)
  unary : Agree q q.Before (unary n) (unary m)
  callRest : ∀ left, Agree q q.Before (callRest n left) (callRest m left)
  items : ∀ closing, Agree q q.Before (items n closing) (items m closing)
  itemsFrom : ∀ count, Agree q q.Before (itemsFrom n count) (itemsFrom m count)
  primary : Agree q q.Before (primary n) (primary m)

theorem agree_primary {n m : Nat} (ih : ExpressionsAgree q n m) :
    Agree q q.Before (primary (n + 1)) (primary (m + 1)) := by
  rw [primary, primary]
  refine agree_current fun t _ => ?_
  cases t.kind with
  | falseWord | trueWord | nilWord | number | string | identifier | thisWord =>
      exact agree_accept (by decide) (fun _ _ _ => agree_pure _) (agree_pure _)
  | superWord =>
      have hname := (agree_expect (q := q) .dot (by decide)
        "Expect '.' after 'super'.").bind fun _ =>
          (agree_expect .identifier (by decide) "Expect superclass method name.").bind
            fun method => agree_pure (Expr.superRef t method ())
      exact agree_accept (by decide) (fun _ _ _ => hname) hname
  | leftParen =>
      have hinner := ih.assignment.bind fun inner =>
        (agree_expect .rightParen (by decide) "Expect ')' after expression.").bind
          fun _ => agree_pure (Expr.grouping inner)
      exact agree_accept (by decide) (fun _ _ _ => hinner) hinner
  | leftBracket =>
      have hinner := (ih.items .rightBracket).bind fun elements =>
        (agree_expect .rightBracket (by decide)
          "Expect ']' after vector elements.").bind fun _ => agree_pure (Expr.vector t elements)
      exact agree_accept (by decide) (fun _ _ _ => hinner) hinner
  | _ => exact agree_unexpected _

theorem expressionsAgree (n m : Nat) : ExpressionsAgree q n m := by
  induction n generalizing m with
  | zero => constructor <;> intros <;> exact agree_spent
  | succ n ih =>
      cases m with
      | zero => constructor <;> intros <;> exact agree_spent'
      | succ m =>
          have ih := ih m
          refine ⟨?_, ?_, ?_, ?_, ?_, ?_, ?_, ?_, ?_, agree_primary ih⟩
          · rw [assignment, assignment]
            exact (ih.chain _).bind fun target => agree_accept (by decide)
              (fun equals _ _ => ih.assignment.bind fun value =>
                agree_assignTo target equals value)
              (agree_pure target)
          · intro level
            rw [chain, chain]
            exact (ih.operand level).bind fun left => ih.chainRest level left
          · intro level left
            rw [chainRest, chainRest]
            refine agree_acceptIf (by cases level <;> rfl) (fun operator _ _ => ?_)
              (agree_pure left)
            exact (ih.operand level).bind fun right =>
              ih.chainRest level (level.node left operator right)
          · intro level
            cases level with
            | or => exact ih.chain .and
            | and => exact ih.conditional
            | equality => exact ih.chain .comparison
            | comparison => exact ih.chain .term
            | term => exact ih.chain .factor
            | factor => exact ih.unary
          · rw [conditional, conditional]
            refine (ih.chain _).bind fun condition => agree_accept (by decide) (fun _ _ _ => ?_)
              (agree_pure condition)
            exact ih.conditional.bind fun _ => (agree_expect _ (by decide) _).bind fun _ =>
              ih.conditional.bind fun _ => agree_pure _
          · rw [unary, unary]
            exact agree_acceptIf rfl (fun _ _ _ => ih.unary.bind fun _ => agree_pure _)
              (ih.primary.bind fun callee => ih.callRest callee)
          · intro left
            rw [callRest, callRest]
            refine agree_accept (by decide) (fun _ _ _ => ?_)
              (agree_accept (by decide) (fun _ _ _ => ?_) (agree_pure left))
            · exact (ih.items _).bind fun arguments => (agree_expect _ (by decide) _).bind
                fun paren => ih.callRest (.call left paren arguments)
            · exact (agree_expect _ (by decide) _).bind fun name => ih.callRest (.get left name)
          · intro closing
            rw [items, items]
            refine agree_check fun b => ?_
            cases b with
            | true => exact agree_pure []
            | false => exact ih.itemsFrom 0
          · intro count
            rw [itemsFrom, itemsFrom]
            exact (agree_checkCount _ _).bind fun _ => ih.assignment.bind fun item =>
              agree_accept (by decide)
                (fun _ _ _ => (ih.itemsFrom (count + 1)).bind fun _ => agree_pure _)
                (agree_pure [item])

theorem agree_expression : Agree q q.Before expression expression :=
  agree_budgeted fun n m => (expressionsAgree n m).assignment

/-! ## Simple statements -/

theorem agree_initializer : Agree q q.Before initializer initializer :=
  agree_accept (by decide) (fun _ _ _ => agree_expression.bind fun _ => agree_pure _)
    (agree_pure none)

theorem agree_varDecl : Agree q q.Behind varDecl varDecl :=
  (agree_expect _ (by decide) _).bind fun _ => agree_initializer.bind fun _ =>
    agree_semicolon _ _

theorem agree_expressionStatement : Agree q q.Behind expressionStatement expressionStatement :=
  agree_expression.bind fun _ => agree_semicolon _ _

theorem agree_printStatement : Agree q q.Behind printStatement printStatement :=
  agree_expression.bind fun _ => agree_semicolon _ _

theorem agree_returnStatement : Agree q q.Behind returnStatement returnStatement := by
  refine agree_previous fun keyword => Agree.bind (agree_check fun b => ?_) fun value =>
    agree_semicolon _ _
  cases b with
  | true => exact agree_pure none
  | false => exact agree_expression.bind fun e => agree_pure (some e)

/-- What begins none of the other kinds of statement is a simple one. -/
theorem agree_statement (n m : Nat) : Agree q q.Behind (statement n) (statement m) := by
  cases n with
  | zero => exact agree_spent
  | succ n =>
      cases m with
      | zero => exact agree_spent'
      | succ m =>
          rw [statement, statement]
          refine agree_current fun t ht => ?_
          have hsub : [.leftBrace, .ifWord, .whileWord, .forWord, .importWord] ⊆
              statementBoundaries := by
            decide
          have hsimple : t.kind ∉ [.leftBrace, .ifWord, .whileWord, .forWord, .importWord] := by
            rcases ht with ht | rfl
            · exact fun h => q.simple t ht (hsub h)
            · rw [q.kind]
              decide
          cases hk : t.kind with
          | printWord =>
              exact agree_accept (by decide) (fun _ _ _ => agree_printStatement)
                agree_printStatement
          | returnWord =>
              exact agree_accept (by decide) (fun _ _ _ => agree_returnStatement)
                agree_returnStatement
          | leftBrace | ifWord | whileWord | forWord | importWord =>
              rw [hk] at hsimple
              exact absurd (by decide) hsimple
          | _ => exact agree_expressionStatement

end Sequels

/-! ## After a failure -/

namespace Parse

open ParseState

/-- Skipping ends at once where the last token that was taken is a semicolon. -/
theorem skip_of_semicolon {s : ParseState} {semicolon : Token} {earlier : List Token} (n : Nat)
    (ht : s.taken = semicolon :: earlier) (hk : semicolon.kind = .semicolon) :
    skip (n + 1) s = .ok () s := by
  rw [skip, bind_apply, atEnd]
  cases s.ahead.isEmpty with
  | true => rfl
  | false =>
      simp only [Bool.false_eq_true, if_false]
      rw [bind_apply, previous, ht]
      simp only []
      rw [bind_apply, current]
      simp only [hk, true_or, if_true]
      rfl

/-- Skipping over tokens that begin no statement ends behind the first semicolon. -/
theorem skip_to_semicolon {s : ParseState} {us rest earlier : List Token} {last semicolon : Token}
    {n : Nat} (hs : s.ahead = us ++ semicolon :: rest) (hk : semicolon.kind = .semicolon)
    (hus : ∀ t ∈ us, t.kind ≠ .semicolon ∧ t.kind.startsStatement = false)
    (ht : s.taken = last :: earlier) (hlast : last.kind ≠ .semicolon) (hn : us.length + 1 < n) :
    skip n s = .ok () { s with ahead := rest, taken := semicolon :: us.reverse ++ s.taken } := by
  induction n generalizing s us last earlier with
  | zero => omega
  | succ n ih =>
      have hnonempty : s.ahead.isEmpty = false := by rw [hs]; cases us <;> rfl
      have hprevious : previous s = .ok last s := by rw [previous, ht]
      rw [skip, bind_apply, atEnd, hnonempty]
      simp only [Bool.false_eq_true, if_false]
      rw [bind_apply, hprevious]
      simp only []
      rw [bind_apply, current]
      cases us with
      | nil =>
          have hcurrent : s.current = semicolon := by rw [ParseState.current, hs]; rfl
          have hnext : ¬ (last.kind = .semicolon ∨ semicolon.kind.startsStatement = true) := by
            rw [hk]
            exact not_or.mpr ⟨hlast, by decide⟩
          obtain ⟨n, rfl⟩ : ∃ k, n = k + 1 := ⟨n - 1, by omega⟩
          simp only [hcurrent, if_neg hnext]
          rw [bind_apply, discard]
          simp only []
          rw [skip_of_semicolon n (taken_advance hs) hk, advance, hs]
          rfl
      | cons t us =>
          obtain ⟨⟨htkind, htstart⟩, hus⟩ := List.forall_mem_cons.mp hus
          have hcurrent : s.current = t := by rw [ParseState.current, hs]; rfl
          have hnext : ¬ (last.kind = .semicolon ∨ t.kind.startsStatement = true) :=
            not_or.mpr ⟨hlast, by rw [htstart]; exact Bool.false_ne_true⟩
          simp only [hcurrent, if_neg hnext]
          rw [bind_apply, discard]
          simp only []
          rw [ih (ahead_advance hs) hus (taken_advance hs) htkind (by
            rw [List.length_cons] at hn
            omega), advance, hs]
          simp only [List.cons_append, List.head?_cons, Option.toList_some, List.nil_append,
            List.reverse_cons, List.append_assoc]

/-- After a failure in a simple statement the parse goes on right behind its semicolon: the
token at which it failed is taken in any case, and no other begins a statement. -/
theorem synchronize_to_semicolon {s : ParseState} {us rest : List Token} {semicolon : Token}
    (hs : s.ahead = us ++ semicolon :: rest) (hk : semicolon.kind = .semicolon)
    (hus : ∀ t ∈ us, t.kind ≠ .semicolon)
    (htail : ∀ t ∈ us.tail, t.kind.startsStatement = false) :
    synchronize s =
      .ok () { s with ahead := rest, taken := semicolon :: us.reverse ++ s.taken } := by
  rw [synchronize, bind_apply, discard]
  simp only [budgeted]
  cases us with
  | nil =>
      rw [Nat.one_mul, skip_of_semicolon _ (taken_advance hs) hk, advance, hs]
      rfl
  | cons t us =>
      have htokens : ∀ u ∈ us, u.kind ≠ .semicolon ∧ u.kind.startsStatement = false :=
        fun u hu => ⟨hus u (List.mem_cons_of_mem t hu), htail u hu⟩
      have hahead : s.advance.ahead = us ++ semicolon :: rest := ahead_advance hs
      have hlen : us.length + 1 < 1 * (s.advance.ahead.length + 1) := by
        rw [hahead, List.length_append, List.length_cons]
        omega
      rw [skip_to_semicolon hahead hk htokens (taken_advance hs) (hus t List.mem_cons_self) hlen,
        advance, hs]
      simp only [List.cons_append, List.head?_cons, Option.toList_some, List.nil_append,
        List.reverse_cons, List.append_assoc]

end Parse

namespace Sequels

open Parse

variable {α : Type} {q : Sequels} {s s' : ParseState}

theorem countP_eq_zero_of_mild {fs : List SyntaxFault} (h : ∀ f ∈ fs, Mild f) :
    fs.countP (·.code = "E101") = 0 :=
  List.countP_eq_zero.mpr fun f hf hcode => h f hf (of_decide_eq_true hcode)

/-- Both parses are behind the semicolon, with at most one fault that ended the statement. -/
structure Settled (q : Sequels) (fs : List SyntaxFault) (s s' : ParseState) : Prop where
  behind : q.Behind s s'
  faults : ∃ gs, s.faults = fs ++ gs ∧ gs.countP (·.code = "E101") ≤ 1

/-- After a failure both parses go on behind the semicolon. -/
theorem At.synchronize {us : List Token} (h : q.At us s s')
    (htail : ∀ t ∈ q.tokens.tail, t.kind.startsStatement = false) :
    ∃ s₁ s₁', synchronize s = .ok () s₁ ∧ synchronize s' = .ok () s₁' ∧ q.Behind s₁ s₁' ∧
      s₁.faults = s.faults := by
  have hus : ∀ t ∈ us, t.kind ≠ .semicolon :=
    fun t ht => kind_ne (h.suffix.subset ht) (by decide)
  have hrest : us.tail <:+ q.tokens.tail := by
    obtain ⟨front, hfront⟩ := h.suffix
    rw [← hfront]
    cases front with
    | nil => exact List.suffix_rfl
    | cons t front => exact us.tail_suffix.trans (List.suffix_append front us)
  have htail' : ∀ t ∈ us.tail, t.kind.startsStatement = false :=
    fun t ht => htail t (hrest.subset ht)
  refine ⟨_, _, synchronize_to_semicolon h.ahead q.kind hus htail',
    synchronize_to_semicolon h.ahead' q.kind hus htail', ⟨⟨?_, h.faults, h.notes⟩, rfl, rfl⟩, rfl⟩
  exact congrArg (q.semicolon :: us.reverse ++ ·) h.taken

theorem settled_rescue {p p' : Parse α} (hp : Agree q q.Behind p p') (h : q.Before s s')
    (htail : ∀ t ∈ q.tokens.tail, t.kind.startsStatement = false) (hs : ¬ IsSpent p s)
    (hs' : ¬ IsSpent p' s') :
    ∃ r s₁ s₁', rescue p s = .ok r s₁ ∧ rescue p' s' = .ok r s₁' ∧
      Settled q s.faults s₁ s₁' := by
  have hends := hp s s' h
  rw [rescue, rescue]
  generalize hr : p s = r at hends
  generalize hr' : p' s' = r' at hends
  cases hends with
  | spent => exact absurd ⟨_, hr⟩ hs
  | spent' => exact absurd ⟨_, hr'⟩ hs'
  | @ok a s₁ s₁' gs hbehind hgs hmild =>
      refine ⟨some a, s₁, s₁', rfl, rfl, hbehind, gs, hgs, ?_⟩
      rw [countP_eq_zero_of_mild hmild]
      exact Nat.zero_le 1
  | @failed s₁ s₁' gs f hbefore hgs hmild =>
      obtain ⟨us, hat⟩ := hbefore
      obtain ⟨s₂, s₂', hskip, hskip', hbehind, hfaults⟩ := hat.synchronize htail
      refine ⟨none, s₂, s₂', ?_, ?_, hbehind, gs ++ [f], ?_, ?_⟩
      · simp only [bind_apply, hskip]
        rfl
      · simp only [bind_apply, hskip']
        rfl
      · rw [hfaults, hgs, List.append_assoc]
      · rw [List.countP_append, countP_eq_zero_of_mild hmild, Nat.zero_add]
        exact List.countP_le_length

/-- A simple statement is read as a declaration, or skipped. -/
theorem settled_declaration {n m : Nat} (h : q.Before s s')
    (htail : ∀ t ∈ q.tokens.tail, t.kind.startsStatement = false)
    (hs : ¬ IsSpent (declaration n) s) (hs' : ¬ IsSpent (declaration m) s') :
    ∃ r s₁ s₁', declaration n s = .ok r s₁ ∧ declaration m s' = .ok r s₁' ∧
      Settled q s.faults s₁ s₁' := by
  cases n with
  | zero => exact absurd ⟨s, rfl⟩ hs
  | succ n =>
      cases m with
      | zero => exact absurd ⟨s', rfl⟩ hs'
      | succ m =>
          rw [declaration] at hs
          rw [declaration] at hs'
          rw [declaration, declaration]
          refine settled_rescue ?_ h htail (fun hp => hs (Runs.rescued .whole |>.isSpent hp))
            fun hp => hs' (Runs.rescued .whole |>.isSpent hp)
          exact agree_accept (by decide) (fun t ht hk => absurd hk (kind_ne ht (by decide)))
            (agree_accept (by decide) (fun t ht hk => absurd hk (kind_ne ht (by decide)))
              (agree_accept (by decide) (fun _ _ _ => agree_varDecl) (agree_statement n m)))

theorem settled_topDeclaration (h : q.Before s s')
    (htail : ∀ t ∈ q.tokens.tail, t.kind.startsStatement = false)
    (hs : ¬ IsSpent topDeclaration s) (hs' : ¬ IsSpent topDeclaration s') :
    ∃ r s₁ s₁', topDeclaration s = .ok r s₁ ∧ topDeclaration s' = .ok r s₁' ∧
      Settled q s.faults s₁ s₁' := by
  have hbudget : topDeclaration s = declaration (8 * (s.ahead.length + 1)) s := rfl
  have hbudget' : topDeclaration s' = declaration (8 * (s'.ahead.length + 1)) s' := rfl
  rw [IsSpent, hbudget] at hs
  rw [IsSpent, hbudget'] at hs'
  rw [hbudget, hbudget']
  exact settled_declaration h htail hs hs'

end Sequels
end Lox
