import Lox.Parse.Program
import Lox.Proofs.Parsing.Steps

/-!
# The parts of a step

Every procedure of the parser is put together from a few elementary steps. `Composed` says so
of a step. While such a step runs, others run as parts of it, each from a state on the way;
`Runs q s' p s` says that `q` runs from `s'` as a part of `p` run from `s`.

Two facts carry over from a step to its parts. A step only moves forwards, so the whole moves
to where a part starts, and goes on from where the part ends. And where a part is spent the
whole is, so a step that is not spent has no part that looks back where nothing was taken.
-/

namespace Lox

/-- The state that a step ends in. -/
def Step.state {α : Type} : Step α → ParseState
  | .ok _ s | .failed s | .spent s => s

namespace Parse

open ParseState

/-- A step that is put together from elementary ones. -/
inductive Composed : {α : Type} → Parse α → Prop
  | pure {α : Type} (a : α) : Composed (pure a : Parse α)
  | spent {α : Type} : Composed (spent : Parse α)
  | current : Composed current
  | previous : Composed previous
  | atEnd : Composed atEnd
  | check (kind : TokenKind) : Composed (check kind)
  | acceptIf (wanted : TokenKind → Bool) : Composed (acceptIf wanted)
  | discard : Composed discard
  | record (fault : SyntaxFault) : Composed (record fault)
  | unexpected {α : Type} (message : String) : Composed (unexpected message : Parse α)
  | note (n : Note) : Composed (note n)
  | bind {α β : Type} {p : Parse α} {f : α → Parse β} :
      Composed p → (∀ a, Composed (f a)) → Composed (p >>= f)
  | rescue {α : Type} {p : Parse α} : Composed p → Composed (rescue p)
  | budgeted {α : Type} {f : Nat → Parse α} (factor : Nat) :
      (∀ n, Composed (f n)) → Composed (budgeted factor f)

/-- The step `q` runs from `s'` as a part of a step run from `s`. -/
inductive Runs {β : Type} (q : Parse β) (s' : ParseState) :
    {α : Type} → Parse α → ParseState → Prop
  | whole : Runs q s' q s'
  | first {α γ : Type} {p : Parse α} {f : α → Parse γ} {s : ParseState} :
      (∀ a, Composed (f a)) → Runs q s' p s → Runs q s' (p >>= f) s
  | second {α γ : Type} {p : Parse α} {f : α → Parse γ} {s s₁ : ParseState} {a : α} :
      Composed p → p s = .ok a s₁ → Runs q s' (f a) s₁ → Runs q s' (p >>= f) s
  | rescued {α : Type} {p : Parse α} {s : ParseState} : Runs q s' p s → Runs q s' (rescue p) s
  | skipping {α : Type} {p : Parse α} {s s₁ : ParseState} :
      Composed p → p s = .failed s₁ → Runs q s' synchronize s₁ → Runs q s' (rescue p) s
  | budgeted {α : Type} {f : Nat → Parse α} {factor : Nat} {s : ParseState} :
      Runs q s' (f (factor * (s.ahead.length + 1))) s → Runs q s' (budgeted factor f) s

variable {α β : Type} {p : Parse α} {q : Parse β} {s s' : ParseState}

/-! ## Steps move forwards -/

theorem moves_acceptIf (wanted : TokenKind → Bool) (s : ParseState) :
    ∃ ts, s.Moves ts (acceptIf wanted s).state := by
  rw [acceptIf]
  split
  · next ha =>
      split
      · exact ⟨_, moves_advance ha⟩
      · exact ⟨[], Moves.refl s⟩
  · exact ⟨[], Moves.refl s⟩

theorem moves_discard (s : ParseState) : ∃ ts, s.Moves ts (discard s).state := by
  cases ha : s.ahead with
  | nil =>
      have heq : discard s = .ok () s := congrArg (Step.ok ()) (advance_of_end ha)
      exact ⟨[], heq ▸ Moves.refl s⟩
  | cons t rest => exact ⟨[t], moves_advance ha⟩

/-- What follows the first of two steps starts where that ends. -/
theorem moves_bind {f : α → Parse β} (p : Parse α) (s : ParseState)
    (hf : ∀ a (s₁ : ParseState), ∃ ts, s₁.Moves ts (f a s₁).state) :
    ∃ ts, (p s).state.Moves ts ((p >>= f) s).state := by
  rw [bind_apply]
  cases p s with
  | ok a s₁ => exact hf a s₁
  | failed s₁ | spent s₁ => exact ⟨[], Moves.refl s₁⟩

theorem rescue_failed_state {s₁ : ParseState} (hp : p s = .failed s₁) :
    (rescue p s).state = (synchronize s₁).state := by
  obtain ⟨_, _, hskip, _⟩ := synchronize_eq_ok s₁
  rw [rescue, hp]
  simp only [bind_apply, hskip]
  rfl

theorem moves_rescue (p : Parse α) (s : ParseState) :
    ∃ ts, (p s).state.Moves ts (rescue p s).state := by
  cases h : p s with
  | ok a s₁ | spent s₁ =>
      rw [rescue, h]
      exact ⟨[], Moves.refl s₁⟩
  | failed s₁ =>
      obtain ⟨us, s₂, heq, hm, _⟩ := rescue_of_failed h
      rw [heq]
      exact ⟨us, hm⟩

theorem Composed.moves (h : Composed p) (s : ParseState) : ∃ ts, s.Moves ts (p s).state := by
  induction h generalizing s with
  | pure | spent | current | atEnd | check => exact ⟨[], Moves.refl s⟩
  | previous =>
      rw [Parse.previous]
      split <;> exact ⟨[], Moves.refl s⟩
  | acceptIf wanted => exact moves_acceptIf wanted s
  | discard => exact moves_discard s
  | record | unexpected => exact ⟨[], moves_record s _⟩
  | note => exact ⟨[], rfl, rfl, rfl, List.prefix_rfl⟩
  | bind _ _ ihp ihf =>
      obtain ⟨ts, hm⟩ := ihp s
      obtain ⟨us, hm'⟩ := moves_bind _ s ihf
      exact ⟨ts ++ us, hm.trans hm'⟩
  | rescue _ ih =>
      obtain ⟨ts, hm⟩ := ih s
      obtain ⟨us, hm'⟩ := moves_rescue _ s
      exact ⟨ts ++ us, hm.trans hm'⟩
  | budgeted _ _ ih => exact ih _ s

/-- A part starts where the whole has moved to. -/
theorem Runs.moves (h : Runs q s' p s) : ∃ ts, s.Moves ts s' := by
  induction h with
  | whole => exact ⟨[], Moves.refl s'⟩
  | first _ _ ih | rescued _ ih | budgeted _ ih => exact ih
  | second hp heq _ ih | skipping hp heq _ ih =>
      obtain ⟨ts, hm⟩ := hp.moves _
      obtain ⟨us, hm'⟩ := ih
      rw [heq] at hm
      exact ⟨ts ++ us, hm.trans hm'⟩

/-- The whole goes on from where a part ends. -/
theorem Runs.moves_after (h : Runs q s' p s) : ∃ ts, (q s').state.Moves ts (p s).state := by
  induction h with
  | whole => exact ⟨[], Moves.refl _⟩
  | first hf _ ih =>
      obtain ⟨ts, hm⟩ := ih
      obtain ⟨us, hm'⟩ := moves_bind _ _ fun a => (hf a).moves
      exact ⟨ts ++ us, hm.trans hm'⟩
  | rescued _ ih =>
      obtain ⟨ts, hm⟩ := ih
      obtain ⟨us, hm'⟩ := moves_rescue _ _
      exact ⟨ts ++ us, hm.trans hm'⟩
  | second _ heq _ ih =>
      rw [bind_apply, heq]
      exact ih
  | skipping _ heq _ ih =>
      rw [rescue_failed_state heq]
      exact ih
  | budgeted _ ih => exact ih

/-! ## Parts that are spent -/

/-- The step ends before its time. -/
def IsSpent (p : Parse α) (s : ParseState) : Prop :=
  ∃ s', p s = .spent s'

/-- A part that is spent ends the whole. -/
theorem Runs.isSpent (h : Runs q s' p s) (hq : IsSpent q s') : IsSpent p s := by
  induction h with
  | whole => exact hq
  | first _ _ ih =>
      obtain ⟨s₂, hs₂⟩ := ih
      exact ⟨s₂, by rw [bind_apply, hs₂]⟩
  | second _ heq _ ih =>
      obtain ⟨s₂, hs₂⟩ := ih
      exact ⟨s₂, by rw [bind_apply, heq, ← hs₂]⟩
  | rescued _ ih =>
      obtain ⟨s₂, hs₂⟩ := ih
      exact ⟨s₂, by rw [rescue, hs₂]⟩
  | @skipping _ _ _ s₁ _ heq _ ih =>
      obtain ⟨s₂, hs₂⟩ := ih
      obtain ⟨_, s₃, hs₃, _⟩ := synchronize_eq_ok s₁
      rw [hs₃] at hs₂
      cases hs₂
  | budgeted _ ih => exact ih

/-- A step that is not spent looks back only where something was taken. -/
theorem Runs.taken_ne_nil (h : Runs previous s' p s) (hp : ¬ IsSpent p s) : s'.taken ≠ [] :=
  fun ht => hp (h.isSpent ⟨s', by rw [previous, ht]⟩)

/-! ## The procedures of the parser -/

theorem Composed.ite {c : Prop} [Decidable c] {p p' : Parse α} (h : Composed p)
    (h' : Composed p') : Composed (if c then p else p') := by
  split <;> assumption

/-- What goes on in one way after a token it accepts, and in another without it. -/
theorem Composed.accepting {wanted : TokenKind → Bool} {f : Option Token → Parse α}
    (hsome : ∀ t, Composed (f (some t))) (hnone : Composed (f none)) :
    Composed (Parse.acceptIf wanted >>= f) := by
  refine .bind (.acceptIf wanted) fun t => ?_
  cases t with
  | none => exact hnone
  | some t => exact hsome t

theorem composed_expect (kind : TokenKind) (message : String) : Composed (expect kind message) := by
  rw [expect_eq]
  exact .accepting (fun t => .pure t) (.unexpected message)

theorem composed_checkCount (count : Nat) (what : String) : Composed (checkCount count what) :=
  .ite (.bind .current fun t => .record (.tooMany t what)) (.pure ())

theorem composed_assignTo (target : Expr Unit) (equals : Token) (value : Expr Unit) :
    Composed (assignTo target equals value) := by
  cases target with
  | var | get => exact .pure _
  | _ => exact .bind (.record _) fun _ => .pure _

/-- The procedures for expressions with a budget of `n`. -/
structure ExpressionsComposed (n : Nat) : Prop where
  assignment : Composed (assignment n)
  chain : ∀ level, Composed (chain n level)
  chainRest : ∀ level left, Composed (chainRest n level left)
  operand : ∀ level, Composed (operand n level)
  conditional : Composed (conditional n)
  unary : Composed (unary n)
  callRest : ∀ left, Composed (callRest n left)
  items : ∀ closing, Composed (items n closing)
  itemsFrom : ∀ count, Composed (itemsFrom n count)
  primary : Composed (primary n)

theorem composed_primary {n : Nat} (ih : ExpressionsComposed n) : Composed (primary (n + 1)) := by
  rw [primary]
  refine .bind .current fun t => ?_
  split
  case h_8 =>
    exact .bind (.acceptIf _) fun _ => .bind (composed_expect _ _) fun _ =>
      .bind (composed_expect _ _) fun _ => .pure _
  case h_9 =>
    exact .bind (.acceptIf _) fun _ => .bind ih.assignment fun _ =>
      .bind (composed_expect _ _) fun _ => .pure _
  case h_10 =>
    exact .bind (.acceptIf _) fun _ => .bind (ih.items _) fun _ =>
      .bind (composed_expect _ _) fun _ => .pure _
  case h_11 => exact .unexpected _
  all_goals exact .bind (.acceptIf _) fun _ => .pure _

theorem expressionsComposed (n : Nat) : ExpressionsComposed n := by
  induction n with
  | zero => constructor <;> intros <;> exact .spent
  | succ n ih =>
      refine ⟨?_, ?_, ?_, ?_, ?_, ?_, ?_, ?_, ?_, composed_primary ih⟩
      · rw [assignment]
        exact .bind (ih.chain _) fun target => .accepting
          (fun equals => .bind ih.assignment fun value => composed_assignTo target equals value)
          (.pure target)
      · intro level
        rw [chain]
        exact .bind (ih.operand level) fun left => ih.chainRest level left
      · intro level left
        rw [chainRest]
        exact .accepting (fun operator => .bind (ih.operand level) fun right =>
          ih.chainRest level (level.node left operator right)) (.pure left)
      · intro level
        cases level with
        | or => exact ih.chain .and
        | and => exact ih.conditional
        | equality => exact ih.chain .comparison
        | comparison => exact ih.chain .term
        | term => exact ih.chain .factor
        | factor => exact ih.unary
      · rw [conditional]
        exact .bind (ih.chain _) fun condition => .accepting
          (fun _ => .bind ih.conditional fun _ => .bind (composed_expect _ _) fun _ =>
            .bind ih.conditional fun _ => .pure _)
          (.pure condition)
      · rw [unary]
        exact .accepting (fun _ => .bind ih.unary fun _ => .pure _)
          (.bind ih.primary fun callee => ih.callRest callee)
      · intro left
        rw [callRest]
        refine .accepting (fun _ => ?_) (.accepting (fun _ => ?_) (.pure left))
        · exact .bind (ih.items _) fun arguments => .bind (composed_expect _ _) fun paren =>
            ih.callRest (.call left paren arguments)
        · exact .bind (composed_expect _ _) fun name => ih.callRest (.get left name)
      · intro closing
        rw [items]
        exact .bind (.check _) fun _ => .ite (.pure []) (ih.itemsFrom 0)
      · intro count
        rw [itemsFrom]
        exact .bind (composed_checkCount _ _) fun _ => .bind ih.assignment fun item =>
          .accepting (fun _ => .bind (ih.itemsFrom (count + 1)) fun _ => .pure _) (.pure [item])

theorem composed_expression : Composed expression :=
  .budgeted 32 fun n => (expressionsComposed n).assignment

theorem composed_paramsFrom (n count : Nat) : Composed (paramsFrom n count) := by
  induction n generalizing count with
  | zero => exact .spent
  | succ n ih =>
      rw [paramsFrom]
      exact .bind (composed_checkCount _ _) fun _ => .bind (composed_expect _ _) fun param =>
        .accepting (fun _ => .bind (ih (count + 1)) fun _ => .pure _) (.pure [param])

theorem composed_params : Composed params :=
  .bind (.check _) fun _ => .ite (.pure []) (.budgeted 1 fun n => composed_paramsFrom (n + 1) 0)

theorem composed_initializer : Composed initializer :=
  .accepting (fun _ => .bind composed_expression fun _ => .pure _) (.pure none)

theorem composed_varDecl : Composed varDecl :=
  .bind (composed_expect _ _) fun _ => .bind composed_initializer fun _ =>
    .bind (composed_expect _ _) fun _ => .pure _

theorem composed_expressionStatement : Composed expressionStatement :=
  .bind composed_expression fun _ => .bind (composed_expect _ _) fun _ => .pure _

theorem composed_printStatement : Composed printStatement :=
  .bind composed_expression fun _ => .bind (composed_expect _ _) fun _ => .pure _

theorem composed_expressionUnless (kind : TokenKind) : Composed (expressionUnless kind) :=
  .bind (.check _) fun _ => .ite (.pure none) (.bind composed_expression fun _ => .pure _)

theorem composed_returnStatement : Composed returnStatement :=
  .bind .previous fun _ => .bind (composed_expressionUnless _) fun _ =>
    .bind (composed_expect _ _) fun _ => .pure _

theorem composed_condition (before after : String) : Composed (condition before after) :=
  .bind (composed_expect _ _) fun _ => .bind composed_expression fun _ =>
    .bind (composed_expect _ _) fun _ => .pure _

theorem composed_forInitializer : Composed forInitializer :=
  .accepting (fun _ => .pure none) <| .accepting
    (fun _ => .bind composed_varDecl fun _ => .pure _)
    (.bind composed_expressionStatement fun _ => .pure _)

theorem composed_forClauses : Composed forClauses :=
  .bind (composed_expect _ _) fun _ => .bind composed_forInitializer fun _ =>
    .bind (composed_expressionUnless _) fun _ => .bind (composed_expect _ _) fun _ =>
    .bind (composed_expressionUnless _) fun _ => .bind (composed_expect _ _) fun _ => .pure _

theorem composed_superclass : Composed superclass :=
  .accepting (fun _ => .bind (composed_expect _ _) fun _ => .pure _) (.pure none)

/-- The procedures for statements with a budget of `n`. -/
structure StatementsComposed (n : Nat) : Prop where
  declaration : Composed (declaration n)
  classDecl : Composed (classDecl n)
  methods : Composed (methods n)
  function : ∀ what, Composed (function n what)
  blockBody : Composed (blockBody n)
  declarations : Composed (declarations n)
  statement : Composed (statement n)
  ifStatement : Composed (ifStatement n)

theorem composed_statement {n : Nat} (ih : StatementsComposed n) :
    Composed (statement (n + 1)) := by
  rw [statement]
  refine .bind .current fun t => ?_
  split
  · exact .bind (.acceptIf _) fun _ => composed_printStatement
  · exact .bind (.acceptIf _) fun _ => .bind ih.blockBody fun _ => .pure _
  · exact .bind (.acceptIf _) fun _ => ih.ifStatement
  · exact .bind (.acceptIf _) fun _ => .bind (composed_condition _ _) fun _ =>
      .bind ih.statement fun _ => .pure _
  · exact .bind (.acceptIf _) fun _ => .bind .previous fun word =>
      .bind composed_forClauses fun _ => .bind ih.statement fun _ =>
        .bind (.note (.desugared word.line)) fun _ => .pure _
  · exact .bind (.acceptIf _) fun _ => composed_returnStatement
  · exact .unexpected _
  · exact composed_expressionStatement

theorem statementsComposed (n : Nat) : StatementsComposed n := by
  induction n with
  | zero => constructor <;> intros <;> exact .spent
  | succ n ih =>
      refine ⟨?_, ?_, ?_, ?_, ?_, ?_, composed_statement ih, ?_⟩
      · rw [declaration]
        exact .rescue <| .accepting (fun _ => ih.classDecl) <|
          .accepting (fun _ => .bind (ih.function _) fun _ => .pure _) <|
          .accepting (fun _ => composed_varDecl) ih.statement
      · rw [classDecl]
        exact .bind (composed_expect _ _) fun _ => .bind composed_superclass fun _ =>
          .bind (composed_expect _ _) fun _ => .bind ih.methods fun _ =>
          .bind (composed_expect _ _) fun _ => .pure _
      · rw [methods]
        exact .bind (.check _) fun _ => .bind .atEnd fun _ =>
          .ite (.pure []) (.bind (ih.function _) fun _ => .bind ih.methods fun _ => .pure _)
      · intro what
        rw [function]
        exact .bind (composed_expect _ _) fun _ => .bind (composed_expect _ _) fun _ =>
          .bind composed_params fun _ => .bind (composed_expect _ _) fun _ =>
          .bind (composed_expect _ _) fun _ => .bind ih.blockBody fun _ => .pure _
      · rw [blockBody]
        exact .bind ih.declarations fun _ => .bind (composed_expect _ _) fun _ => .pure _
      · rw [declarations]
        exact .bind (.check _) fun _ => .bind .atEnd fun _ =>
          .ite (.pure []) (.bind ih.declaration fun _ => .bind ih.declarations fun _ => .pure _)
      · rw [ifStatement]
        exact .bind (composed_condition _ _) fun _ => .bind ih.statement fun _ =>
          .accepting (fun _ => .bind ih.statement fun _ => .pure _) (.pure _)

theorem composed_topDeclaration : Composed topDeclaration :=
  .budgeted 8 fun n => (statementsComposed n).declaration

theorem composed_importPath : Composed importPath :=
  .bind (composed_expect _ _) fun _ => .bind (composed_expect _ _) fun _ => .pure _

end Parse
end Lox
