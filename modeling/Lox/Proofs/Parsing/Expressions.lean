import Lox.Proofs.Parsing.Steps

/-!
# What the expression parser accepts is an expression

One contract for each procedure, all proved together along the budget. A loop such
as `chainRest` is given a tree that was read before it was called, so its contract
is about whatever tokens that tree stands for: they may be extended by those the
loop takes.

The left side of `=` is the one place where the parser and the grammar differ in
shape. The parser reads any expression there and looks at the tree afterwards; that
a tree that can be assigned to was written as one is `Level.call`.
-/

namespace Lox
namespace Grammar

/-- Can a value be assigned to this expression? -/
def IsTarget : Expr Unit → Prop
  | .var .. | .get .. => True
  | _ => False

mutual

/-- An expression that can be assigned to has no operator around it. -/
theorem Level.call_of_target {level : Chain} {ts : List Token} {e : Expr Unit}
    (h : Level level ts e) (ht : IsTarget e) : Call ts e := by
  match h with
  | .operand h => exact h.call_of_target ht
  | .step _ _ _ => cases level <;> exact ht.elim

theorem Operand.call_of_target {level : Chain} {ts : List Token} {e : Expr Unit}
    (h : Operand level ts e) (ht : IsTarget e) : Call ts e := by
  match h with
  | .or h => exact h.call_of_target ht
  | .and h => exact h.call_of_target ht
  | .equality h => exact h.call_of_target ht
  | .comparison h => exact h.call_of_target ht
  | .term h => exact h.call_of_target ht
  | .factor h => exact h.call_of_target ht

theorem Conditional.call_of_target {ts : List Token} {e : Expr Unit} (h : Conditional ts e)
    (ht : IsTarget e) : Call ts e := by
  match h with
  | .plain h => exact h.call_of_target ht
  | .choice .. => exact ht.elim

theorem Unary.call_of_target {ts : List Token} {e : Expr Unit} (h : Unary ts e)
    (ht : IsTarget e) : Call ts e := by
  match h with
  | .operator .. => exact ht.elim
  | .call h => exact h

end

theorem Call.var_inv {ts : List Token} {name : Token} (h : Call ts (.var name ())) :
    ts = [name] ∧ name.kind = .identifier := by
  cases h with
  | primary h =>
      cases h with
      | identifier hk => exact ⟨rfl, hk⟩

theorem Call.get_inv {ts : List Token} {object : Expr Unit} {name : Token}
    (h : Call ts (.get object name)) :
    ∃ us dot, ts = us ++ [dot, name] ∧ Call us object ∧ dot.kind = .dot ∧
      name.kind = .identifier := by
  cases h with
  | primary h => cases h
  | property ho hd hn => exact ⟨_, _, rfl, ho, hd, hn⟩

end Grammar

namespace Parse

open Grammar ParseState

/-- How many calls a level is away from the procedure that takes a token. -/
def rank : Chain → Nat
  | .or => 15
  | .and => 13
  | .equality => 10
  | .comparison => 8
  | .term => 6
  | .factor => 4

theorem rank_bounds (level : Chain) : 4 ≤ rank level ∧ rank level ≤ 15 := by
  cases level <;> decide

/-- What the expression procedures do with a budget of `n`. -/
structure ExpressionReads (n : Nat) : Prop where
  assignment : ∀ s : ParseState, s.finish.kind = .eof →
    ReadsAt (32 * s.ahead.length + 16 ≤ n) 0 (fun ts _ e => Assignment ts e) s (assignment n)
  chain : ∀ level (s : ParseState), s.finish.kind = .eof →
    ReadsAt (32 * s.ahead.length + rank level ≤ n) 0 (fun ts _ e => Level level ts e) s
      (chain n level)
  chainRest : ∀ level left (s : ParseState), s.finish.kind = .eof →
    ReadsAt (32 * s.ahead.length + 1 ≤ n) 0
      (fun ts _ e => ∀ us, Level level us left → Level level (us ++ ts) e) s
      (chainRest n level left)
  operand : ∀ level (s : ParseState), s.finish.kind = .eof →
    ReadsAt (32 * s.ahead.length + rank level ≤ n + 1) 0 (fun ts _ e => Operand level ts e) s
      (operand n level)
  conditional : ∀ s : ParseState, s.finish.kind = .eof →
    ReadsAt (32 * s.ahead.length + 11 ≤ n) 0 (fun ts _ e => Conditional ts e) s (conditional n)
  unary : ∀ s : ParseState, s.finish.kind = .eof →
    ReadsAt (32 * s.ahead.length + 2 ≤ n) 0 (fun ts _ e => Unary ts e) s (unary n)
  callRest : ∀ left (s : ParseState), s.finish.kind = .eof →
    ReadsAt (32 * s.ahead.length + 1 ≤ n) 0
      (fun ts _ e => ∀ us, Call us left → Call (us ++ ts) e) s (callRest n left)
  items : ∀ closing (s : ParseState), s.finish.kind = .eof →
    ReadsAt (32 * s.ahead.length + 18 ≤ n) 0 (fun ts _ es => Grammar.Arguments ts es) s
      (items n closing)
  itemsFrom : ∀ count (s : ParseState), s.finish.kind = .eof →
    ReadsAt (32 * s.ahead.length + 17 ≤ n) 0
      (fun ts _ es => Items ts es ∧ count + es.length ≤ maxArguments) s (itemsFrom n count)
  primary : ∀ s : ParseState, s.finish.kind = .eof →
    ReadsAt (32 * s.ahead.length + 1 ≤ n) 0 (fun ts _ e => Primary ts e) s (primary n)

variable {n : Nat} {s : ParseState}

theorem assignTo_reads {enough : Prop} {target value : Expr Unit} {equals : Token}
    (hk : equals.kind = .equal) :
    ReadsAt enough 0 (fun us _ e => us = [] ∧ ∀ ts vs, Level .or ts target →
      Assignment vs value → Assignment (ts ++ equals :: vs) e) s
      (assignTo target equals value) := by
  match target with
  | .var name _ =>
      refine readsAt_pure ⟨rfl, fun ts vs ht hv => ?_⟩
      obtain ⟨rfl, hn⟩ := (ht.call_of_target trivial).var_inv
      exact .var hn hk hv
  | .get object name =>
      refine readsAt_pure ⟨rfl, fun ts vs ht hv => ?_⟩
      obtain ⟨us, dot, rfl, ho, hd, hn⟩ := (ht.call_of_target trivial).get_inv
      have := Assignment.property ho hd hn hk hv
      simpa using this
  | .literal _ | .unary .. | .binary .. | .logical .. | .conditional .. | .grouping _
  | .assign .. | .call .. | .set .. | .thisRef .. | .superRef .. | .vector .. =>
      exact readsAt_record_bind (readsAt_pure trivial)

theorem assignment_reads (ih : ExpressionReads n) (hs : s.finish.kind = .eof) :
    ReadsAt (32 * s.ahead.length + 16 ≤ n + 1) 0 (fun ts _ e => Assignment ts e) s
      (assignment (n + 1)) := by
  rw [assignment]
  refine (ih.chain .or s hs).bind (by simp only [rank]; omega) fun target s' ts hm _ => ?_
  have hlen := hm.length
  have hs' : s'.finish.kind = .eof := hm.finish ▸ hs
  refine readsAt_accept_bind (fun equals rest ha hk => ?_) (fun _ => ?_)
  · have hadv := length_advance ha
    refine (ih.assignment s'.advance hs').bind (by omega) fun value s'' us hm' _ => ?_
    refine (assignTo_reads hk).weaken id (Nat.le_refl _) fun vs rest' e _ h hv ht => ?_
    obtain ⟨rfl, h⟩ := h
    simpa using h ts us ht hv
  · exact readsAt_pure fun ht => by simpa using Assignment.level ht

theorem chain_reads (ih : ExpressionReads n) (level : Chain) (hs : s.finish.kind = .eof) :
    ReadsAt (32 * s.ahead.length + rank level ≤ n + 1) 0 (fun ts _ e => Level level ts e) s
      (chain (n + 1) level) := by
  have hrank := rank_bounds level
  rw [chain]
  refine (ih.operand level s hs).bind id fun left s' ts hm _ => ?_
  have hlen := hm.length
  exact (ih.chainRest level left s' (hm.finish ▸ hs)).weaken (by omega) (Nat.le_refl _)
    fun us rest e _ h hl => h ts (.operand hl)

theorem chainRest_reads (ih : ExpressionReads n) (level : Chain) (left : Expr Unit)
    (hs : s.finish.kind = .eof) :
    ReadsAt (32 * s.ahead.length + 1 ≤ n + 1) 0
      (fun ts _ e => ∀ us, Level level us left → Level level (us ++ ts) e) s
      (chainRest (n + 1) level left) := by
  have hrank := rank_bounds level
  rw [chainRest]
  refine readsAt_acceptIf_bind (fun operator rest ha hk => ?_) (fun _ => ?_)
  · have hadv := length_advance ha
    refine (ih.operand level s.advance hs).bind (by omega) fun right s' ts hm _ => ?_
    have hlen := hm.length
    refine (ih.chainRest level _ s' (hm.finish ▸ hs)).weaken (by omega) (Nat.le_refl _)
      fun us rest' e _ h hr vs hl => ?_
    simpa using h (vs ++ operator :: ts) (.step hl hk hr)
  · exact readsAt_pure fun us hl => by simpa using hl

theorem operand_reads (ih : ExpressionReads n) (level : Chain) (hs : s.finish.kind = .eof) :
    ReadsAt (32 * s.ahead.length + rank level ≤ n + 1 + 1) 0
      (fun ts _ e => Operand level ts e) s (operand (n + 1) level) := by
  cases level with
  | or =>
      exact (ih.chain .and s hs).weaken (by simp only [rank]; omega) (Nat.le_refl _)
        fun _ _ _ _ h => .or h
  | and =>
      exact (ih.conditional s hs).weaken (by simp only [rank]; omega) (Nat.le_refl _)
        fun _ _ _ _ h => .and h
  | equality =>
      exact (ih.chain .comparison s hs).weaken (by simp only [rank]; omega) (Nat.le_refl _)
        fun _ _ _ _ h => .equality h
  | comparison =>
      exact (ih.chain .term s hs).weaken (by simp only [rank]; omega) (Nat.le_refl _)
        fun _ _ _ _ h => .comparison h
  | term =>
      exact (ih.chain .factor s hs).weaken (by simp only [rank]; omega) (Nat.le_refl _)
        fun _ _ _ _ h => .term h
  | factor =>
      exact (ih.unary s hs).weaken (by simp only [rank]; omega) (Nat.le_refl _)
        fun _ _ _ _ h => .factor h

theorem conditional_reads (ih : ExpressionReads n) (hs : s.finish.kind = .eof) :
    ReadsAt (32 * s.ahead.length + 11 ≤ n + 1) 0 (fun ts _ e => Conditional ts e) s
      (conditional (n + 1)) := by
  rw [conditional]
  refine (ih.chain .equality s hs).bind (by simp only [rank]; omega) fun c s' ts hm _ => ?_
  have hlen := hm.length
  have hs' : s'.finish.kind = .eof := hm.finish ▸ hs
  refine readsAt_accept_bind (fun question rest ha hq => ?_) (fun _ => ?_)
  · have hadv := length_advance ha
    refine (ih.conditional s'.advance hs').bind (by omega) fun a s₁ us hm₁ _ => ?_
    have hlen₁ := hm₁.length
    have hs₁ : s₁.finish.kind = .eof := hm₁.finish ▸ hs'
    refine readsAt_expect_bind fun colon rest' ha' hc => ?_
    have hadv' := length_advance ha'
    refine (ih.conditional s₁.advance hs₁).bind (by omega) fun b s₂ vs hm₂ _ => ?_
    exact readsAt_pure fun hb ha hl => by simpa using Conditional.choice hl hq ha hc hb
  · exact readsAt_pure fun hl => by simpa using Conditional.plain hl

theorem unary_reads (ih : ExpressionReads n) (hs : s.finish.kind = .eof) :
    ReadsAt (32 * s.ahead.length + 2 ≤ n + 1) 0 (fun ts _ e => Unary ts e) s
      (unary (n + 1)) := by
  rw [unary]
  refine readsAt_acceptIf_bind (fun operator rest ha hk => ?_) (fun _ => ?_)
  · have hadv := length_advance ha
    refine (ih.unary s.advance hs).bind (by omega) fun e s' ts hm _ => ?_
    exact readsAt_pure fun h => by simpa using Unary.operator (by simpa using hk) h
  · refine (ih.primary s hs).bind (by omega) fun e s' ts hm _ => ?_
    have hlen := hm.length
    exact (ih.callRest e s' (hm.finish ▸ hs)).weaken (by omega) (Nat.le_refl _)
      fun us rest e' _ h hp => .call (h ts (.primary hp))

theorem callRest_reads (ih : ExpressionReads n) (left : Expr Unit) (hs : s.finish.kind = .eof) :
    ReadsAt (32 * s.ahead.length + 1 ≤ n + 1) 0
      (fun ts _ e => ∀ us, Call us left → Call (us ++ ts) e) s (callRest (n + 1) left) := by
  rw [callRest]
  refine readsAt_accept_bind (fun before rest ha hb => ?_) (fun _ => ?_)
  · have hadv := length_advance ha
    refine (ih.items .rightParen s.advance hs).bind (by omega) fun arguments s' ts hm _ => ?_
    have hlen := hm.length
    have hs' : s'.finish.kind = .eof := hm.finish ▸ hs
    refine readsAt_expect_bind fun paren rest' ha' hp => ?_
    have hadv' := length_advance ha'
    refine (ih.callRest (.call left paren arguments) s'.advance hs').weaken (by omega)
      (Nat.le_refl _) fun us rest'' e _ h hargs vs hl => ?_
    simpa using h (vs ++ before :: ts ++ [paren]) (.call hl hb hargs hp)
  · refine readsAt_accept_bind (fun dot rest ha hd => ?_) (fun _ => ?_)
    · have hadv := length_advance ha
      refine readsAt_expect_bind fun name rest' ha' hn => ?_
      have hadv' := length_advance ha'
      refine (ih.callRest (.get left name) s.advance.advance hs).weaken (by omega)
        (Nat.le_refl _) fun us rest'' e _ h vs hl => ?_
      simpa using h (vs ++ [dot, name]) (.property hl hd hn)
    · exact readsAt_pure fun us hl => by simpa using hl

theorem items_reads (ih : ExpressionReads n) (closing : TokenKind) (hs : s.finish.kind = .eof) :
    ReadsAt (32 * s.ahead.length + 18 ≤ n + 1) 0 (fun ts _ es => Grammar.Arguments ts es) s
      (items (n + 1) closing) := by
  rw [items]
  refine readsAt_check_bind ?_
  split
  · exact readsAt_pure .none
  · exact (ih.itemsFrom 0 s hs).weaken (by omega) (Nat.le_refl _)
      fun ts rest es _ h => .some h.1 (by omega)

theorem checkCount_reads {enough : Prop} {α : Type} {k count : Nat} {what : String}
    {D : List Token → List Token → α → Prop} {f : Unit → Parse α}
    (h : ∀ s' : ParseState, s'.ahead = s.ahead → s'.finish = s.finish →
      ReadsAt enough k (fun ts rest a => count < maxArguments → D ts rest a) s' (f ())) :
    ReadsAt enough k D s (checkCount count what >>= f) := by
  rw [checkCount]
  split
  · show ReadsAt enough k D s (record (.tooMany s.current what) >>= f)
    exact readsAt_record_bind ((h (s.record (.tooMany s.current what)) rfl rfl).weaken id
      (Nat.le_refl _) fun _ _ _ _ _ => trivial)
  · next hc => exact (h s rfl rfl).weaken id (Nat.le_refl _) fun _ _ _ _ h => h (by omega)

theorem itemsFrom_reads (ih : ExpressionReads n) (count : Nat) (hs : s.finish.kind = .eof) :
    ReadsAt (32 * s.ahead.length + 17 ≤ n + 1) 0
      (fun ts _ es => Items ts es ∧ count + es.length ≤ maxArguments) s
      (itemsFrom (n + 1) count) := by
  rw [itemsFrom]
  refine checkCount_reads fun s₀ ha₀ hf₀ => ?_
  rw [← ha₀]
  have hs₀ : s₀.finish.kind = .eof := hf₀ ▸ hs
  refine (ih.assignment s₀ hs₀).bind (by omega) fun e s' ts hm _ => ?_
  have hlen := hm.length
  have hs' : s'.finish.kind = .eof := hm.finish ▸ hs₀
  refine readsAt_accept_bind (fun comma rest ha hk => ?_) (fun _ => ?_)
  · have hadv := length_advance ha
    refine (ih.itemsFrom (count + 1) s'.advance hs').bind (by omega) fun es s'' us hm' _ => ?_
    refine readsAt_pure fun h he _ => ⟨?_, ?_⟩
    · simpa using Items.more he hk h.1
    · have := h.2
      simp only [List.length_cons]
      omega
  · refine readsAt_pure fun he hc => ⟨by simpa using Items.last he, ?_⟩
    simp only [List.length_cons, List.length_nil]
    omega

theorem primary_reads (ih : ExpressionReads n) (hs : s.finish.kind = .eof) :
    ReadsAt (32 * s.ahead.length + 1 ≤ n + 1) 0 (fun ts _ e => Primary ts e) s
      (primary (n + 1)) := by
  rw [primary]
  refine readsAt_current_bind (fun _ => ?_) (fun t rest ha => ?_)
  · rw [hs]
    exact readsAt_unexpected
  have hadv := length_advance ha
  split
  case h_1 hk => exact readsAt_accept_of_head ha hk (readsAt_pure (.false hk))
  case h_2 hk => exact readsAt_accept_of_head ha hk (readsAt_pure (.true hk))
  case h_3 hk => exact readsAt_accept_of_head ha hk (readsAt_pure (.nil hk))
  case h_4 hk => exact readsAt_accept_of_head ha hk (readsAt_pure (.number hk))
  case h_5 hk => exact readsAt_accept_of_head ha hk (readsAt_pure (.string hk))
  case h_6 hk => exact readsAt_accept_of_head ha hk (readsAt_pure (.identifier hk))
  case h_7 hk => exact readsAt_accept_of_head ha hk (readsAt_pure (.this hk))
  case h_8 hk =>
    refine readsAt_accept_of_head ha hk ?_
    refine readsAt_expect_bind fun dot rest₁ ha₁ hd => ?_
    refine readsAt_expect_bind fun method rest₂ ha₂ hm => ?_
    exact readsAt_pure (.super hk hd hm)
  case h_9 hk =>
    refine readsAt_accept_of_head ha hk ?_
    refine (ih.assignment s.advance hs).bind (by omega) fun inner s' ts hm _ => ?_
    refine readsAt_expect_bind fun after rest' ha' hk' => ?_
    exact readsAt_pure fun he => by simpa using Primary.grouping hk he hk'
  case h_10 hk =>
    refine readsAt_accept_of_head ha hk ?_
    refine (ih.items .rightBracket s.advance hs).bind (by omega) fun elements s' ts hm _ => ?_
    refine readsAt_expect_bind fun after rest' ha' hk' => ?_
    exact readsAt_pure fun he => by simpa using Primary.vector hk he hk'
  case h_11 => exact readsAt_unexpected

/-- Every expression procedure keeps its contract, whatever the budget. -/
theorem expressionReads (n : Nat) : ExpressionReads n := by
  induction n with
  | zero =>
      have hrank := rank_bounds
      constructor <;> intros <;> refine readsAt_of_not_enough ?_ <;> grind
  | succ n ih =>
      exact
        { assignment := fun _ hs => assignment_reads ih hs
          chain := fun level _ hs => chain_reads ih level hs
          chainRest := fun level left _ hs => chainRest_reads ih level left hs
          operand := fun level _ hs => operand_reads ih level hs
          conditional := fun _ hs => conditional_reads ih hs
          unary := fun _ hs => unary_reads ih hs
          callRest := fun left _ hs => callRest_reads ih left hs
          items := fun closing _ hs => items_reads ih closing hs
          itemsFrom := fun count _ hs => itemsFrom_reads ih count hs
          primary := fun _ hs => primary_reads ih hs }

/-- The budget of an expression always suffices. -/
theorem expression_reads (s : ParseState) (hs : s.finish.kind = .eof) :
    ReadsAt True 0 (fun ts _ e => Assignment ts e) s expression := by
  rw [expression]
  refine readsAt_budgeted (((expressionReads _).assignment s hs).weaken (fun _ => ?_)
    (Nat.le_refl _) fun _ _ _ _ h => h)
  omega

end Parse
end Lox
