import Lox.Proofs.Parsing.Leads
import Lox.Proofs.Parsing.Expressions

/-!
# What the grammar derives as an expression, the parser accepts

Each derivation is followed through the procedures. A phrase is only read to its
end if the token behind it does not belong to it, and how much a token wants to
belong is a number, its pull: that of an operator grows with how tightly it binds,
and tokens that end every phrase have none. A procedure reads exactly the phrase if
the pull of what follows is below what the procedure watches for.
-/

namespace Lox

/-- How strongly a token is drawn to the expression in front of it. -/
def TokenKind.pull : TokenKind → Nat
  | .leftParen | .dot => 9
  | .star | .slash => 8
  | .minus | .plus => 7
  | .greater | .greaterEqual | .less | .lessEqual => 6
  | .equalEqual | .bangEqual => 5
  | .question => 4
  | .andWord => 3
  | .orWord => 2
  | .equal => 1
  | _ => 0

/-- The pull of the operators of a level. -/
def Chain.pull : Chain → Nat
  | .or => 2
  | .and => 3
  | .equality => 5
  | .comparison => 6
  | .term => 7
  | .factor => 8

theorem Chain.pull_of_operators {level : Chain} {kind : TokenKind}
    (h : level.operators kind = true) : kind.pull = level.pull := by
  revert h
  cases level <;> cases kind <;> decide

/-- Can an expression begin with a token of this kind? -/
def TokenKind.beginsPrimary : TokenKind → Bool
  | .number | .string | .trueWord | .falseWord | .nilWord | .thisWord | .identifier
  | .leftParen | .superWord | .leftBracket => true
  | _ => false

def TokenKind.beginsExpression (kind : TokenKind) : Bool :=
  kind.beginsPrimary || kind == .bang || kind == .minus

namespace Grammar

/-- The first of some tokens has a kind of this sort. -/
def Begins (sort : TokenKind → Bool) (ts : List Token) : Prop :=
  ∃ t us, ts = t :: us ∧ sort t.kind = true

theorem Begins.append {sort : TokenKind → Bool} {ts : List Token} (h : Begins sort ts)
    (us : List Token) : Begins sort (ts ++ us) := by
  obtain ⟨t, vs, rfl, ht⟩ := h
  exact ⟨t, vs ++ us, rfl, ht⟩

theorem Begins.headKind {sort : TokenKind → Bool} {ts : List Token} (h : Begins sort ts)
    (us : List Token) : sort (headKind (ts ++ us)) = true := by
  obtain ⟨t, vs, rfl, ht⟩ := h
  exact ht

theorem Primary.begins {ts : List Token} {e : Expr Unit} (h : Primary ts e) :
    Begins TokenKind.beginsPrimary ts := by
  cases h <;> exact ⟨_, _, rfl, by simp [*, TokenKind.beginsPrimary]⟩

theorem Call.begins {ts : List Token} {e : Expr Unit} (h : Call ts e) :
    Begins TokenKind.beginsPrimary ts := by
  cases h with
  | primary h => exact h.begins
  | call h _ _ _ => exact (h.begins.append _).append _
  | property h _ _ => exact h.begins.append _

theorem Unary.begins {ts : List Token} {e : Expr Unit} (h : Unary ts e) :
    Begins TokenKind.beginsExpression ts := by
  cases h with
  | operator hk _ => exact ⟨_, _, rfl, by rcases hk with hk | hk <;> rw [hk] <;> rfl⟩
  | call h =>
      obtain ⟨t, us, rfl, ht⟩ := h.begins
      exact ⟨t, us, rfl, by simp [TokenKind.beginsExpression, ht]⟩

mutual

theorem Level.begins {level : Chain} {ts : List Token} {e : Expr Unit} (h : Level level ts e) :
    Begins TokenKind.beginsExpression ts := by
  match h with
  | .operand h => exact h.begins
  | .step h _ _ => exact h.begins.append _

theorem Operand.begins {level : Chain} {ts : List Token} {e : Expr Unit}
    (h : Operand level ts e) : Begins TokenKind.beginsExpression ts := by
  match h with
  | .or h => exact h.begins
  | .and h => exact h.begins
  | .equality h => exact h.begins
  | .comparison h => exact h.begins
  | .term h => exact h.begins
  | .factor h => exact h.begins

theorem Conditional.begins {ts : List Token} {e : Expr Unit} (h : Conditional ts e) :
    Begins TokenKind.beginsExpression ts := by
  match h with
  | .plain h => exact h.begins
  | .choice h _ _ _ _ => exact (h.begins.append _).append _

end

theorem Assignment.begins {ts : List Token} {e : Expr Unit} (h : Assignment ts e) :
    Begins TokenKind.beginsExpression ts := by
  cases h with
  | var hn _ _ => exact ⟨_, _, rfl, by rw [hn]; rfl⟩
  | property ho _ _ _ _ =>
      obtain ⟨t, us, rfl, ht⟩ := ho.begins
      exact ⟨t, _, rfl, by simp [TokenKind.beginsExpression, ht]⟩
  | level h => exact h.begins

end Grammar

namespace Parse

open Grammar ParseState

/-- The procedure reads these tokens as this expression wherever they are followed
by less pull than the bound. -/
def Phrase (p : Nat → Parse (Expr Unit)) (bound : Nat) (ts : List Token) (e : Expr Unit) : Prop :=
  ∀ (n : Nat) (s : ParseState) (rest : List Token), s.ahead = ts ++ rest →
    (headKind rest).pull < bound → LeadsTo s (p n) ts (pure e)

/-- A level reads these tokens and is then in its loop with this expression. -/
def LevelPhrase (level : Chain) (ts : List Token) (e : Expr Unit) : Prop :=
  ∀ (n : Nat) (s : ParseState) (rest : List Token), s.ahead = ts ++ rest →
    (headKind rest).pull ≤ level.pull →
      ∃ m, LeadsTo s (chain n level) ts (chainRest m level e)

/-- These tokens are read as a call, after which more of it may come. -/
def CallPhrase (ts : List Token) (e : Expr Unit) : Prop :=
  ∀ (n : Nat) (s : ParseState) (rest : List Token), s.ahead = ts ++ rest →
    ∃ m, LeadsTo s (unary n) ts (callRest m e)

variable {ts : List Token} {e : Expr Unit} {level : Chain}

/-! ## From one level to the next -/

theorem chainRest_leads {n : Nat} {s : ParseState}
    (h : (headKind s.ahead).pull < level.pull) : LeadsTo s (chainRest n level e) [] (pure e) := by
  match n with
  | 0 => exact leadsTo_spent
  | n + 1 =>
      rw [chainRest]
      refine leadsTo_acceptIf_none ?_ leadsTo_refl
      cases hop : level.operators (headKind s.ahead) with
      | false => rfl
      | true => exact absurd (Chain.pull_of_operators hop) (by omega)

theorem callRest_leads {n : Nat} {s : ParseState} (h : (headKind s.ahead).pull < 9) :
    LeadsTo s (callRest n e) [] (pure e) := by
  match n with
  | 0 => exact leadsTo_spent
  | n + 1 =>
      have hparen : headKind s.ahead ≠ .leftParen := fun hk => by simp [hk, TokenKind.pull] at h
      have hdot : headKind s.ahead ≠ .dot := fun hk => by simp [hk, TokenKind.pull] at h
      rw [callRest]
      exact leadsTo_accept_none hparen (leadsTo_accept_none hdot leadsTo_refl)

theorem LevelPhrase.phrase (h : LevelPhrase level ts e) :
    Phrase (fun n => chain n level) level.pull ts e := by
  intro n s rest ha hr
  obtain ⟨m, hm⟩ := h n s rest ha (by omega)
  rw [← List.append_nil ts]
  exact hm.trans fun s' hs' => chainRest_leads (by rwa [hs'.ahead_eq ha])

theorem CallPhrase.phrase (h : CallPhrase ts e) : Phrase unary 9 ts e := by
  intro n s rest ha hr
  obtain ⟨m, hm⟩ := h n s rest ha
  rw [← List.append_nil ts]
  exact hm.trans fun s' hs' => callRest_leads (by rwa [hs'.ahead_eq ha])

/-- What an operand of a level stands for is one call away. -/
theorem Phrase.operand {p : Nat → Parse (Expr Unit)} {bound : Nat} (h : Phrase p bound ts e)
    (level : Chain) (hp : ∀ n, operand (n + 1) level = p n) :
    Phrase (fun n => operand n level) bound ts e := by
  intro n s rest ha hr
  match n with
  | 0 => exact leadsTo_spent
  | n + 1 =>
      simp only [hp]
      exact h n s rest ha hr

theorem Phrase.chain (h : Phrase (fun n => Parse.operand n level) (level.pull + 1) ts e) :
    LevelPhrase level ts e := by
  intro n s rest ha hr
  match n with
  | 0 => exact ⟨0, leadsTo_spent⟩
  | n + 1 =>
      refine ⟨n, ?_⟩
      rw [Parse.chain, ← List.append_nil ts]
      exact (h n s rest ha (by omega)).bind fun s' _ => leadsTo_refl

theorem Phrase.conditional (h : Phrase (fun n => Parse.chain n .equality) 5 ts e) :
    Phrase conditional 4 ts e := by
  intro n s rest ha hr
  match n with
  | 0 => exact leadsTo_spent
  | n + 1 =>
      have hq : headKind rest ≠ .question := fun hk => by simp [hk, TokenKind.pull] at hr
      rw [Parse.conditional, ← List.append_nil ts]
      exact (h n s rest ha (by omega)).bind fun s' hs' =>
        leadsTo_accept_none (by rwa [hs'.ahead_eq ha]) leadsTo_refl

theorem Phrase.assignment (h : Phrase (fun n => Parse.chain n .or) 2 ts e) :
    Phrase assignment 1 ts e := by
  intro n s rest ha hr
  match n with
  | 0 => exact leadsTo_spent
  | n + 1 =>
      have he : headKind rest ≠ .equal := fun hk => by simp [hk, TokenKind.pull] at hr
      rw [Parse.assignment, ← List.append_nil ts]
      exact (h n s rest ha (by omega)).bind fun s' hs' =>
        leadsTo_accept_none (by rwa [hs'.ahead_eq ha]) leadsTo_refl

/-- A call is an expression of the loosest level, unless an operator follows. -/
theorem CallPhrase.or (h : CallPhrase ts e) : Phrase (fun n => Parse.chain n .or) 2 ts e := by
  have hfactor := h.phrase.operand .factor fun _ => rfl
  have hterm := hfactor.chain.phrase.operand .term fun _ => rfl
  have hcomparison := hterm.chain.phrase.operand .comparison fun _ => rfl
  have hequality := hcomparison.chain.phrase.operand .equality fun _ => rfl
  have hand := hequality.chain.phrase.conditional.operand .and fun _ => rfl
  exact (hand.chain.phrase.operand .or fun _ => rfl).chain.phrase

/-! ## The derivations -/

/-- The argument list is read up to a token that closes it. -/
def ItemsPhrase (ts : List Token) (es : List (Expr Unit)) : Prop :=
  ∀ (n : Nat) (s : ParseState) (closing : Token) (rest : List Token),
    s.ahead = ts ++ closing :: rest →
    closing.kind = .rightParen ∨ closing.kind = .rightBracket →
      LeadsTo s (items n closing.kind) ts (pure es)

theorem checkCount_leads {α : Type} {s : ParseState} {count : Nat} {what : String}
    {f : Unit → Parse α} {q : Parse α} (hc : count < maxArguments)
    (h : LeadsTo s (f ()) ts q) : LeadsTo s (checkCount count what >>= f) ts q := by
  rw [checkCount, if_neg (by omega)]
  exact h

theorem CallPhrase.of_primary (hb : Begins TokenKind.beginsPrimary ts)
    (h : ∀ (n : Nat) (s : ParseState) (rest : List Token), s.ahead = ts ++ rest →
      LeadsTo s (primary n) ts (pure e)) : CallPhrase ts e := by
  intro n s rest ha
  match n with
  | 0 => exact ⟨0, leadsTo_spent⟩
  | n + 1 =>
      refine ⟨n, ?_⟩
      have hkind := hb.headKind rest
      rw [← ha] at hkind
      rw [unary]
      refine leadsTo_acceptIf_none ?_ ?_
      · revert hkind
        cases headKind s.ahead <;> decide
      · rw [← List.append_nil ts]
        exact (h n s rest ha).bind fun s' _ => leadsTo_refl

theorem identifier_leads (n : Nat) {s : ParseState} {name : Token} {rest : List Token}
    (hn : name.kind = .identifier) (ha : s.ahead = [name] ++ rest) :
    LeadsTo s (primary n) [name] (pure (.var name ())) := by
  match n with
  | 0 => exact leadsTo_spent
  | n + 1 =>
      rw [primary]
      refine leadsTo_current_bind ha ?_
      simp only [hn]
      exact leadsTo_accept_bind ha hn leadsTo_refl

theorem CallPhrase.property {object : Expr Unit} {dot name : Token} (h : CallPhrase ts object)
    (hd : dot.kind = .dot) (hn : name.kind = .identifier) :
    CallPhrase (ts ++ [dot, name]) (.get object name) := by
  intro n s rest ha
  have ha' : s.ahead = ts ++ dot :: name :: rest := by simpa using ha
  obtain ⟨m, hm⟩ := h n s _ ha'
  match m with
  | 0 => exact ⟨0, hm.trans fun s₁ _ => leadsTo_spent⟩
  | m + 1 =>
      refine ⟨m, hm.trans fun s₁ hs₁ => ?_⟩
      have ha₁ := hs₁.ahead_eq ha'
      have hparen : headKind s₁.ahead ≠ .leftParen := by simp [ha₁, headKind, hd]
      rw [callRest]
      refine leadsTo_accept_none hparen (leadsTo_accept_bind ha₁ hd ?_)
      exact leadsTo_expect_bind ((moves_advance ha₁).ahead_eq ha₁) hn leadsTo_refl

end Parse

namespace Grammar

open Parse ParseState

theorem Items.begins {ts : List Token} {es : List (Expr Unit)} (h : Items ts es) :
    Begins TokenKind.beginsExpression ts := by
  cases h with
  | last h => exact h.begins
  | more h _ _ => exact h.begins.append _

/-- What closes a list does not begin an expression. -/
theorem Begins.check_ne {ts rest : List Token} {s : ParseState} {closing : Token}
    (h : Begins TokenKind.beginsExpression ts) (ha : s.ahead = ts ++ closing :: rest)
    (hk : closing.kind = .rightParen ∨ closing.kind = .rightBracket) :
    ¬ (s.ahead.head?.any (·.kind == closing.kind) = true) := by
  obtain ⟨t, us, rfl, ht⟩ := h
  simp only [ha, List.cons_append, List.head?_cons, Option.any_some, beq_iff_eq]
  intro heq
  rw [heq] at ht
  rcases hk with hk | hk <;> rw [hk] at ht <;> exact absurd ht (by decide)

mutual

theorem Assignment.phrase {ts : List Token} {e : Expr Unit} (h : Assignment ts e) :
    Phrase assignment 1 ts e := by
  match h with
  | @Assignment.var name equals us value hn he hv =>
      have hvalue := hv.phrase
      intro n s rest ha hr
      match n with
      | 0 => exact leadsTo_spent
      | n + 1 =>
          have htarget : CallPhrase [name] (.var name ()) :=
            .of_primary (Primary.identifier hn).begins fun n _ _ => identifier_leads n hn
          rw [assignment]
          refine (htarget.or n s (equals :: us ++ rest) ha
            (by simp [headKind, he, TokenKind.pull])).bind fun s₁ hs₁ => ?_
          have ha₁ := hs₁.ahead_eq ha
          refine leadsTo_accept_bind ha₁ he ?_
          rw [← List.append_nil us]
          exact (hvalue n s₁.advance rest ((moves_advance ha₁).ahead_eq ha₁) hr).bind
            fun s₂ _ => leadsTo_refl
  | @Assignment.property us vs dot name equals object value ho hd hn he hv =>
      have hvalue := hv.phrase
      have hobject := ho.loop
      intro n s rest ha hr
      match n with
      | 0 => exact leadsTo_spent
      | n + 1 =>
          have ha' : s.ahead = us ++ [dot, name] ++ equals :: (vs ++ rest) := by simpa using ha
          have hts : us ++ dot :: name :: equals :: vs =
              us ++ [dot, name] ++ equals :: (vs ++ []) := by
            simp
          rw [assignment, hts]
          refine ((hobject.property hd hn).or n s (equals :: (vs ++ rest)) ha'
            (by simp [headKind, he, TokenKind.pull])).bind fun s₁ hs₁ => ?_
          have ha₁ := hs₁.ahead_eq ha'
          refine leadsTo_accept_bind ha₁ he ?_
          exact (hvalue n s₁.advance rest ((moves_advance ha₁).ahead_eq ha₁) hr).bind
            fun s₂ _ => leadsTo_refl
  | .level h => exact h.loop.phrase.assignment

theorem Level.loop {level : Chain} {ts : List Token} {e : Expr Unit} (h : Level level ts e) :
    LevelPhrase level ts e := by
  match h with
  | .operand h => exact h.phrase.chain
  | @Level.step _ us vs operator left right hl hop hr =>
      have hleft := hl.loop
      have hright := hr.phrase
      intro n s rest ha hrest
      have ha' : s.ahead = us ++ operator :: (vs ++ rest) := by simpa using ha
      obtain ⟨m, hm⟩ := hleft n s (operator :: (vs ++ rest)) ha'
        (Nat.le_of_eq (by rw [headKind, Chain.pull_of_operators hop]))
      match m with
      | 0 => exact ⟨0, hm.trans fun s₁ _ => leadsTo_spent⟩
      | m + 1 =>
          refine ⟨m, hm.trans fun s₁ hs₁ => ?_⟩
          have ha₁ := hs₁.ahead_eq ha'
          rw [chainRest]
          refine leadsTo_acceptIf_bind ha₁ hop ?_
          rw [← List.append_nil vs]
          exact (hright m s₁.advance rest ((moves_advance ha₁).ahead_eq ha₁) (by omega)).bind
            fun s₂ _ => leadsTo_refl

theorem Operand.phrase {level : Chain} {ts : List Token} {e : Expr Unit}
    (h : Operand level ts e) : Phrase (fun n => Parse.operand n level) (level.pull + 1) ts e := by
  match h with
  | .or h => exact h.loop.phrase.operand .or fun _ => rfl
  | .and h => exact h.phrase.operand .and fun _ => rfl
  | .equality h => exact h.loop.phrase.operand .equality fun _ => rfl
  | .comparison h => exact h.loop.phrase.operand .comparison fun _ => rfl
  | .term h => exact h.loop.phrase.operand .term fun _ => rfl
  | .factor h => exact h.phrase.operand .factor fun _ => rfl

theorem Conditional.phrase {ts : List Token} {e : Expr Unit} (h : Conditional ts e) :
    Phrase conditional 4 ts e := by
  match h with
  | .plain h => exact h.loop.phrase.conditional
  | @Conditional.choice us vs ws question colon c a b hc hq hthen hk helse =>
      have hcondition := hc.loop.phrase
      have hthen := hthen.phrase
      have helse := helse.phrase
      intro n s rest ha hr
      match n with
      | 0 => exact leadsTo_spent
      | n + 1 =>
          have ha' : s.ahead = us ++ question :: (vs ++ colon :: (ws ++ rest)) := by simpa using ha
          have hts : us ++ question :: vs ++ colon :: ws =
              us ++ question :: (vs ++ colon :: (ws ++ [])) := by simp
          rw [conditional, hts]
          refine (hcondition n s _ ha' (by simp [headKind, hq, TokenKind.pull, Chain.pull])).bind
            fun s₁ hs₁ => ?_
          have ha₁ := hs₁.ahead_eq ha'
          refine leadsTo_accept_bind ha₁ hq ?_
          refine (hthen n s₁.advance _ ((moves_advance ha₁).ahead_eq ha₁)
            (by simp [headKind, hk, TokenKind.pull])).bind fun s₂ hs₂ => ?_
          have ha₂ := hs₂.ahead_eq ((moves_advance ha₁).ahead_eq ha₁)
          refine leadsTo_expect_bind ha₂ hk ?_
          exact (helse n s₂.advance rest ((moves_advance ha₂).ahead_eq ha₂) hr).bind
            fun s₃ _ => leadsTo_refl

theorem Unary.phrase {ts : List Token} {e : Expr Unit} (h : Unary ts e) :
    Phrase unary 9 ts e := by
  match h with
  | @Unary.operator operator us e hk hu =>
      have hinner := hu.phrase
      intro n s rest ha hr
      match n with
      | 0 => exact leadsTo_spent
      | n + 1 =>
          rw [unary, ← List.append_nil us]
          refine leadsTo_acceptIf_bind ha (by simpa using hk) ?_
          exact (hinner n s.advance rest ((moves_advance ha).ahead_eq ha) hr).bind
            fun s₁ _ => leadsTo_refl
  | .call h => exact h.loop.phrase

theorem Call.loop {ts : List Token} {e : Expr Unit} (h : Call ts e) : CallPhrase ts e := by
  match h with
  | .primary h => exact .of_primary h.begins h.phrase
  | @Call.call us vs before paren callee arguments hc hb hargs hp =>
      have hcallee := hc.loop
      have hitems := hargs.phrase
      intro n s rest ha
      have ha' : s.ahead = us ++ before :: (vs ++ paren :: rest) := by simpa using ha
      have hts : us ++ before :: vs ++ [paren] = us ++ before :: (vs ++ [paren]) := by simp
      obtain ⟨m, hm⟩ := hcallee n s _ ha'
      rw [hts]
      match m with
      | 0 => exact ⟨0, hm.trans fun s₁ _ => leadsTo_spent⟩
      | m + 1 =>
          refine ⟨m, hm.trans fun s₁ hs₁ => ?_⟩
          have ha₁ := hs₁.ahead_eq ha'
          rw [callRest]
          refine leadsTo_accept_bind ha₁ hb ?_
          have ha₂ := (moves_advance ha₁).ahead_eq ha₁
          rw [← hp]
          refine (hitems m s₁.advance paren rest ha₂ (.inl hp)).bind fun s₂ hs₂ => ?_
          exact leadsTo_expect_bind (hs₂.ahead_eq ha₂) rfl leadsTo_refl
  | @Call.property us dot name object ho hd hn => exact ho.loop.property hd hn

theorem Arguments.phrase {ts : List Token} {es : List (Expr Unit)} (h : Arguments ts es) :
    ItemsPhrase ts es := by
  match h with
  | .none =>
      intro n s closing rest ha hk
      match n with
      | 0 => exact leadsTo_spent
      | n + 1 =>
          rw [items]
          refine leadsTo_check_bind ?_
          rw [ha]
          simp only [List.nil_append, List.head?_cons, Option.any_some, beq_self_eq_true, if_true]
          exact leadsTo_refl
  | .some hitems hlen =>
      have hread := hitems.phrase
      intro n s closing rest ha hk
      match n with
      | 0 => exact leadsTo_spent
      | n + 1 =>
          rw [items]
          refine leadsTo_check_bind ?_
          rw [if_neg (hitems.begins.check_ne ha hk)]
          refine hread n 0 s (closing :: rest) ha ?_ ?_ (by omega)
          · rcases hk with hk | hk <;> simp [headKind, hk, TokenKind.pull]
          · rcases hk with hk | hk <;> simp [headKind, hk]

theorem Items.phrase {ts : List Token} {es : List (Expr Unit)} (h : Items ts es) (n count : Nat)
    (s : ParseState) (rest : List Token) (ha : s.ahead = ts ++ rest)
    (hpull : (headKind rest).pull = 0) (hcomma : headKind rest ≠ .comma)
    (hcount : count + es.length ≤ maxArguments) :
    LeadsTo s (itemsFrom n count) ts (pure es) := by
  match h with
  | @Items.last us e he =>
      have hitem := he.phrase
      match n with
      | 0 => exact leadsTo_spent
      | n + 1 =>
          rw [itemsFrom, ← List.append_nil us]
          refine checkCount_leads (by simp only [List.length_cons] at hcount; omega) ?_
          exact (hitem n s rest ha (by omega)).bind fun s₁ hs₁ =>
            leadsTo_accept_none (by rwa [hs₁.ahead_eq ha]) leadsTo_refl
  | @Items.more us vs comma e es he hk hes =>
      have hitem := he.phrase
      have hmore := hes.phrase
      match n with
      | 0 => exact leadsTo_spent
      | n + 1 =>
          have ha' : s.ahead = us ++ comma :: (vs ++ rest) := by simpa using ha
          rw [itemsFrom, ← List.append_nil vs]
          simp only [List.length_cons] at hcount
          refine checkCount_leads (by omega) ?_
          refine (hitem n s _ ha' (by simp [headKind, hk, TokenKind.pull])).bind fun s₁ hs₁ => ?_
          have ha₁ := hs₁.ahead_eq ha'
          refine leadsTo_accept_bind ha₁ hk ?_
          exact (hmore n (count + 1) s₁.advance rest ((moves_advance ha₁).ahead_eq ha₁) hpull
            hcomma (by omega)).bind fun s₂ _ => leadsTo_refl

theorem Primary.phrase {ts : List Token} {e : Expr Unit} (h : Primary ts e) (n : Nat)
    (s : ParseState) (rest : List Token) (ha : s.ahead = ts ++ rest) :
    LeadsTo s (primary n) ts (pure e) := by
  match n with
  | 0 => exact leadsTo_spent
  | n + 1 =>
      match h with
      | .number hk =>
          rw [primary]
          refine leadsTo_current_bind ha ?_
          simp only [hk]
          exact leadsTo_accept_bind ha hk leadsTo_refl
      | .string hk =>
          rw [primary]
          refine leadsTo_current_bind ha ?_
          simp only [hk]
          exact leadsTo_accept_bind ha hk leadsTo_refl
      | .true hk =>
          rw [primary]
          refine leadsTo_current_bind ha ?_
          simp only [hk]
          exact leadsTo_accept_bind ha hk leadsTo_refl
      | .false hk =>
          rw [primary]
          refine leadsTo_current_bind ha ?_
          simp only [hk]
          exact leadsTo_accept_bind ha hk leadsTo_refl
      | .nil hk =>
          rw [primary]
          refine leadsTo_current_bind ha ?_
          simp only [hk]
          exact leadsTo_accept_bind ha hk leadsTo_refl
      | .this hk =>
          rw [primary]
          refine leadsTo_current_bind ha ?_
          simp only [hk]
          exact leadsTo_accept_bind ha hk leadsTo_refl
      | .identifier hk => exact identifier_leads (n + 1) hk ha
      | @Primary.grouping before after us e hb he hk =>
          have hinner := he.phrase
          have ha' : s.ahead = before :: (us ++ after :: rest) := by simpa using ha
          have ha₁ := (moves_advance ha').ahead_eq ha'
          rw [primary, List.cons_append]
          refine leadsTo_current_bind ha' ?_
          simp only [hb]
          refine leadsTo_accept_bind ha' hb ?_
          refine (hinner n s.advance _ ha₁ (by simp [headKind, hk, TokenKind.pull])).bind
            fun s₁ hs₁ => ?_
          exact leadsTo_expect_bind (hs₁.ahead_eq ha₁) hk leadsTo_refl
      | @Primary.super keyword dot method hk hd hm =>
          have ha₁ := (moves_advance ha).ahead_eq ha
          have ha₂ := (moves_advance ha₁).ahead_eq ha₁
          rw [primary]
          refine leadsTo_current_bind ha ?_
          simp only [hk]
          refine leadsTo_accept_bind ha hk ?_
          exact leadsTo_expect_bind ha₁ hd (leadsTo_expect_bind ha₂ hm leadsTo_refl)
      | @Primary.vector bracket after us es hb he hk =>
          have hitems := he.phrase
          have ha' : s.ahead = bracket :: (us ++ after :: rest) := by simpa using ha
          have ha₁ := (moves_advance ha').ahead_eq ha'
          rw [primary, List.cons_append]
          refine leadsTo_current_bind ha' ?_
          simp only [hb]
          refine leadsTo_accept_bind ha' hb ?_
          rw [← hk]
          refine (hitems n s.advance after rest ha₁ (.inr hk)).bind fun s₁ hs₁ => ?_
          exact leadsTo_expect_bind (hs₁.ahead_eq ha₁) rfl leadsTo_refl

end

/-- An expression is read wherever a token follows that is not drawn to it. -/
theorem Assignment.leads {ts rest : List Token} {e : Expr Unit} {s : ParseState}
    (h : Assignment ts e) (ha : s.ahead = ts ++ rest) (hr : (headKind rest).pull = 0) :
    LeadsTo s expression ts (pure e) := by
  rw [expression]
  exact leadsTo_budgeted (h.phrase _ s rest ha (by omega))

end Grammar
end Lox
