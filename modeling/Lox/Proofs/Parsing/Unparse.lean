import Lox.Proofs.Parsing.Derivations
import Lox.Proofs.Parsing.Program
import Lox.Proofs.Spelling

/-!
# Writing expressions back as tokens

`unparse` writes the tokens of a tree in order. A grouping writes its parentheses, and
no other tree adds any, so the tokens say what the tree says only if every operand
holds together more tightly than the operator next to it. Trees of that kind are
*placed*, and for them reading and writing are inverse: a placed tree is read back
from its tokens, and whatever is read without a fault is placed and was written with
the tokens of its tree. Only a number can be spelled in more ways than one.
-/

namespace Lox

mutual

/-- The tokens of an expression. -/
def Expr.unparse : Expr Unit → List Token
  | .literal value => [value.token]
  | .unary operator operand => operator :: operand.unparse
  | .binary left operator right => left.unparse ++ operator :: right.unparse
  | .logical left operator right => left.unparse ++ operator :: right.unparse
  | .conditional condition thenBranch elseBranch =>
    condition.unparse ++ .sign .question :: thenBranch.unparse ++
      .sign .colon :: elseBranch.unparse
  | .grouping inner => .sign .leftParen :: inner.unparse ++ [.sign .rightParen]
  | .var name _ => [name]
  | .assign name _ value => name :: .sign .equal :: value.unparse
  | .call callee paren arguments =>
    callee.unparse ++ .sign .leftParen :: Expr.unparseAll arguments ++ [paren]
  | .get object name => object.unparse ++ [.sign .dot, name]
  | .set object name value => object.unparse ++ .sign .dot :: name :: .sign .equal :: value.unparse
  | .thisRef keyword _ => [keyword]
  | .superRef keyword method _ => [keyword, .sign .dot, method]
  | .vector bracket elements => bracket :: Expr.unparseAll elements ++ [.sign .rightBracket]

/-- The tokens of some expressions, with commas between them. -/
def Expr.unparseAll : List (Expr Unit) → List Token
  | [] => []
  | [e] => e.unparse
  | e :: rest => e.unparse ++ .sign .comma :: Expr.unparseAll rest

end

/-! ## Placed trees -/

/-- How tightly an expression holds together: as tightly as its outermost operator. -/
def Expr.grip : Expr Unit → Nat
  | .assign .. | .set .. => 1
  | .binary _ operator _ | .logical _ operator _ => operator.kind.pull
  | .conditional .. => 4
  | .unary .. => 9
  | .call .. | .get .. => 10
  | _ => 11

/-- Every operand holds together as tightly as the grammar asks for in its place, the
tokens in the tree are of the kinds that the grammar asks for, and no list is too
long. -/
inductive Expr.Placed : Expr Unit → Prop
  | literal {value : Constant} : Placed (.literal value)
  | unary {operator : Token} {e : Expr Unit} :
      operator.kind = .bang ∨ operator.kind = .minus → 9 ≤ e.grip → Placed e →
      Placed (.unary operator e)
  | chain {level : Chain} {operator : Token} {left right : Expr Unit} :
      level.operators operator.kind = true → level.pull ≤ left.grip → level.pull < right.grip →
      Placed left → Placed right → Placed (level.node left operator right)
  | conditional {condition thenBranch elseBranch : Expr Unit} :
      4 < condition.grip → 4 ≤ thenBranch.grip → 4 ≤ elseBranch.grip →
      Placed condition → Placed thenBranch → Placed elseBranch →
      Placed (.conditional condition thenBranch elseBranch)
  | grouping {e : Expr Unit} : Placed e → Placed (.grouping e)
  | var {name : Token} : name.kind = .identifier → Placed (.var name ())
  | assign {name : Token} {value : Expr Unit} :
      name.kind = .identifier → Placed value → Placed (.assign name () value)
  | call {paren : Token} {callee : Expr Unit} {arguments : List (Expr Unit)} :
      10 ≤ callee.grip → paren.kind = .rightParen → arguments.length ≤ maxArguments →
      Placed callee → (∀ e ∈ arguments, Placed e) → Placed (.call callee paren arguments)
  | get {name : Token} {object : Expr Unit} :
      10 ≤ object.grip → name.kind = .identifier → Placed object → Placed (.get object name)
  | set {name : Token} {object value : Expr Unit} :
      10 ≤ object.grip → name.kind = .identifier → Placed object → Placed value →
      Placed (.set object name value)
  | thisRef {keyword : Token} : keyword.kind = .thisWord → Placed (.thisRef keyword ())
  | superRef {keyword method : Token} :
      keyword.kind = .superWord → method.kind = .identifier →
      Placed (.superRef keyword method ())
  | vector {bracket : Token} {elements : List (Expr Unit)} :
      bracket.kind = .leftBracket → elements.length ≤ maxArguments →
      (∀ e ∈ elements, Placed e) → Placed (.vector bracket elements)

namespace Chain

theorem grip_node {level : Chain} {operator : Token} (h : level.operators operator.kind = true)
    (left right : Expr Unit) : (level.node left operator right).grip = level.pull := by
  rw [← pull_of_operators h]
  cases level <;> rfl

theorem unparse_node (level : Chain) (left right : Expr Unit) (operator : Token) :
    (level.node left operator right).unparse = left.unparse ++ operator :: right.unparse := by
  cases level <;> simp only [node, Expr.unparse]

end Chain

theorem Expr.unparseAll_cons {e : Expr Unit} {es : List (Expr Unit)} (h : es ≠ []) :
    Expr.unparseAll (e :: es) = e.unparse ++ .sign .comma :: Expr.unparseAll es := by
  cases es with
  | nil => exact absurd rfl h
  | cons => rw [Expr.unparseAll]; simp

/-! ## From trees to derivations -/

namespace Grammar

/-- The tokens are derived as a phrase that holds together so tightly at least. -/
def Derives : Nat → List Token → Expr Unit → Prop
  | 0 | 1 => Assignment
  | 2 => Level .or
  | 3 => Level .and
  | 4 => Conditional
  | 5 => Level .equality
  | 6 => Level .comparison
  | 7 => Level .term
  | 8 => Level .factor
  | 9 => Unary
  | 10 => Call
  | _ => Primary

variable {ts us : List Token} {e : Expr Unit}

theorem Derives.loosen {p : Nat} (h : Derives (p + 1) ts e) : Derives p ts e := by
  match p with
  | 0 => exact h
  | 1 => exact .level h
  | 2 => exact .operand (.or h)
  | 3 => exact .operand (.and h)
  | 4 => exact .plain h
  | 5 => exact .operand (.equality h)
  | 6 => exact .operand (.comparison h)
  | 7 => exact .operand (.term h)
  | 8 => exact .operand (.factor h)
  | 9 => exact .call h
  | 10 => exact .primary h
  | p + 11 => exact h

theorem Derives.le {p q : Nat} (h : Derives q ts e) (hpq : p ≤ q) : Derives p ts e := by
  induction hpq with
  | refl => exact h
  | step _ ih => exact ih h.loosen

theorem Derives.level {level : Chain} (h : Derives level.pull ts e) : Level level ts e := by
  cases level <;> exact h

theorem Level.derives {level : Chain} (h : Level level ts e) : Derives level.pull ts e := by
  cases level <;> exact h

theorem Derives.operand {level : Chain} (h : Derives (level.pull + 1) ts e) :
    Operand level ts e := by
  cases level with
  | or => exact .or h
  | and => exact .and h
  | equality => exact .equality h
  | comparison => exact .comparison h
  | term => exact .term h
  | factor => exact .factor h

theorem items_unparseAll {es : List (Expr Unit)} (hne : es ≠ [])
    (h : ∀ e ∈ es, Derives e.grip e.unparse e) : Items (Expr.unparseAll es) es := by
  induction es with
  | nil => exact absurd rfl hne
  | cons e es ih =>
      have he : Assignment e.unparse e := (h e List.mem_cons_self).le (Nat.zero_le _)
      cases es with
      | nil =>
          rw [Expr.unparseAll]
          exact .last he
      | cons e' es =>
          rw [Expr.unparseAll_cons (List.cons_ne_nil e' es)]
          exact .more he rfl (ih (List.cons_ne_nil e' es) fun x hx =>
            h x (List.mem_cons_of_mem e hx))

theorem arguments_unparseAll {es : List (Expr Unit)} (hlength : es.length ≤ maxArguments)
    (h : ∀ e ∈ es, Derives e.grip e.unparse e) : Arguments (Expr.unparseAll es) es := by
  cases es with
  | nil =>
      rw [Expr.unparseAll]
      exact .none
  | cons e es => exact .some (items_unparseAll (List.cons_ne_nil e es) h) hlength

theorem primary_token (value : Constant) : Primary [value.token] (.literal value) := by
  cases value with
  | nil => exact .nil rfl
  | bool b =>
      cases b with
      | false => exact .false rfl
      | true => exact .true rfl
  | number x => exact Primary.number (t := (Constant.number x).token) rfl
  | text s => exact Primary.string (t := (Constant.text s).token) rfl

end Grammar

open Grammar

/-- The tokens of a placed tree are derived as that tree. -/
theorem Expr.Placed.derives {e : Expr Unit} (h : e.Placed) : Derives e.grip e.unparse e := by
  induction h with
  | @literal value =>
      rw [unparse]
      exact primary_token value
  | unary hk hgrip _ ih =>
      rw [unparse]
      exact Unary.operator hk (ih.le hgrip)
  | @chain level operator left right hk hleft hright _ _ ihl ihr =>
      rw [Chain.grip_node hk, Chain.unparse_node]
      exact (Level.step (ihl.le hleft).level hk (ihr.le hright).operand).derives
  | conditional hc ha hb _ _ _ ihc iha ihb =>
      rw [unparse]
      exact Conditional.choice (ihc.le hc) rfl (iha.le ha) rfl (ihb.le hb)
  | grouping _ ih =>
      rw [unparse]
      exact Primary.grouping rfl (ih.le (Nat.zero_le _)) rfl
  | var hk =>
      rw [unparse]
      exact Primary.identifier hk
  | assign hk _ ih =>
      rw [unparse]
      exact Assignment.var hk rfl (ih.le (Nat.zero_le _))
  | call hf hk hlength _ _ ihf ihs =>
      rw [unparse]
      exact Call.call (ihf.le hf) rfl (arguments_unparseAll hlength ihs) hk
  | get ho hk _ ih =>
      rw [unparse]
      exact Call.property (ih.le ho) rfl hk
  | set ho hk _ _ iho ihv =>
      rw [unparse]
      exact Assignment.property (iho.le ho) rfl hk rfl (ihv.le (Nat.zero_le _))
  | thisRef hk =>
      rw [unparse]
      exact Primary.this hk
  | superRef hk hm =>
      rw [unparse]
      exact Primary.super hk rfl hm
  | vector hk hlength _ ihs =>
      rw [unparse]
      exact Primary.vector hk (arguments_unparseAll hlength ihs) rfl

/-! ## From derivations to trees -/

namespace Grammar

theorem Items.ne_nil {ts : List Token} {es : List (Expr Unit)} (h : Items ts es) : es ≠ [] := by
  cases h <;> exact List.cons_ne_nil _ _

/-- The tokens are those of the tree, which is placed and holds together so tightly at
least. -/
structure Writes (p : Nat) (ts : List Token) (e : Expr Unit) : Prop where
  placed : e.Placed
  grip : p ≤ e.grip
  spells : Spells ts e.unparse

/-- The tokens are those of the trees, with commas between them. -/
structure WritesAll (ts : List Token) (es : List (Expr Unit)) : Prop where
  placed : ∀ e ∈ es, e.Placed
  spells : Spells ts (Expr.unparseAll es)

theorem Writes.le {p q : Nat} {ts : List Token} {e : Expr Unit} (h : Writes q ts e)
    (hpq : p ≤ q) : Writes p ts e :=
  ⟨h.placed, Nat.le_trans hpq h.grip, h.spells⟩

mutual

theorem Assignment.writes {ts : List Token} {e : Expr Unit} (h : Assignment ts e) :
    Writes 1 ts e := by
  match h with
  | .var hn he hv =>
      have hv := hv.writes
      refine ⟨.assign hn hv.placed, Nat.le_refl _, ?_⟩
      rw [Expr.unparse]
      exact .cons_same _ (.cons_sign he rfl hv.spells)
  | .property ho hd hn he hv =>
      have ho := ho.writes
      have hv := hv.writes
      refine ⟨.set ho.grip hn ho.placed hv.placed, Nat.le_refl _, ?_⟩
      rw [Expr.unparse]
      exact ho.spells.append (.cons_sign hd rfl (.cons_same _ (.cons_sign he rfl hv.spells)))
  | .level h => exact h.writes.le (by decide)

theorem Level.writes {level : Chain} {ts : List Token} {e : Expr Unit} (h : Level level ts e) :
    Writes level.pull ts e := by
  match h with
  | .operand h => exact h.writes.le (Nat.le_succ _)
  | .step hl hk hr =>
      have hl := hl.writes
      have hr := hr.writes
      refine ⟨.chain hk hl.grip hr.grip hl.placed hr.placed, ?_, ?_⟩
      · exact Nat.le_of_eq (Chain.grip_node hk _ _).symm
      · rw [Chain.unparse_node]
        exact hl.spells.append (.cons_same _ hr.spells)

theorem Operand.writes {level : Chain} {ts : List Token} {e : Expr Unit}
    (h : Operand level ts e) : Writes (level.pull + 1) ts e := by
  match h with
  | .or h => exact h.writes
  | .and h => exact h.writes
  | .equality h => exact h.writes
  | .comparison h => exact h.writes
  | .term h => exact h.writes
  | .factor h => exact h.writes

theorem Conditional.writes {ts : List Token} {e : Expr Unit} (h : Conditional ts e) :
    Writes 4 ts e := by
  match h with
  | .plain h => exact h.writes.le (by decide)
  | .choice hc hq ha hcolon hb =>
      have hc := hc.writes
      have ha := ha.writes
      have hb := hb.writes
      refine ⟨.conditional hc.grip ha.grip hb.grip hc.placed ha.placed hb.placed,
        Nat.le_refl _, ?_⟩
      rw [Expr.unparse]
      exact (hc.spells.append (.cons_sign hq rfl ha.spells)).append
        (.cons_sign hcolon rfl hb.spells)

theorem Unary.writes {ts : List Token} {e : Expr Unit} (h : Unary ts e) : Writes 9 ts e := by
  match h with
  | .operator hk h =>
      have h := h.writes
      refine ⟨.unary hk h.grip h.placed, Nat.le_refl _, ?_⟩
      rw [Expr.unparse]
      exact .cons_same _ h.spells
  | .call h => exact h.writes.le (by decide)

theorem Call.writes {ts : List Token} {e : Expr Unit} (h : Call ts e) : Writes 10 ts e := by
  match h with
  | .primary h => exact h.writes.le (by decide)
  | .call hf hk ha hp =>
      have hf := hf.writes
      obtain ⟨ha, hlength⟩ := ha.writes
      refine ⟨.call hf.grip hp hlength hf.placed ha.placed, Nat.le_refl _, ?_⟩
      rw [Expr.unparse]
      exact (hf.spells.append (.cons_sign hk rfl ha.spells)).append (.cons_same _ .nil)
  | .property ho hd hn =>
      have ho := ho.writes
      refine ⟨.get ho.grip hn ho.placed, Nat.le_refl _, ?_⟩
      rw [Expr.unparse]
      exact ho.spells.append (.cons_sign hd rfl (.cons_same _ .nil))

theorem Arguments.writes {ts : List Token} {es : List (Expr Unit)} (h : Arguments ts es) :
    WritesAll ts es ∧ es.length ≤ maxArguments := by
  match h with
  | .none =>
      refine ⟨⟨fun _ h => absurd h List.not_mem_nil, ?_⟩, Nat.zero_le _⟩
      rw [Expr.unparseAll]
      exact .nil
  | .some h hlength => exact ⟨h.writes, hlength⟩

theorem Items.writes {ts : List Token} {es : List (Expr Unit)} (h : Items ts es) :
    WritesAll ts es := by
  match h with
  | .last h =>
      have h := h.writes
      refine ⟨List.forall_mem_singleton.mpr h.placed, ?_⟩
      rw [Expr.unparseAll]
      exact h.spells
  | .more h hk hs =>
      have h := h.writes
      have hall := hs.writes
      refine ⟨List.forall_mem_cons.mpr ⟨h.placed, hall.placed⟩, ?_⟩
      rw [Expr.unparseAll_cons hs.ne_nil]
      exact h.spells.append (.cons_sign hk rfl hall.spells)

theorem Primary.writes {ts : List Token} {e : Expr Unit} (h : Primary ts e) :
    Writes 11 ts e := by
  match h with
  | .number hk => exact ⟨.literal, Nat.le_refl _, by rw [Expr.unparse]; exact .constant (.inl hk)⟩
  | .string hk => exact ⟨.literal, Nat.le_refl _, by rw [Expr.unparse]; exact .constant (.inr hk)⟩
  | .true hk =>
      exact ⟨.literal, Nat.le_refl _, by rw [Expr.unparse]; exact .cons_sign hk rfl .nil⟩
  | .false hk =>
      exact ⟨.literal, Nat.le_refl _, by rw [Expr.unparse]; exact .cons_sign hk rfl .nil⟩
  | .nil hk =>
      exact ⟨.literal, Nat.le_refl _, by rw [Expr.unparse]; exact .cons_sign hk rfl .nil⟩
  | .this hk => exact ⟨.thisRef hk, Nat.le_refl _, by rw [Expr.unparse]; exact .cons_same _ .nil⟩
  | .identifier hk =>
      exact ⟨.var hk, Nat.le_refl _, by rw [Expr.unparse]; exact .cons_same _ .nil⟩
  | .grouping hb h ha =>
      have h := h.writes
      refine ⟨.grouping h.placed, Nat.le_refl _, ?_⟩
      rw [Expr.unparse]
      exact Spells.append (.cons_sign hb rfl h.spells) (.cons_sign ha rfl .nil)
  | .super hk hd hm =>
      refine ⟨.superRef hk hm, Nat.le_refl _, ?_⟩
      rw [Expr.unparse]
      exact .cons_same _ (.cons_sign hd rfl (.cons_same _ .nil))
  | .vector hb h ha =>
      obtain ⟨h, hlength⟩ := h.writes
      refine ⟨.vector hb hlength h.placed, Nat.le_refl _, ?_⟩
      rw [Expr.unparse]
      exact Spells.append (.cons_same _ h.spells) (.cons_sign ha rfl .nil)

end

end Grammar

/-! ## Reading what was written, writing what was read -/

theorem Constant.token_ne_eof (value : Constant) : value.token.kind ≠ .eof := by
  match value with
  | .nil | .bool true | .bool false | .number _ | .text _ => simp [token, Token.sign]

/-- None of the tokens ends the input. -/
def Unended (ts : List Token) : Prop :=
  ∀ t ∈ ts, t.kind ≠ .eof

namespace Unended

variable {ts us : List Token} {t : Token}

theorem nil : Unended [] := fun _ h => absurd h List.not_mem_nil

theorem cons (ht : t.kind ≠ .eof) (h : Unended ts) : Unended (t :: ts) :=
  List.forall_mem_cons.mpr ⟨ht, h⟩

theorem cons_sign {kind : TokenKind} (hk : kind ≠ .eof) (h : Unended ts) :
    Unended (.sign kind :: ts) :=
  cons hk h

theorem append (h : Unended ts) (h' : Unended us) : Unended (ts ++ us) :=
  List.forall_mem_append.mpr ⟨h, h'⟩

theorem unparseAll {es : List (Expr Unit)} (h : ∀ e ∈ es, Unended e.unparse) :
    Unended (Expr.unparseAll es) := by
  induction es with
  | nil =>
      rw [Expr.unparseAll]
      exact nil
  | cons e es ih =>
      have he := h e List.mem_cons_self
      by_cases hne : es = []
      · rw [hne, Expr.unparseAll]
        exact he
      · rw [Expr.unparseAll_cons hne]
        exact he.append (.cons_sign (by decide) (ih fun x hx => h x (List.mem_cons_of_mem e hx)))

end Unended

/-- No token of a placed tree ends the input. -/
theorem Expr.Placed.unended {e : Expr Unit} (h : e.Placed) : Unended e.unparse := by
  induction h with
  | literal =>
      rw [unparse]
      exact List.forall_mem_singleton.mpr (Constant.token_ne_eof _)
  | unary hk _ _ ih =>
      rw [unparse]
      refine .cons ?_ ih
      rcases hk with hk | hk <;> simp [hk]
  | @chain level operator left right hk _ _ _ _ ihl ihr =>
      have hoperator : operator.kind ≠ .eof := by
        intro heof
        rw [heof] at hk
        cases level <;> cases hk
      rw [Chain.unparse_node]
      exact ihl.append (.cons hoperator ihr)
  | conditional _ _ _ _ _ _ ihc iha ihb =>
      rw [unparse]
      exact (ihc.append (.cons_sign (by decide) iha)).append (.cons_sign (by decide) ihb)
  | grouping _ ih =>
      rw [unparse]
      exact Unended.append (.cons_sign (by decide) ih) (.cons_sign (by decide) .nil)
  | var hk =>
      rw [unparse]
      exact .cons (by simp [hk]) .nil
  | assign hk _ ih =>
      rw [unparse]
      exact .cons (by simp [hk]) (.cons_sign (by decide) ih)
  | call _ hk _ _ _ ih ihs =>
      rw [unparse]
      exact (ih.append (.cons_sign (by decide) (.unparseAll ihs))).append
        (.cons (by simp [hk]) .nil)
  | get _ hk _ ih =>
      rw [unparse]
      exact ih.append (.cons_sign (by decide) (.cons (by simp [hk]) .nil))
  | set _ hk _ _ iho ihv =>
      rw [unparse]
      exact iho.append (.cons_sign (by decide) (.cons (by simp [hk]) (.cons_sign (by decide) ihv)))
  | thisRef hk =>
      rw [unparse]
      exact .cons (by simp [hk]) .nil
  | superRef hk hm =>
      rw [unparse]
      exact .cons (by simp [hk]) (.cons_sign (by decide) (.cons (by simp [hm]) .nil))
  | vector hk _ _ ihs =>
      rw [unparse]
      exact Unended.append (.cons (by simp [hk]) (.unparseAll ihs)) (.cons_sign (by decide) .nil)

/-- The tokens of a placed tree are read as that tree, up to the end of the input. -/
theorem Expr.Placed.parse {e : Expr Unit} (h : e.Placed) {eof : Token} (hk : eof.kind = .eof) :
    ∃ s, parseExpression (e.unparse ++ [eof]) = (some e, s) ∧ s.faults = [] ∧
      s.ahead = [] ∧ s.current = eof ∧ s.position = e.unparse.length := by
  obtain ⟨hahead, hfinish⟩ := ofTokens_ended h.unended hk
  have hderived : Assignment e.unparse e := h.derives.le (Nat.zero_le _)
  have hs : (ParseState.ofTokens (e.unparse ++ [eof])).finish.kind = .eof := by rw [hfinish, hk]
  have hnone : (ParseState.ofTokens (e.unparse ++ [eof])).ahead = e.unparse ++ [] := by
    rw [hahead, List.append_nil]
  rcases hderived.leads hnone rfl with ⟨s, hm, hfaults, heq⟩ | ⟨s, hspent⟩
  · have hnil : s.ahead = [] := hm.ahead_eq hnone
    refine ⟨s, ?_, hfaults, hnil, ?_, ?_⟩
    · rw [parseExpression, heq]
      rfl
    · rw [ParseState.current, hnil]
      exact hm.finish.trans hfinish
    · rw [hm.position]
      exact Nat.zero_add _
  · exact absurd trivial (Parse.readsAt_spent hspent (Parse.expression_reads _ hs))

/-- What is read without a fault is placed, and the tokens taken are those of the tree. -/
theorem parseExpression_writes {source : List Char} {e : Expr Unit} {s : ParseState}
    (h : parseExpression (scan source).tokens = (some e, s)) (hfaults : s.faults = []) :
    e.Placed ∧ ∃ taken, (scan source).tokens = taken ++ s.ahead ++ [s.finish] ∧
      s.position = taken.length ∧ List.Forall₂ Token.SpelledLike taken e.unparse := by
  obtain ⟨ts, eof, htokens, hk, hlex⟩ := scan_tokens source
  rw [htokens] at h ⊢
  obtain ⟨hahead, hfinish⟩ := ofTokens_ended (fun t ht => (hlex t ht).ne_eof) hk
  have hs : (ParseState.ofTokens (ts ++ [eof])).finish.kind = .eof := by rw [hfinish, hk]
  have hok : Parse.expression (ParseState.ofTokens (ts ++ [eof])) = .ok e s := by
    rw [parseExpression] at h
    split at h <;> cases h
    assumption
  obtain ⟨taken, hm, _, hderived⟩ := Parse.readsAt_ok hok (Parse.expression_reads _ hs)
  have hwrites := (hderived hfaults).writes
  have hsplit : ts = taken ++ s.ahead := hahead.symm.trans hm.ahead
  refine ⟨hwrites.placed, taken, ?_, ?_, hwrites.spells fun t ht => ?_⟩
  · rw [hm.finish, hfinish, hsplit]
  · rw [hm.position]
    exact Nat.zero_add _
  · exact hlex t (hsplit ▸ List.mem_append_left _ ht)

/-- Reading and writing expressions are inverse. The tokens of a placed tree are read
as that tree, without a fault and up to the end of the input. Of a source, whatever may
follow, the tokens taken without a fault are those of a placed tree, each as it is
spelled, but for the digits of numbers. -/
theorem parseExpression_unparse :
    (∀ (e : Expr Unit) (eof : Token), e.Placed → eof.kind = .eof →
      ∃ s, parseExpression (e.unparse ++ [eof]) = (some e, s) ∧ s.faults = [] ∧
        s.ahead = [] ∧ s.current = eof ∧ s.position = e.unparse.length) ∧
    ∀ (source : List Char) (e : Expr Unit) (s : ParseState),
      parseExpression (scan source).tokens = (some e, s) → s.faults = [] →
        e.Placed ∧ ∃ taken, (scan source).tokens = taken ++ s.ahead ++ [s.finish] ∧
          s.position = taken.length ∧ List.Forall₂ Token.SpelledLike taken e.unparse :=
  ⟨fun _ _ h hk => h.parse hk, fun _ _ _ h hfaults => parseExpression_writes h hfaults⟩

/-- The tree of `a.b = -c and (d = nil)`. -/
def exampleTree : Expr Unit :=
  .set (.var (nameToken "a") ()) (nameToken "b")
    (.logical (.unary (.sign .minus) (.var (nameToken "c") ())) (.sign .andWord)
      (.grouping (.assign (nameToken "d") () (.literal .nil))))
where
  nameToken (lexeme : String) : Token := { kind := .identifier, lexeme := lexeme, line := 1 }

theorem parseExpression_unparse_example :
    (∃ s, parseExpression (exampleTree.unparse ++ [.sign .eof]) = (some exampleTree, s) ∧
      s.faults = [] ∧ s.ahead = [] ∧ s.current = .sign .eof ∧
      s.position = exampleTree.unparse.length) ∧
    ∃ e s, parseExpression (scan "a ? b.c(true, \"d\") : [-h * e] == f; g".toList).tokens =
      (some e, s) ∧ s.faults = [] ∧ e.Placed ∧
        ∃ taken, (scan "a ? b.c(true, \"d\") : [-h * e] == f; g".toList).tokens =
          taken ++ s.ahead ++ [s.finish] ∧ s.position = taken.length ∧
          List.Forall₂ Token.SpelledLike taken e.unparse := by
  have hchain : (Expr.logical (.unary (.sign .minus) (.var (exampleTree.nameToken "c") ()))
      (.sign .andWord)
      (.grouping (.assign (exampleTree.nameToken "d") () (.literal .nil)))).Placed :=
    @Expr.Placed.chain .and _ _ _ rfl (by decide) (by decide)
      (.unary (.inr rfl) (by decide) (.var rfl)) (.grouping (.assign rfl .literal))
  have hplaced : exampleTree.Placed := .set (by decide) rfl (.var rfl) hchain
  refine ⟨parseExpression_unparse.1 _ _ hplaced rfl, ?_⟩
  have hread :
      (parseExpression (scan "a ? b.c(true, \"d\") : [-h * e] == f; g".toList).tokens).1.isSome ∧
      (parseExpression
        (scan "a ? b.c(true, \"d\") : [-h * e] == f; g".toList).tokens).2.faults.isEmpty := by
    decide +kernel
  generalize hr : parseExpression
    (scan "a ? b.c(true, \"d\") : [-h * e] == f; g".toList).tokens = r at hread
  obtain ⟨_ | e, s⟩ := r
  · cases hread.1
  · have hfaults := List.isEmpty_iff.mp hread.2
    exact ⟨e, s, rfl, hfaults, parseExpression_unparse.2 _ _ _ hr hfaults⟩

end Lox
