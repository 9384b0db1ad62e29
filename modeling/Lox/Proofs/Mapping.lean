import Lox.Proofs.Grammar
import Lox.Tree.Nodes

/-!
# Trees with other tokens

A tree may be given other tokens and other slots and keep its shape. The grammar looks at the
kinds of tokens alone, and puts the constants of numbers and strings into trees: tokens that
agree in both derive the same tree, up to the tokens in it.
-/

namespace Lox

/-! ## Nothing replaced -/

section

variable {δ : Type}

mutual

theorem Expr.map_id (e : Expr δ) : e.map id id = e := by
  cases e with
  | literal | var | thisRef | superRef => rfl
  | unary operator a => rw [Expr.map, Expr.map_id a]; rfl
  | binary a operator b => rw [Expr.map, Expr.map_id a, Expr.map_id b]; rfl
  | logical a operator b => rw [Expr.map, Expr.map_id a, Expr.map_id b]; rfl
  | conditional a b c => rw [Expr.map, Expr.map_id a, Expr.map_id b, Expr.map_id c]
  | grouping a => rw [Expr.map, Expr.map_id a]
  | assign name slot a => rw [Expr.map, Expr.map_id a]; rfl
  | call a paren es => rw [Expr.map, Expr.map_id a, Expr.mapAll_id es]; rfl
  | get a name => rw [Expr.map, Expr.map_id a]; rfl
  | set a name b => rw [Expr.map, Expr.map_id a, Expr.map_id b]; rfl
  | vector bracket es => rw [Expr.map, Expr.mapAll_id es]; rfl

theorem Expr.mapAll_id (es : List (Expr δ)) : Expr.mapAll id id es = es := by
  cases es with
  | nil => rfl
  | cons e es => rw [Expr.mapAll, Expr.map_id e, Expr.mapAll_id es]

end

theorem Expr.mapOption_id (e : Option (Expr δ)) : e.map (Expr.map id id) = e := by
  cases e with
  | none => rfl
  | some e => exact congrArg some e.map_id

mutual

theorem Stmt.map_id (n : Nat) (s : Stmt δ) : s.map id (fun _ => id) n = s := by
  cases s with
  | expression e => rw [Stmt.map, e.map_id]
  | print e => rw [Stmt.map, e.map_id]
  | varDecl name initializer => rw [Stmt.map, Expr.mapOption_id]; rfl
  | block body => rw [Stmt.map, Stmt.mapAll_id (n + 1) body]
  | ifThen c a => rw [Stmt.map, c.map_id, Stmt.map_id n a]
  | ifElse c a b => rw [Stmt.map, c.map_id, Stmt.map_id n a, Stmt.map_id n b]
  | whileLoop c a => rw [Stmt.map, c.map_id, Stmt.map_id n a]
  | function d => rw [Stmt.map, FunDecl.map_id n d]
  | ret keyword value => rw [Stmt.map, Expr.mapOption_id]; rfl
  | classDecl name superclass methods =>
      rw [Stmt.map, FunDecl.mapAll_id _ methods]
      cases superclass <;> rfl

theorem Stmt.mapAll_id (n : Nat) (ss : List (Stmt δ)) :
    Stmt.mapAll id (fun _ => id) n ss = ss := by
  cases ss with
  | nil => rfl
  | cons s ss => rw [Stmt.mapAll, Stmt.map_id n s, Stmt.mapAll_id n ss]

theorem FunDecl.map_id (n : Nat) (d : FunDecl δ) : d.map id (fun _ => id) n = d := by
  cases d with
  | mk name params body => rw [FunDecl.map, Stmt.mapAll_id (n + 1) body, List.map_id]; rfl

theorem FunDecl.mapAll_id (n : Nat) (ds : List (FunDecl δ)) :
    FunDecl.mapAll id (fun _ => id) n ds = ds := by
  cases ds with
  | nil => rfl
  | cons d ds => rw [FunDecl.mapAll, FunDecl.map_id n d, FunDecl.mapAll_id n ds]

end

end

/-- The tokens are replaced by others of the same kinds, with the same constants. -/
def KeepsKinds (f : Token → Token) : Prop :=
  ∀ t, (f t).kind = t.kind ∧ (f t).literal = t.literal

theorem KeepsKinds.kind {f : Token → Token} (hf : KeepsKinds f) {t : Token} {kind : TokenKind}
    (h : t.kind = kind) : (f t).kind = kind :=
  (hf t).1.trans h

/-! ## Derivations of other tokens -/

namespace Grammar

variable {f : Token → Token}

theorem chain_node_map (level : Chain) (left right : Expr Unit) (operator : Token) :
    (level.node left operator right).map f id =
      level.node (left.map f id) (f operator) (right.map f id) := by
  cases level <;> rfl

theorem mapAll_length (es : List (Expr Unit)) : (Expr.mapAll f id es).length = es.length := by
  induction es with
  | nil => rfl
  | cons e es ih => exact congrArg (· + 1) ih

mutual

theorem Assignment.map (hf : KeepsKinds f) {ts : List Token} {e : Expr Unit}
    (h : Assignment ts e) : Assignment (ts.map f) (e.map f id) := by
  match h with
  | .var hn he hv => exact .var (hf.kind hn) (hf.kind he) (hv.map hf)
  | .property ho hd hn he hv =>
      rw [List.map_append]
      exact .property (ho.map hf) (hf.kind hd) (hf.kind hn) (hf.kind he) (hv.map hf)
  | .level h => exact .level (h.map hf)

theorem Level.map (hf : KeepsKinds f) {level : Chain} {ts : List Token} {e : Expr Unit}
    (h : Level level ts e) : Level level (ts.map f) (e.map f id) := by
  match h with
  | .operand h => exact .operand (h.map hf)
  | .step hl ho hr =>
      rw [List.map_append, chain_node_map]
      exact .step (hl.map hf) ((congrArg level.operators (hf _).1).trans ho) (hr.map hf)

theorem Operand.map (hf : KeepsKinds f) {level : Chain} {ts : List Token} {e : Expr Unit}
    (h : Operand level ts e) : Operand level (ts.map f) (e.map f id) := by
  match h with
  | .or h => exact .or (h.map hf)
  | .and h => exact .and (h.map hf)
  | .equality h => exact .equality (h.map hf)
  | .comparison h => exact .comparison (h.map hf)
  | .term h => exact .term (h.map hf)
  | .factor h => exact .factor (h.map hf)

theorem Conditional.map (hf : KeepsKinds f) {ts : List Token} {e : Expr Unit}
    (h : Conditional ts e) : Conditional (ts.map f) (e.map f id) := by
  match h with
  | .plain h => exact .plain (h.map hf)
  | .choice hc hq ha hcolon hb =>
      rw [List.map_append, List.map_append]
      exact .choice (hc.map hf) (hf.kind hq) (ha.map hf) (hf.kind hcolon) (hb.map hf)

theorem Unary.map (hf : KeepsKinds f) {ts : List Token} {e : Expr Unit} (h : Unary ts e) :
    Unary (ts.map f) (e.map f id) := by
  match h with
  | .operator ho h => exact .operator (ho.imp hf.kind hf.kind) (h.map hf)
  | .call h => exact .call (h.map hf)

theorem Call.map (hf : KeepsKinds f) {ts : List Token} {e : Expr Unit} (h : Call ts e) :
    Call (ts.map f) (e.map f id) := by
  match h with
  | .primary h => exact .primary (h.map hf)
  | .call hc hb ha hp =>
      rw [List.map_append, List.map_append]
      exact .call (hc.map hf) (hf.kind hb) (ha.map hf) (hf.kind hp)
  | .property ho hd hn =>
      rw [List.map_append]
      exact .property (ho.map hf) (hf.kind hd) (hf.kind hn)

theorem Arguments.map (hf : KeepsKinds f) {ts : List Token} {es : List (Expr Unit)}
    (h : Arguments ts es) : Arguments (ts.map f) (Expr.mapAll f id es) := by
  match h with
  | .none => exact .none
  | .some h hlen => exact .some (h.map hf) ((mapAll_length es).symm ▸ hlen)

theorem Items.map (hf : KeepsKinds f) {ts : List Token} {es : List (Expr Unit)}
    (h : Items ts es) : Items (ts.map f) (Expr.mapAll f id es) := by
  match h with
  | .last h => exact .last (h.map hf)
  | .more h hc hrest =>
      rw [List.map_append]
      exact .more (h.map hf) (hf.kind hc) (hrest.map hf)

theorem Primary.map (hf : KeepsKinds f) {ts : List Token} {e : Expr Unit} (h : Primary ts e) :
    Primary (ts.map f) (e.map f id) := by
  match h with
  | .number (t := t) hk => exact (hf t).2 ▸ .number (hf.kind hk)
  | .string (t := t) hk => exact (hf t).2 ▸ .string (hf.kind hk)
  | .true hk => exact .true (hf.kind hk)
  | .false hk => exact .false (hf.kind hk)
  | .nil hk => exact .nil (hf.kind hk)
  | .this hk => exact .this (hf.kind hk)
  | .identifier hk => exact .identifier (hf.kind hk)
  | .grouping hb h ha =>
      rw [List.map_append]
      exact .grouping (hf.kind hb) (h.map hf) (hf.kind ha)
  | .super hk hd hm => exact .super (hf.kind hk) (hf.kind hd) (hf.kind hm)
  | .vector hb h ha =>
      rw [List.map_append]
      exact .vector (hf.kind hb) (h.map hf) (hf.kind ha)

end

theorem Names.map (hf : KeepsKinds f) {ts names : List Token} (h : Names ts names) :
    Names (ts.map f) (names.map f) := by
  induction h with
  | last hk => exact .last (hf.kind hk)
  | more hk hc _ ih => exact .more (hf.kind hk) (hf.kind hc) ih

theorem Params.map (hf : KeepsKinds f) {ts names : List Token} (h : Params ts names) :
    Params (ts.map f) (names.map f) := by
  cases h with
  | none => exact .none
  | some h hlen => exact .some (h.map hf) (by rwa [List.length_map])

theorem Optional.map (hf : KeepsKinds f) {ts : List Token} {e : Option (Expr Unit)}
    (h : Optional ts e) : Optional (ts.map f) (e.map (Expr.map f id)) := by
  cases h with
  | none => exact .none
  | some h => exact .some (h.map hf)

theorem VarDecl.map (hf : KeepsKinds f) {ts : List Token} {s : Stmt Unit} (h : VarDecl ts s)
    (n : Nat) : VarDecl (ts.map f) (s.map f (fun _ => id) n) := by
  cases h with
  | plain hw hn hs => exact .plain (hf.kind hw) (hf.kind hn) (hf.kind hs)
  | initialized hw hn he h hs =>
      rw [List.map_append]
      exact .initialized (hf.kind hw) (hf.kind hn) (hf.kind he) (h.map hf) (hf.kind hs)

theorem ExpressionStatement.map (hf : KeepsKinds f) {ts : List Token} {s : Stmt Unit}
    (h : ExpressionStatement ts s) (n : Nat) :
    ExpressionStatement (ts.map f) (s.map f (fun _ => id) n) := by
  cases h with
  | mk h hs =>
      rw [List.map_append]
      exact .mk (h.map hf) (hf.kind hs)

theorem ForInitializer.map (hf : KeepsKinds f) {ts : List Token} {s : Option (Stmt Unit)}
    (h : ForInitializer ts s) (n : Nat) :
    ForInitializer (ts.map f) (s.map (Stmt.map f (fun _ => id) n)) := by
  cases h with
  | none hs => exact .none (hf.kind hs)
  | var h => exact .var (h.map hf n)
  | expression h => exact .expression (h.map hf n)

theorem Superclass.map (hf : KeepsKinds f) {ts : List Token} {r : Option (Reference Unit)}
    (h : Superclass ts r) : Superclass (ts.map f) (r.map (Reference.map f id)) := by
  cases h with
  | none => exact .none
  | some hl hn => exact .some (hf.kind hl) (hf.kind hn)

/-- The loop that stands for a `for` statement, with other tokens. Its parts lie deeper if
it needs blocks around them. -/
theorem whileForm_map (initializer : Option (Stmt Unit)) (condition increment : Option (Expr Unit))
    (body : Stmt Unit) (n : Nat) :
    ∃ m, (whileForm initializer condition increment body).map f (fun _ => id) n =
      whileForm (initializer.map (Stmt.map f (fun _ => id) (n + 1)))
        (condition.map (Expr.map f id)) (increment.map (Expr.map f id))
        (body.map f (fun _ => id) m) := by
  cases initializer <;> cases increment <;> cases condition <;> exact ⟨_, rfl⟩

variable {rule : ElseRule}

mutual

theorem Declaration.map (hf : KeepsKinds f) {isOpen : Bool} {ts : List Token} {s : Stmt Unit}
    (h : Declaration rule isOpen ts s) (n : Nat) :
    Declaration rule isOpen (ts.map f) (s.map f (fun _ => id) n) := by
  match h with
  | .classDecl hw hn hp hb hms ha =>
      rw [List.map_append, List.map_append]
      exact .classDecl (hf.kind hw) (hf.kind hn) (hp.map hf) (hf.kind hb) (hms.map hf _)
        (hf.kind ha)
  | .function hw h => exact .function (hf.kind hw) (h.map hf n)
  | .var h => exact .var (h.map hf n)
  | .statement h => exact .statement (h.map hf n)

theorem Function.map (hf : KeepsKinds f) {ts : List Token} {d : FunDecl Unit}
    (h : Function rule ts d) (n : Nat) :
    Function rule (ts.map f) (d.map f (fun _ => id) n) := by
  match h with
  | .mk hn hb hp ha hbody =>
      rw [List.map_append]
      exact .mk (hf.kind hn) (hf.kind hb) (hp.map hf) (hf.kind ha) (hbody.map hf (n + 1))

theorem Functions.map (hf : KeepsKinds f) {ts : List Token} {ds : List (FunDecl Unit)}
    (h : Functions rule ts ds) (n : Nat) :
    Functions rule (ts.map f) (FunDecl.mapAll f (fun _ => id) n ds) := by
  match h with
  | .nil => exact .nil
  | .cons h hrest =>
      rw [List.map_append]
      exact .cons (h.map hf n) (hrest.map hf n)

theorem Block.map (hf : KeepsKinds f) {ts : List Token} {body : List (Stmt Unit)}
    (h : Block rule ts body) (n : Nat) :
    Block rule (ts.map f) (Stmt.mapAll f (fun _ => id) n body) := by
  match h with
  | .mk hb h ha =>
      rw [List.map_append]
      exact .mk (hf.kind hb) (h.map hf n) (hf.kind ha)

theorem Declarations.map (hf : KeepsKinds f) {ts : List Token} {body : List (Stmt Unit)}
    (h : Declarations rule ts body) (n : Nat) :
    Declarations rule (ts.map f) (Stmt.mapAll f (fun _ => id) n body) := by
  match h with
  | .nil => exact .nil
  | .cons h hrest =>
      rw [List.map_append]
      exact .cons (h.map hf n) (hrest.map hf n)

theorem Statement.map (hf : KeepsKinds f) {isOpen : Bool} {ts : List Token} {s : Stmt Unit}
    (h : Statement rule isOpen ts s) (n : Nat) :
    Statement rule isOpen (ts.map f) (s.map f (fun _ => id) n) := by
  match h with
  | .expression h => exact .expression (h.map hf n)
  | .print hw h hs =>
      rw [List.map_append]
      exact .print (hf.kind hw) (h.map hf) (hf.kind hs)
  | .ret hw h hs =>
      rw [List.map_append]
      exact .ret (hf.kind hw) (h.map hf) (hf.kind hs)
  | .block h => exact .block (h.map hf (n + 1))
  | .whileLoop hw hb hc ha h =>
      rw [List.map_append]
      exact .whileLoop (hf.kind hw) (hf.kind hb) (hc.map hf) (hf.kind ha) (h.map hf n)
  | @Statement.forLoop _ _ _ _ _ _ _ _ _ _ i c e b hw hb hi hc hs hinc ha h =>
      obtain ⟨m, hm⟩ := whileForm_map (f := f) i c e b n
      rw [List.map_append, List.map_append, List.map_append, hm]
      exact .forLoop (hf.kind hw) (hf.kind hb) (hi.map hf (n + 1)) (hc.map hf) (hf.kind hs)
        (hinc.map hf) (hf.kind ha) (h.map hf m)
  | .ifThen hw hb hc ha h =>
      rw [List.map_append]
      exact .ifThen (hf.kind hw) (hf.kind hb) (hc.map hf) (hf.kind ha) (h.map hf n)
  | .ifElse hw hb hc ha hthen hadmits ho helse =>
      rw [List.map_append, List.map_append]
      exact .ifElse (hf.kind hw) (hf.kind hb) (hc.map hf) (hf.kind ha) (hthen.map hf n) hadmits
        (hf.kind ho) (helse.map hf n)

end

/-- Tokens of the same kinds are a program with the same tree. -/
theorem Program.map (hf : KeepsKinds f) {ts : List Token} {p : List (Stmt Unit)}
    (h : Program rule ts p) :
    Program rule (ts.map f) (Stmt.mapAll f (fun _ => id) 0 p) := by
  induction h with
  | finish hk => exact .finish (hf.kind hk)
  | semicolon hk _ ih => exact .semicolon (hf.kind hk) ih
  | declaration h _ ih =>
      rw [List.map_append]
      exact .declaration (h.map hf 0) ih

end Grammar
end Lox
