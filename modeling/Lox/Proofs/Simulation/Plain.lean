import Lox.Proofs.Mapping
import Lox.Proofs.Simulation.Relations

/-!
# Spots where nothing is different

Two runs that differ in some places of the text may do without a difference in others.
There a program is related to itself, wherever its tokens stand.
-/

namespace Lox

/-- References that are the same but for the places of their tokens. -/
inductive SameReference : Expr Slot → Expr Slot → Prop
  | var {t t' : Token} {slot : Slot} : t.Alike t' → SameReference (.var t slot) (.var t' slot)
  | assign {t t' : Token} {slot : Slot} {e e' : Expr Slot} :
      t.Alike t' → SameReference (.assign t slot e) (.assign t' slot e')
  | thisRef {t t' : Token} {slot : Slot} :
      t.Alike t' → SameReference (.thisRef t slot) (.thisRef t' slot)
  | superRef {t t' method method' : Token} {slot : Slot} :
      t.Alike t' → SameReference (.superRef t method slot) (.superRef t' method' slot)

/-- What is opened, and the same with other tokens. -/
inductive Opening.Moved (f : Token → Token) : Opening → Opening → Prop
  | block {n : Nat} {body : List (Stmt Slot)} :
      Moved f (.block body) (.block (Stmt.mapAll f (fun _ => id) n body))
  | call {n : Nat} {d : FunDecl Slot} : Moved f (.call d) (.call (d.map f (fun _ => id) n))
  | superclass {n : Nat} {s : Stmt Slot} :
      Moved f (.superclass s) (.superclass (s.map f (fun _ => id) n))
  | receiver {n : Nat} {d : FunDecl Slot} :
      Moved f (.receiver d) (.receiver (d.map f (fun _ => id) n))

namespace Opening.Moved

variable {f : Token → Token} {o u : Opening}

theorem initial (h : Opening.Moved f o u) (hf : KeepsTexts f) : o.initial = u.initial := by
  cases h with
  | @call n d =>
      cases d with
      | mk t params body =>
          show params.map (·.lexeme) = (params.map f).map (·.lexeme)
          rw [List.map_map]
          exact List.map_congr_left fun u _ => (hf u).lexeme
  | block | superclass | receiver => rfl

theorem eq_of_id (h : Opening.Moved id o u) : o = u := by
  cases h with
  | block => rw [Stmt.mapAll_id]
  | call => rw [FunDecl.map_id]
  | superclass => rw [Stmt.map_id]
  | receiver => rw [FunDecl.map_id]

end Opening.Moved

namespace Comparison

/-- Spots at which code that is the same but for the places of its tokens is related. -/
structure PlainSpots (C : Comparison) (plain : C.Spot → Prop) : Prop where
  refers {p : C.Spot} {e e' : Expr Slot} : plain p → SameReference e e' → C.Refers p e e'
  declares {p : C.Spot} {t t' : Token} : plain p → t.Alike t' → C.Declares p t t' p p
  opens {p : C.Spot} {o u : Opening} :
    plain p → o.initial = u.initial → ∃ q, plain q ∧ C.Opens p o u q

/-- Spots at which code is related to the same code with other tokens. -/
structure MovedSpots (C : Comparison) (plain : C.Spot → Prop) (f : Token → Token) : Prop where
  texts : KeepsTexts f
  refers {p : C.Spot} {e e' : Expr Slot} : plain p → SameReference e e' → C.Refers p e e'
  declares {p : C.Spot} {t t' : Token} : plain p → t.Alike t' → C.Declares p t t' p p
  opens {p : C.Spot} {o u : Opening} :
    plain p → Opening.Moved f o u → ∃ q, plain q ∧ C.Opens p o u q

namespace MovedSpots

variable {C : Comparison} {plain : C.Spot → Prop} {f : Token → Token}

mutual

theorem exprRel (h : C.MovedSpots plain f) {p : C.Spot} (hp : plain p)
    (e : Expr Slot) : C.ExprRel p e (e.map f id) := by
  cases e with
  | literal value => exact .literal
  | unary operator a => exact .unary (h.texts _) (exprRel h hp a)
  | binary a operator b => exact .binary (h.texts _) (exprRel h hp a) (exprRel h hp b)
  | logical a operator b => exact .logical (h.texts _) (exprRel h hp a) (exprRel h hp b)
  | conditional a b c =>
      exact .conditional (exprRel h hp a) (exprRel h hp b) (exprRel h hp c)
  | grouping a => exact .grouping (exprRel h hp a)
  | var t slot => exact .var (h.refers hp (.var (h.texts t)))
  | assign t slot a => exact .assign (h.refers hp (.assign (h.texts t))) (exprRel h hp a)
  | call a paren es => exact .call (exprRel h hp a) (exprsRel h hp es)
  | get a name => exact .get (h.texts _) (exprRel h hp a)
  | set a name b => exact .set (h.texts _) (exprRel h hp a) (exprRel h hp b)
  | thisRef t slot => exact .thisRef (h.refers hp (.thisRef (h.texts t)))
  | superRef t method slot => exact .superRef (h.texts _) (h.refers hp (.superRef (h.texts t)))
  | vector bracket es => exact .vector (exprsRel h hp es)

theorem exprsRel (h : C.MovedSpots plain f) {p : C.Spot} (hp : plain p)
    (es : List (Expr Slot)) : C.ExprsRel p es (Expr.mapAll f id es) := by
  cases es with
  | nil => exact .nil
  | cons e es => exact .cons (exprRel h hp e) (exprsRel h hp es)

end

mutual

theorem stmtRel (h : C.MovedSpots plain f) {p : C.Spot} (hp : plain p) (n : Nat)
    (s : Stmt Slot) : C.StmtRel p s (s.map f (fun _ => id) n) p := by
  cases s with
  | expression e => exact .expression (exprRel h hp e)
  | print e => exact .print (exprRel h hp e)
  | varDecl t initializer =>
      cases initializer with
      | none => exact .varPlain (h.declares hp (h.texts t))
      | some e => exact .varDecl (h.declares hp (h.texts t)) (exprRel h hp e)
  | block body =>
      have hmoved : Opening.Moved f (.block body)
          (.block (Stmt.mapAll f (fun _ => id) (n + 1) body)) := .block
      obtain ⟨q, hq, ho⟩ := h.opens hp hmoved
      exact .block ho (stmtsRel h hq (n + 1) body)
  | ifThen c a => exact .ifThen (exprRel h hp c) (stmtRel h hp n a)
  | ifElse c a b =>
      exact .ifElse (exprRel h hp c) (stmtRel h hp n a) (stmtRel h hp n b)
  | whileLoop c a => exact .whileLoop (exprRel h hp c) (stmtRel h hp n a)
  | function d =>
      have hname : d.name.Alike (d.map f (fun _ => id) n).name := by
        cases d
        exact h.texts _
      exact .function (h.declares hp hname) (funRel h hp n d)
  | ret keyword value =>
      cases value with
      | none => exact .retPlain
      | some e => exact .ret (exprRel h hp e)
  | classDecl t superclass methods =>
      cases superclass with
      | none =>
          exact .plainClass (h.texts t).lexeme (h.declares hp (h.texts t))
            (methodsRel h hp _ methods)
      | some parent =>
          obtain ⟨q, hq, ho⟩ :=
            h.opens hp (.superclass (n := n) (s := .classDecl t (some parent) methods))
          exact .derivedClass (h.texts t).lexeme (h.declares hp (h.texts t))
            (h.refers hp (.var (h.texts parent.name))) ho (methodsRel h hq _ methods)

theorem stmtsRel (h : C.MovedSpots plain f) {p : C.Spot} (hp : plain p) (n : Nat)
    (ss : List (Stmt Slot)) : C.StmtsRel p ss (Stmt.mapAll f (fun _ => id) n ss) := by
  cases ss with
  | nil => exact .nil
  | cons s ss => exact .cons (stmtRel h hp n s) (stmtsRel h hp n ss)

theorem funRel (h : C.MovedSpots plain f) {p : C.Spot} (hp : plain p) (n : Nat)
    (d : FunDecl Slot) : C.FunRel p d (d.map f (fun _ => id) n) := by
  cases d with
  | mk t params body =>
      obtain ⟨q, hq, ho⟩ := h.opens hp (.call (n := n) (d := .mk t params body))
      exact .mk (h.texts t).lexeme (List.length_map ..).symm ho (stmtsRel h hq (n + 1) body)

theorem methodsRel (h : C.MovedSpots plain f) {p : C.Spot} (hp : plain p)
    (n : Nat) (ds : List (FunDecl Slot)) :
    C.MethodsRel p ds (FunDecl.mapAll f (fun _ => id) n ds) := by
  cases ds with
  | nil => exact .nil
  | cons d ds =>
      obtain ⟨q, hq, ho⟩ := h.opens hp (.receiver (n := n) (d := d))
      exact .cons ho (funRel h hq n d) (methodsRel h hp n ds)

end

end MovedSpots

/-- Spots at which code is related to itself. -/
abbrev SelfSpots (C : Comparison) (plain : C.Spot → Prop) : Prop :=
  C.MovedSpots plain id

namespace SelfSpots

variable {C : Comparison} {plain : C.Spot → Prop}

theorem exprRel_self (h : C.SelfSpots plain) {p : C.Spot} (hp : plain p) (e : Expr Slot) :
    C.ExprRel p e e := by
  have hrel := MovedSpots.exprRel h hp e
  rwa [Expr.map_id] at hrel

theorem stmtRel_self (h : C.SelfSpots plain) {p : C.Spot} (hp : plain p) (s : Stmt Slot) :
    C.StmtRel p s s p := by
  have hrel := MovedSpots.stmtRel h hp 0 s
  rwa [Stmt.map_id] at hrel

theorem stmtsRel_self (h : C.SelfSpots plain) {p : C.Spot} (hp : plain p)
    (ss : List (Stmt Slot)) : C.StmtsRel p ss ss := by
  have hrel := MovedSpots.stmtsRel h hp 0 ss
  rwa [Stmt.mapAll_id] at hrel

theorem funRel_self (h : C.SelfSpots plain) {p : C.Spot} (hp : plain p) (d : FunDecl Slot) :
    C.FunRel p d d := by
  have hrel := MovedSpots.funRel h hp 0 d
  rwa [FunDecl.map_id] at hrel

end SelfSpots

namespace PlainSpots

variable {C : Comparison} {plain : C.Spot → Prop} {f : Token → Token}

theorem moved (h : C.PlainSpots plain) (hf : KeepsTexts f) : C.MovedSpots plain f where
  texts := hf
  refers := h.refers
  declares := h.declares
  opens hp hmoved := h.opens hp (hmoved.initial hf)

theorem self (h : C.PlainSpots plain) : C.SelfSpots plain :=
  h.moved fun _ => ⟨rfl, rfl⟩

theorem stmtsRel (h : C.PlainSpots plain) {p : C.Spot} (hp : plain p) (hf : KeepsTexts f) (n : Nat)
    (ss : List (Stmt Slot)) : C.StmtsRel p ss (Stmt.mapAll f (fun _ => id) n ss) :=
  (h.moved hf).stmtsRel hp n ss

theorem stmtsRel_self (h : C.PlainSpots plain) {p : C.Spot} (hp : plain p)
    (ss : List (Stmt Slot)) : C.StmtsRel p ss ss :=
  h.self.stmtsRel_self hp ss

theorem funRel_self (h : C.PlainSpots plain) {p : C.Spot} (hp : plain p) (d : FunDecl Slot) :
    C.FunRel p d d :=
  h.self.funRel_self hp d

end PlainSpots
end Comparison
end Lox
