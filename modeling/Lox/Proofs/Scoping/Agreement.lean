import Lox.Proofs.Scoping.Chains

/-!
# A run follows its scopes

Accepted programs are compared with themselves. Since resolution and the evaluator
open scopes and frames at the same fragments, and change names at the same
declarations, the current environment belongs to the place of whatever is evaluated,
at every moment of a run.
-/

namespace Lox

variable {programs : List (List (Stmt Slot))}

namespace FrameLog

variable {w : FrameLog} {V : ValueRelation} {p : Place} {E : Env} {F F' : Frames Value}

/-- Binding a name that the innermost scope of a place declares. -/
theorem Store.define (h : Store w V F F') (hE : w.Chain p E) {name : String}
    (hdeclares : ∀ l ∈ p.head?, l.opening.Declares name) :
    ∃ w', w.Later w' ∧ w'.Chain (p.define name) E ∧ ∀ V' v v', V.Extends V' → V' v v' →
      Store w' V' (F.define E name v) (F'.define E name v') := by
  cases hE with
  | global =>
      refine ⟨w, Later.refl w, .global, fun V' v v' hV hv => ?_⟩
      exact (h.imp hV).bind_same h.global hv fun o E hmade => absurd rfl (h.logged 0 _ hmade).1
  | @frame l p k E hmade hk hbound hE =>
      refine ⟨w.bind k [name], later_bind k [name], ?_, fun V' v v' hV hv => ?_⟩
      · refine .frame hmade hk (fun n hn => ?_) (hE.later (later_bind k [name]))
        rcases (Scope.isDefined_define l.scope name n).mp hn with rfl | hn
        · exact .inr ⟨rfl, List.mem_singleton_self n⟩
        · exact .inl (hbound n hn)
      · refine (h.imp hV).bind (h.logged k _ hmade).2 hv fun o E' hmade' => ?_
        rw [hmade] at hmade'
        cases hmade'
        exact hdeclares l rfl

/-- Binding such a name again. -/
theorem Store.redefine (h : Store w V F F') {name : String}
    (hE : w.Chain (p.define name) E) (hdeclares : ∀ l ∈ p.head?, l.opening.Declares name)
    {v v' : Value} (hv : V v v') : Store w V (F.define E name v) (F'.define E name v') := by
  cases p with
  | nil =>
      cases hE
      exact h.bind_same h.global hv fun o E hmade => absurd rfl (h.logged 0 _ hmade).1
  | cons l p =>
      cases hE with
      | frame hmade hk _ _ =>
          refine h.bind_same (h.logged _ _ hmade).2 hv fun o E' hmade' => ?_
          rw [hmade] at hmade'
          cases hmade'
          exact hdeclares l rfl

theorem Chain.declare (h : w.Chain p E) (name : String) : w.Chain (p.declare name) E := by
  cases h with
  | global => exact .global
  | frame hmade hk hbound hE =>
      exact .frame hmade hk
        (fun n hn => hbound n ((Scope.isDefined_declare _ name n).mp hn).2) hE

/-- Making the frame of a scope. -/
theorem Store.open (h : Store w V F F') (hE : w.Chain p E) (o : Opening) (label label' : String) :
    ∃ w', w.Later w' ∧
      ((F.enter label E).1 = (F'.enter label' E).1 ∧ w'.Chain (p.enter o) (F.enter label E).1) ∧
      ∀ V' vs vs', V.Extends V' → List.Forall₂ V' vs vs' → vs.length = o.initial.length →
        Store w' V' ((F.enter label E).2.defineAll (F.enter label E).1 (o.initial.zip vs))
          ((F'.enter label' E).2.defineAll (F'.enter label' E).1 (o.initial.zip vs')) := by
  have hlater := (h.later_make o E).trans (later_bind w.size o.initial)
  have hmade : ((w.make o E).bind w.size o.initial).made w.size = some (o, E) := if_pos rfl
  have henv : (F.enter label E).1 = w.size :: E := congrArg (· :: E) h.size
  have henv' : (F'.enter label' E).1 = w.size :: E := congrArg (· :: E) h.size'
  refine ⟨_, hlater, ⟨henv.trans henv'.symm, ?_⟩, fun V' vs vs' hV hvs hlen => ?_⟩
  · rw [henv]
    exact .frame hmade (Nat.ne_of_gt h.global)
      (fun n hn => .inr ⟨rfl, (o.isDefined_scope n).mp hn⟩) (hE.later hlater)
  · rw [henv, henv']
    refine ((h.imp hV).make o E label label' E E).defineAll (Nat.lt_succ_self _) hvs hlen ?_
    intro n hn o' E' hmade'
    rw [show (w.make o E).made w.size = some (o, E) from hmade] at hmade'
    cases hmade'
    exact .inl hn

end FrameLog

open FrameLog

/-- Runs of accepted programs, each compared with itself. -/
def scoping (haccepted : ∀ program ∈ programs, Accepted program) : Comparison where
  Misses := False
  World := FrameLog
  Later := FrameLog.Later
  Spot := Place
  Env w p E E' := E = E' ∧ w.Chain p E
  Store := FrameLog.Store
  Refers p e e' := e = e' ∧ Occurs programs p (.expr e)
  Declares p t t' q r := t = t' ∧ q = p.declare t.lexeme ∧ r = p.define t.lexeme ∧
    ∀ l ∈ p.head?, l.opening.Declares t.lexeme
  Opens p o o' q := o = o' ∧ q = p.enter o
  later_refl := Later.refl
  later_trans := Later.trans
  env_later hw hE := ⟨hE.1, hE.2.later hw⟩
  seek := by
    intro w V p E E' F F' t t' slot slot' node hnode hr hE hF
    obtain ⟨heq, hoccurs⟩ := hr
    obtain ⟨rfl, hE⟩ := hE
    obtain ⟨_, hread⟩ := (hoccurs.resolved haccepted).read hnode
    have htoken : t = t' ∧ slot = slot' := by
      rcases hnode with rfl | rfl <;> exact ⟨by injection heq, by injection heq⟩
    obtain ⟨rfl, rfl⟩ := htoken
    cases slot with
    | none => exact hF.getGlobal E E t.lexeme
    | some d =>
        obtain ⟨l, hl, hdefined⟩ := hread d rfl
        obtain ⟨k, hk, _, _, _, hbound⟩ := hE.at hl
        exact hF.getAt hk (hbound _ hdefined)
  target := by
    intro w V p E E' F F' t t' slot slot' e e' hr hE hF
    obtain ⟨heq, hoccurs⟩ := hr
    obtain ⟨rfl, hE⟩ := hE
    cases heq
    obtain ⟨_, hassigned⟩ := (hoccurs.resolved haccepted).assigned
    cases slot with
    | none =>
        have hrel := hF.values 0 t.lexeme
        simp only [Frames.target, Frames.owner?_globalEnv]
        generalize hx : F.binding? 0 t.lexeme = x at hrel
        generalize F'.binding? 0 t.lexeme = x' at hrel
        cases hrel with
        | none => exact .undefined
        | some _ =>
            refine .found ⟨w, Later.refl w, fun V' v v' hV hv => ?_⟩
            exact (hF.imp hV).bind_same hF.global hv fun o D hmade =>
              absurd rfl (hF.logged 0 _ hmade).1
    | some d =>
        obtain ⟨l, hl, _, hdeclares⟩ := hassigned d rfl
        obtain ⟨k, hk, _, _, hmade, _⟩ := hE.at hl
        simp only [Frames.target, hk]
        refine .found ⟨w, Later.refl w, fun V' v v' hV hv => ?_⟩
        refine (hF.imp hV).bind_same (hF.logged k _ hmade).2 hv fun o D hmade' => ?_
        rw [hmade] at hmade'
        cases hmade'
        exact hdeclares
  superclass := by
    intro w V p E E' F F' t t' method method' slot slot' hr hE hF
    obtain ⟨heq, hoccurs⟩ := hr
    obtain ⟨rfl, hE⟩ := hE
    cases heq
    obtain ⟨_, _, d, l, l', rfl, hl, hsuper, hl', hthis⟩ := (hoccurs.resolved haccepted).superRef
    obtain ⟨k, hk, _, _, _, hbound⟩ := hE.at hl
    obtain ⟨k', hk', _, _, _, hbound'⟩ := hE.at hl'
    exact .inr ⟨d + 1, d + 1, rfl, rfl, hF.getAt hk (hbound _ hsuper),
      hF.getAt hk' (hbound' _ hthis)⟩
  receiver := by
    intro w V p q f f' E E' F F' ho hE hF
    obtain ⟨_, rfl⟩ := ho
    obtain ⟨rfl, hE⟩ := hE
    obtain ⟨k, hk, _, _, _, hbound⟩ := hE.at (d := 0) rfl
    exact hF.getAt hk (hbound _ ((Opening.isDefined_scope ..).mpr List.mem_cons_self))
  pending := by
    intro w p q r t t' E E' hd hE
    obtain ⟨_, rfl, _, _⟩ := hd
    exact ⟨hE.1, hE.2.declare _⟩
  declare := by
    intro w V p q r t t' E E' F F' hd hE hF
    obtain ⟨rfl, _, rfl, hdeclares⟩ := hd
    obtain ⟨rfl, hE⟩ := hE
    obtain ⟨w', hw, hE', hstore⟩ := hF.define hE hdeclares
    exact ⟨w', hw, ⟨rfl, hE'⟩, hstore⟩
  redeclare := by
    intro w V p q r t t' E E' F F' v v' hd hE hF hv
    obtain ⟨rfl, _, rfl, hdeclares⟩ := hd
    obtain ⟨rfl, hE⟩ := hE
    exact hF.redefine hE hdeclares hv
  opens := by
    intro w V p q o o' E E' F F' label label' ho _ hE hF
    obtain ⟨rfl, rfl⟩ := ho
    obtain ⟨rfl, hE⟩ := hE
    exact hF.open hE o label label'

/-! ## Accepted programs are related to themselves -/

section

variable (haccepted : ∀ program ∈ programs, Accepted program)

theorem Occurs.part {p : Place} {e x : Expr Slot} (h : Occurs programs p (.expr e))
    (hx : x ∈ e.parts) : Occurs programs p (.expr x) :=
  h.inside (List.mem_map.mpr ⟨x, hx, rfl⟩)

mutual

theorem exprRel_self {p : Place} (e : Expr Slot) (h : Occurs programs p (.expr e)) :
    (scoping haccepted).ExprRel p e e := by
  match e with
  | .literal _ => exact .literal
  | .unary _ a => exact .unary ⟨rfl, rfl⟩ (exprRel_self a (h.part (by simp [Expr.parts])))
  | .binary a _ b =>
      exact .binary ⟨rfl, rfl⟩ (exprRel_self a (h.part (by simp [Expr.parts])))
        (exprRel_self b (h.part (by simp [Expr.parts])))
  | .logical a _ b =>
      exact .logical ⟨rfl, rfl⟩ (exprRel_self a (h.part (by simp [Expr.parts])))
        (exprRel_self b (h.part (by simp [Expr.parts])))
  | .conditional a b c =>
      exact .conditional (exprRel_self a (h.part (by simp [Expr.parts])))
        (exprRel_self b (h.part (by simp [Expr.parts])))
        (exprRel_self c (h.part (by simp [Expr.parts])))
  | .grouping a => exact .grouping (exprRel_self a (h.part (by simp [Expr.parts])))
  | .var _ _ => exact .var ⟨rfl, h⟩
  | .assign _ _ a => exact .assign ⟨rfl, h⟩ (exprRel_self a (h.part (by simp [Expr.parts])))
  | .call a _ es =>
      exact .call (exprRel_self a (h.part (by simp [Expr.parts])))
        (exprsRel_self es fun x hx => h.part (List.mem_cons_of_mem a hx))
  | .get a _ => exact .get ⟨rfl, rfl⟩ (exprRel_self a (h.part (by simp [Expr.parts])))
  | .set a _ b =>
      exact .set ⟨rfl, rfl⟩ (exprRel_self a (h.part (by simp [Expr.parts])))
        (exprRel_self b (h.part (by simp [Expr.parts])))
  | .thisRef _ _ => exact .thisRef ⟨rfl, h⟩
  | .superRef _ _ _ => exact .superRef ⟨rfl, rfl⟩ ⟨rfl, h⟩
  | .vector _ es => exact .vector (exprsRel_self es fun x hx => h.part hx)

theorem exprsRel_self {p : Place} (es : List (Expr Slot))
    (h : ∀ e ∈ es, Occurs programs p (.expr e)) : (scoping haccepted).ExprsRel p es es := by
  match es with
  | [] => exact .nil
  | e :: es =>
      exact .cons (exprRel_self e (h e List.mem_cons_self))
        (exprsRel_self es fun x hx => h x (List.mem_cons_of_mem e hx))

end

/-- The branches of an `if` and the body of a loop declare nothing. -/
theorem Fragment.Resolved.branches {p : Place} {s : Stmt Slot} (h : Resolved p (.stmt s)) :
    (∀ c a, s = .ifThen c a → a.declared? = none) ∧
      (∀ c a b, s = .ifElse c a b → a.declared? = none ∧ b.declared? = none) ∧
      ∀ c a, s = .whileLoop c a → a.declared? = none := by
  obtain ⟨around, y, _, _, _, hw, _, rfl⟩ := h
  refine ⟨fun c a heq => ?_, fun c a b heq => ?_, fun c a heq => ?_⟩
  · cases y with
    | ifThen c' a' =>
        cases heq
        exact (Stmt.declared?_resolve a').trans hw.2.2
    | _ => cases heq
  · cases y with
    | ifElse c' a' b' =>
        cases heq
        exact ⟨(Stmt.declared?_resolve a').trans hw.2.1.2,
          (Stmt.declared?_resolve b').trans hw.2.2.2⟩
    | _ => cases heq
  · cases y with
    | whileLoop c' a' =>
        cases heq
        exact (Stmt.declared?_resolve a').trans hw.2.2
    | _ => cases heq

/-- What a statement declares, the innermost scope declares. -/
theorem Fragment.Resolved.covers {p : Place} {s : Stmt Slot} (h : Resolved p (.stmt s)) :
    p.Covers s := by
  obtain ⟨_, _, _, _, hcovers, _⟩ := h
  exact hcovers

mutual

theorem stmtRel_self {p : Place} (s : Stmt Slot) (h : Occurs programs p (.stmt s)) :
    (scoping haccepted).StmtRel p s s (p.after s) := by
  have hresolved := h.resolved haccepted
  have hcovers := hresolved.covers
  obtain ⟨hthen, helse, hwhile⟩ := hresolved.branches
  have hbranch : ∀ a : Stmt Slot, a.declared? = none →
      (scoping haccepted).StmtRel p a a (p.after a) → (scoping haccepted).StmtRel p a a p := by
    intro a ha hrel
    rwa [Place.after, ha] at hrel
  match s with
  | .expression e => exact .expression (exprRel_self haccepted e (h.inside List.mem_cons_self))
  | .print e => exact .print (exprRel_self haccepted e (h.inside List.mem_cons_self))
  | .varDecl name none => exact .varPlain ⟨rfl, rfl, rfl, hcovers name rfl⟩
  | .varDecl name (some e) =>
      exact .varDecl ⟨rfl, rfl, rfl, hcovers name rfl⟩
        (exprRel_self haccepted e (h.inside List.mem_cons_self))
  | .block body =>
      exact .block ⟨rfl, rfl⟩ (stmtsRel_self body (h.inside List.mem_cons_self))
  | .ifThen c a =>
      exact .ifThen (exprRel_self haccepted c (h.inside List.mem_cons_self))
        (hbranch a (hthen c a rfl)
          (stmtRel_self a (h.inside (by simp [Fragment.inside]))))
  | .ifElse c a b =>
      exact .ifElse (exprRel_self haccepted c (h.inside List.mem_cons_self))
        (hbranch a (helse c a b rfl).1 (stmtRel_self a (h.inside (by simp [Fragment.inside]))))
        (hbranch b (helse c a b rfl).2 (stmtRel_self b (h.inside (by simp [Fragment.inside]))))
  | .whileLoop c a =>
      exact .whileLoop (exprRel_self haccepted c (h.inside List.mem_cons_self))
        (hbranch a (hwhile c a rfl)
          (stmtRel_self a (h.inside (by simp [Fragment.inside]))))
  | .function f =>
      exact .function ⟨rfl, rfl, rfl, hcovers f.name rfl⟩
        (funRel_self f (h.inside List.mem_cons_self))
  | .ret _ none => exact .retPlain
  | .ret _ (some e) => exact .ret (exprRel_self haccepted e (h.inside List.mem_cons_self))
  | .classDecl name none methods =>
      refine .plainClass rfl ⟨rfl, rfl, rfl, hcovers name rfl⟩ (methodsRel_self methods ?_)
      exact fun f hf => h.inside (List.mem_append_right _ (List.mem_map.mpr ⟨f, hf, rfl⟩))
  | .classDecl name (some parent) methods =>
      refine .derivedClass rfl ⟨rfl, rfl, rfl, hcovers name rfl⟩
        ⟨rfl, h.inside (List.mem_append_left _ List.mem_cons_self)⟩ ⟨rfl, rfl⟩
        (methodsRel_self methods ?_)
      exact fun f hf => h.inside (List.mem_append_right _ (List.mem_map.mpr ⟨f, hf, rfl⟩))

theorem stmtsRel_self {p : Place} (ss : List (Stmt Slot)) (h : Occurs programs p (.body ss)) :
    (scoping haccepted).StmtsRel p ss ss := by
  match ss with
  | [] => exact .nil
  | s :: ss =>
      exact .cons (stmtRel_self s (h.inside List.mem_cons_self))
        (stmtsRel_self ss (h.inside (List.mem_cons_of_mem _ List.mem_cons_self)))

theorem funRel_self {p : Place} (f : FunDecl Slot) (h : Occurs programs p (.function f)) :
    (scoping haccepted).FunRel p f f := by
  match f with
  | .mk name params body =>
      exact .mk rfl rfl ⟨rfl, rfl⟩ (stmtsRel_self body (h.inside List.mem_cons_self))

theorem methodsRel_self {p : Place} (fs : List (FunDecl Slot))
    (h : ∀ f ∈ fs, Occurs programs (p.enter (.receiver f)) (.function f)) :
    (scoping haccepted).MethodsRel p fs fs := by
  match fs with
  | [] => exact .nil
  | f :: fs =>
      exact .cons ⟨rfl, rfl⟩ (funRel_self f (h f List.mem_cons_self))
        (methodsRel_self fs fun x hx => h x (List.mem_cons_of_mem f hx))

end

end

end Lox
