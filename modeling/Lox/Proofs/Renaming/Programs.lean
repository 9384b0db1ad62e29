import Lox.Proofs.Joining.Resolving
import Lox.Proofs.Renaming.Scopes

/-!
# Programs with another name in them

A program in which the occurrences of one local variable get a new name. Fragment by
fragment it has the same slots as the program itself and no fault, and both do the same.
What carries this is that the scopes around a fragment are the same in both, but for the
name of the variable, and that the tokens of the fragment that get the new name are
exactly the occurrences in it.
-/

namespace Lox

theorem Stmt.declared?_map {δ : Type} (f : Token → Token) (stmt : Stmt δ) (m : Nat) :
    (stmt.map f (fun _ => id) m).declared? = stmt.declared?.map f := by
  cases stmt with
  | function d =>
      cases d
      rfl
  | _ => rfl

theorem Stmt.declaredAll_resolve (c : ClassKind) (s : Scopes) (body : List (Stmt Unit)) :
    (Stmt.resolveAll c s body).filterMap Stmt.declared? = body.filterMap Stmt.declared? := by
  induction body generalizing s with
  | nil => rfl
  | cons stmt rest ih =>
      rw [Stmt.resolveAll, List.filterMap_cons, List.filterMap_cons, ih, Stmt.declared?_resolve]

theorem Stmt.declaredAll_cons {δ : Type} (stmt : Stmt δ) (rest : List (Stmt δ)) :
    (stmt :: rest).filterMap Stmt.declared? =
      stmt.declared?.toList ++ rest.filterMap Stmt.declared? := by
  rw [List.filterMap_cons]
  cases stmt.declared? <;> rfl

theorem FunDecl.name_map {δ : Type} (f : Token → Token) (d : FunDecl δ) (m : Nat) :
    (d.map f (fun _ => id) m).name = f d.name := by
  cases d
  rfl

namespace Renaming

variable {decl : Token} {y : String} {replaced : Token → Prop} {f : Token → Token}
  {levels : List Bool} {s s' : Scopes} {t : Token}

/-- The tokens that are replaced get the new name, and all others are kept. -/
structure Renames (decl : Token) (y : String) (replaced : Token → Prop) (f : Token → Token) :
    Prop where
  kind : ∀ t, (f t).kind = t.kind
  renamed : ∀ t, replaced t → (f t).lexeme = y
  kept : ∀ t, ¬ replaced t → (f t).lexeme = t.lexeme
  old : TokenKind.ofWord decl.lexeme = .identifier
  new : TokenKind.ofWord y = .identifier

/-! ## What becomes of a token -/

theorem ne_this_of_ofWord {n : String} (h : TokenKind.ofWord n = .identifier) : thisName ≠ n := by
  rintro rfl
  exact absurd h (by decide)

theorem ne_super_of_ofWord {n : String} (h : TokenKind.ofWord n = .identifier) :
    superName ≠ n := by
  rintro rfl
  exact absurd h (by decide)

namespace Renames

theorem alike (h : Renames decl y replaced f) (ht : ¬ replaced t) : t.Alike (f t) :=
  ⟨(h.kind t).symm, (h.kept t ht).symm⟩

theorem this (h : Renames decl y replaced f) (b : Bool) :
    exchange decl.lexeme y b thisName = thisName :=
  exchange_of_ne (ne_this_of_ofWord h.old) (ne_this_of_ofWord h.new)

theorem super (h : Renames decl y replaced f) (b : Bool) :
    exchange decl.lexeme y b superName = superName :=
  exchange_of_ne (ne_super_of_ofWord h.old) (ne_super_of_ofWord h.new)

/-- A token of a place at which `b` tells whether the variable is meant. -/
theorem lexeme (h : Renames decl y replaced f) {b : Bool} (hfresh : t.lexeme ≠ y)
    (ht : replaced t ↔ t.lexeme = decl.lexeme ∧ b = true) :
    (f t).lexeme = exchange decl.lexeme y b t.lexeme := by
  by_cases hr : replaced t
  · obtain ⟨hname, rfl⟩ := ht.mp hr
    rw [h.renamed t hr, hname, exchange_left]
  · rw [h.kept t hr]
    cases b with
    | false => rfl
    | true =>
        have hname : t.lexeme ≠ decl.lexeme := fun hname => hr (ht.mpr ⟨hname, rfl⟩)
        exact (exchange_of_ne hname hfresh).symm

theorem reference (h : Renames decl y replaced f) {slot : Slot}
    (hm : Marked replaced y [t] (usesOf decl levels t slot)) :
    (f t).lexeme = exchange decl.lexeme y (leadsTo levels slot) t.lexeme := by
  refine h.lexeme hm.fresh_head ((hm.occurs t List.mem_cons_self).trans ?_)
  rw [usesOf]
  split
  · next huse => exact iff_of_true List.mem_cons_self huse
  · next huse => exact iff_of_false List.not_mem_nil huse

end Renames

/-! ## Fragments in both programs -/

section

variable (x y : String) (f : Token → Token) (levels : List Bool) (c : ClassKind) (s s' : Scopes)

/-- What both programs have in common at an expression. -/
structure SameExpr (e : Expr Unit) : Prop where
  slots : (e.map f id).resolve c s' = (e.resolve c s).map f id
  faultless : (e.map f id).scopeFaults c s' = []
  related : (otherName x y).ExprRel levels (e.resolve c s) ((e.resolve c s).map f id)

structure SameExprs (es : List (Expr Unit)) : Prop where
  slots : Expr.resolveAll c s' (Expr.mapAll f id es) = Expr.mapAll f id (Expr.resolveAll c s es)
  faultless : Expr.scopeFaultsAll c s' (Expr.mapAll f id es) = []
  related : (otherName x y).ExprsRel levels (Expr.resolveAll c s es)
    (Expr.mapAll f id (Expr.resolveAll c s es))

end

namespace Renames

mutual

theorem expr (h : Renames decl y replaced f) (hs : ScopesRel decl.lexeme y levels s s')
    (c : ClassKind) (e : Expr Unit) (hw : e.WellFormed) (hf : e.scopeFaults c s = [])
    (hm : Marked replaced y (e.resolve c s).tokens ((e.resolve c s).uses decl levels)) :
    SameExpr decl.lexeme y f levels c s s' e := by
  cases e with
  | literal value => exact ⟨rfl, rfl, .literal⟩
  | unary operator a =>
      obtain ⟨hoperator, ha⟩ := hm.keeps (Expr.within_uses levels (a.resolve c s))
      have ha := expr h hs c a hw hf ha
      exact ⟨congrArg (Expr.unary _) ha.slots, ha.faultless, .unary (h.alike hoperator) ha.related⟩
  | binary a operator b | logical a operator b =>
      obtain ⟨hoperator, hm⟩ := hm.keeps (.append (Expr.within_uses _ _) (Expr.within_uses _ _))
      obtain ⟨ha, hb⟩ := hm.parts (Expr.within_uses _ _) (Expr.within_uses _ _)
      obtain ⟨hfa, hfb⟩ := List.append_eq_nil_iff.mp hf
      have ha := expr h hs c a hw.1 hfa ha
      have hb := expr h hs c b hw.2 hfb hb
      refine ⟨?_, ?_, ?_⟩
      · simp only [Expr.map, Expr.resolve, ha.slots, hb.slots]
      · simp only [Expr.map, Expr.scopeFaults, ha.faultless, hb.faultless, List.append_nil]
      · constructor
        exacts [h.alike hoperator, ha.related, hb.related]
  | conditional a b d =>
      obtain ⟨ha, hm⟩ := hm.parts (Expr.within_uses _ _)
        (.append (Expr.within_uses _ _) (Expr.within_uses _ _))
      obtain ⟨hb, hd⟩ := hm.parts (Expr.within_uses _ _) (Expr.within_uses _ _)
      obtain ⟨hfab, hfd⟩ := List.append_eq_nil_iff.mp hf
      obtain ⟨hfa, hfb⟩ := List.append_eq_nil_iff.mp hfab
      have ha := expr h hs c a hw.1 hfa ha
      have hb := expr h hs c b hw.2.1 hfb hb
      have hd := expr h hs c d hw.2.2 hfd hd
      refine ⟨?_, ?_, .conditional ha.related hb.related hd.related⟩
      · simp only [Expr.map, Expr.resolve, ha.slots, hb.slots, hd.slots]
      · simp only [Expr.map, Expr.scopeFaults, ha.faultless, hb.faultless, hd.faultless,
          List.append_nil]
  | grouping a =>
      have ha := expr h hs c a hw hf hm
      exact ⟨congrArg Expr.grouping ha.slots, ha.faultless, .grouping ha.related⟩
  | var t =>
      have hname := h.reference hm
      have hfresh := hm.fresh_head
      refine ⟨?_, ?_, .var (.var hname)⟩
      · simp only [Expr.map, Expr.resolve, hname, hs.distanceTo? hfresh, id]
      · simp only [Expr.map, Expr.scopeFaults, hname, hs.isPending hfresh]
        rw [Expr.scopeFaults] at hf
        split at hf
        · cases hf
        · next hp => exact if_neg hp
  | assign t slot a =>
      have hsplit : Marked replaced y ([t] ++ (a.resolve c s).tokens) (_ ++ _) := hm
      obtain ⟨ht, ha⟩ := hsplit.parts (within_usesOf _ _) (Expr.within_uses _ _)
      have hname := h.reference ht
      have ha := expr h hs c a hw.2 hf ha
      refine ⟨?_, ha.faultless, .assign (.assign hname) ha.related⟩
      simp only [Expr.map, Expr.resolve, hname, hs.distanceTo? ht.fresh_head, ha.slots, id]
  | call a paren es =>
      obtain ⟨_, hm⟩ := hm.keeps (.append (Expr.within_uses _ _) (Expr.within_usesAll _ _))
      obtain ⟨ha, hes⟩ := hm.parts (Expr.within_uses _ _) (Expr.within_usesAll _ _)
      obtain ⟨hfa, hfes⟩ := List.append_eq_nil_iff.mp hf
      have ha := expr h hs c a hw.1 hfa ha
      have hes := exprs h hs c es hw.2 hfes hes
      refine ⟨?_, ?_, .call ha.related hes.related⟩
      · simp only [Expr.map, Expr.resolve, ha.slots, hes.slots]
      · simp only [Expr.map, Expr.scopeFaults, ha.faultless, hes.faultless, List.append_nil]
  | get a name =>
      obtain ⟨hname, ha⟩ := hm.keeps (Expr.within_uses levels (a.resolve c s))
      have ha := expr h hs c a hw hf ha
      refine ⟨?_, ha.faultless, .get (h.alike hname) ha.related⟩
      simp only [Expr.map, Expr.resolve, ha.slots]
  | set a name b =>
      obtain ⟨hname, hm⟩ := hm.keeps (.append (Expr.within_uses _ _) (Expr.within_uses _ _))
      obtain ⟨ha, hb⟩ := hm.parts (Expr.within_uses _ _) (Expr.within_uses _ _)
      obtain ⟨hfb, hfa⟩ := List.append_eq_nil_iff.mp hf
      have ha := expr h hs c a hw.1 hfa ha
      have hb := expr h hs c b hw.2 hfb hb
      refine ⟨?_, ?_, .set (h.alike hname) ha.related hb.related⟩
      · simp only [Expr.map, Expr.resolve, ha.slots, hb.slots]
      · simp only [Expr.map, Expr.scopeFaults, ha.faultless, hb.faultless, List.append_nil]
  | thisRef t =>
      have hnone : Within decl [] [] := within_nil
      have hkept := h.alike (hm.keeps hnone).1
      have hthis : t.lexeme = thisName := hw
      have hslot := hs.distanceTo? (ne_this_of_ofWord h.new)
      rw [h.this] at hslot
      refine ⟨?_, ?_, .thisRef (.thisRef ?_)⟩
      · simp only [Expr.map, Expr.resolve, ← hkept.lexeme, hthis, hslot, id]
      · simp only [Expr.map, Expr.scopeFaults]
        rw [Expr.scopeFaults] at hf
        split at hf
        · cases hf
        · next hc => exact if_neg hc
      · rw [← hkept.lexeme, hthis, h.this]
  | superRef t method =>
      have hnone : ∀ ts, Within decl [] ts := fun _ => within_nil
      obtain ⟨ht, hmethod⟩ := hm.keeps (hnone [method])
      have hkept := h.alike ht
      have hsuper : t.lexeme = superName := hw
      have hslot := hs.distanceTo? (ne_super_of_ofWord h.new)
      rw [h.super] at hslot
      refine ⟨?_, ?_, .superRef (h.alike (hmethod.keeps (hnone [])).1) (.superRef fun d _ => ?_)⟩
      · simp only [Expr.map, Expr.resolve, ← hkept.lexeme, hsuper, hslot, id]
      · cases c with
        | derived => rfl
        | none | plain => cases hf
      · rw [h.super, h.this]
        exact ⟨rfl, rfl⟩
  | vector bracket es =>
      obtain ⟨_, hes⟩ := hm.keeps (Expr.within_usesAll levels (Expr.resolveAll c s es))
      have hes := exprs h hs c es hw hf hes
      exact ⟨congrArg (Expr.vector _) hes.slots, hes.faultless, .vector hes.related⟩

theorem exprs (h : Renames decl y replaced f) (hs : ScopesRel decl.lexeme y levels s s')
    (c : ClassKind) (es : List (Expr Unit)) (hw : Expr.WellFormedAll es)
    (hf : Expr.scopeFaultsAll c s es = [])
    (hm : Marked replaced y (Expr.tokensAll (Expr.resolveAll c s es))
      (Expr.usesAll decl levels (Expr.resolveAll c s es))) :
    SameExprs decl.lexeme y f levels c s s' es := by
  cases es with
  | nil => exact ⟨rfl, rfl, .nil⟩
  | cons e es =>
      obtain ⟨he, hes⟩ := hm.parts (Expr.within_uses _ _) (Expr.within_usesAll _ _)
      obtain ⟨hfe, hfes⟩ := List.append_eq_nil_iff.mp hf
      have he := expr h hs c e hw.1 hfe he
      have hes := exprs h hs c es hw.2 hfes hes
      refine ⟨?_, ?_, .cons he.related hes.related⟩
      · simp only [Expr.mapAll, Expr.resolveAll, he.slots, hes.slots]
      · simp only [Expr.mapAll, Expr.scopeFaultsAll, he.faultless, hes.faultless, List.append_nil]

end

end Renames

/-! ## Declarations -/

/-- Of the tokens that declare the names of a scope, those are replaced that have the name
of the variable, if the scope is the one that declares it, as `b` tells. -/
def DeclaredAs (decl : Token) (y : String) (replaced : Token → Prop) (b : Bool)
    (ts : List Token) : Prop :=
  ∀ t ∈ ts, t.lexeme ≠ y ∧ (replaced t ↔ t.lexeme = decl.lexeme ∧ b = true)

namespace Renames

theorem declared (h : Renames decl y replaced f) {b : Bool} {ts : List Token}
    (hts : DeclaredAs decl y replaced b ts) (ht : t ∈ ts) :
    (f t).lexeme = exchange decl.lexeme y b t.lexeme :=
  h.lexeme (hts t ht).1 (hts t ht).2

/-- After a statement the scopes are the same but for the name. -/
theorem after (h : Renames decl y replaced f) (hs : ScopesRel decl.lexeme y levels s s')
    (m : Nat) {stmt : Stmt Unit}
    (hd : DeclaredAs decl y replaced (levels.headD false) stmt.declared?.toList) :
    ScopesRel decl.lexeme y levels (stmt.after s) ((stmt.map f (fun _ => id) m).after s') := by
  rw [Stmt.after_eq, Stmt.after_eq, Stmt.declared?_map]
  cases ht : stmt.declared? with
  | none => exact hs
  | some t =>
      rw [ht] at hd
      have hmem : t ∈ (some t).toList := List.mem_singleton_self t
      have hnext := hs.define (hd t hmem).1
      rwa [← h.declared hd hmem] at hnext

end Renames

/-! ## Statements in both programs -/

section

variable (x y : String) (f : Token → Token) (levels : List Bool) (s s' : Scopes) (m : Nat)

/-- What both programs have in common at a statement, which `m` scopes are around. -/
structure SameStmt (around : Surroundings) (stmt : Stmt Unit) : Prop where
  slots : (stmt.map f (fun _ => id) m).resolve around.cls s' =
    (stmt.resolve around.cls s).map f (fun _ => id) m
  faultless : (stmt.map f (fun _ => id) m).scopeFaults around s' = []
  related : (otherName x y).StmtRel levels (stmt.resolve around.cls s)
    ((stmt.resolve around.cls s).map f (fun _ => id) m) levels

structure SameStmts (around : Surroundings) (body : List (Stmt Unit)) : Prop where
  slots : Stmt.resolveAll around.cls s' (Stmt.mapAll f (fun _ => id) m body) =
    Stmt.mapAll f (fun _ => id) m (Stmt.resolveAll around.cls s body)
  faultless : Stmt.scopeFaultsAll around s' (Stmt.mapAll f (fun _ => id) m body) = []
  related : (otherName x y).StmtsRel levels (Stmt.resolveAll around.cls s body)
    (Stmt.mapAll f (fun _ => id) m (Stmt.resolveAll around.cls s body))

structure SameFun (around : Surroundings) (d : FunDecl Unit) : Prop where
  slots : (d.map f (fun _ => id) m).resolve around.cls s' =
    (d.resolve around.cls s).map f (fun _ => id) m
  faultless : (d.map f (fun _ => id) m).scopeFaults around s' = []
  related : (otherName x y).FunRel levels (d.resolve around.cls s)
    ((d.resolve around.cls s).map f (fun _ => id) m)

/-- Methods stand in the scope of their receiver, but are related around it. -/
structure SameMethods (c : ClassKind) (ds : List (FunDecl Unit)) : Prop where
  slots : FunDecl.resolveAll c s' (FunDecl.mapAll f (fun _ => id) m ds) =
    FunDecl.mapAll f (fun _ => id) m (FunDecl.resolveAll c s ds)
  faultless : FunDecl.scopeFaultsAll c s' (FunDecl.mapAll f (fun _ => id) m ds) = []
  related : (otherName x y).MethodsRel levels (FunDecl.resolveAll c s ds)
    (FunDecl.mapAll f (fun _ => id) m (FunDecl.resolveAll c s ds))

/-- What both programs have in common at the superclass of the class `name`. -/
structure SameSuperclass (name : Token) (r : Reference Unit) : Prop where
  slot : (r.map f id).resolve s' = (r.resolve s).map f id
  faultless : Reference.scopeFaults s' (f name) (some (r.map f id)) = []
  related : Refers x y levels (.var r.name (s.distanceTo? r.name.lexeme))
    (.var (f r.name) (s.distanceTo? r.name.lexeme))

end

namespace Renames

theorem superclass (h : Renames decl y replaced f) (hs : ScopesRel decl.lexeme y levels s s')
    {name : Token} (hname : ¬ replaced name) (hfresh : name.lexeme ≠ y) (r : Reference Unit)
    (hf : Reference.scopeFaults s name (some r) = [])
    (hm : Marked replaced y [r.name]
      (usesOf decl levels r.name (s.distanceTo? r.name.lexeme))) :
    SameSuperclass decl.lexeme y f levels s s' name r := by
  have hlexeme := h.reference hm
  refine ⟨?_, ?_, .var hlexeme⟩
  · simp only [Reference.map, Reference.resolve, hlexeme, hs.distanceTo? hm.fresh_head, id]
  · obtain ⟨hself, hpending⟩ := List.append_eq_nil_iff.mp hf
    have hne : (f r.name).lexeme ≠ (f name).lexeme := by
      rw [h.kept name hname]
      by_cases hr : replaced r.name
      · rw [h.renamed r.name hr]
        exact hfresh.symm
      · rw [h.kept r.name hr]
        intro heq
        rw [if_pos heq] at hself
        cases hself
    have hsame := hs.isPending hm.fresh_head
    rw [← hlexeme] at hsame
    rw [Reference.scopeFaults, Reference.map, if_neg hne, hsame, List.nil_append]
    split at hpending
    · cases hpending
    · next hp => exact if_neg hp

theorem plainClass (h : Renames decl y replaced f) (m : Nat) {around : Surroundings}
    {ds : List (FunDecl Unit)} (hkept : ¬ replaced t)
    (hname : (f t).lexeme = exchange decl.lexeme y (levels.headD false) t.lexeme)
    (hf : s'.declareFaults (f t) = [])
    (hds : SameMethods decl.lexeme y f levels
      ((s.define t.lexeme).methods (none : Option (Reference Unit)))
      ((s'.define (f t).lexeme).methods (none : Option (Reference Unit))) (m + 1) .plain ds) :
    SameStmt decl.lexeme y f levels s s' m around (.classDecl t none ds) where
  slots := congrArg (Stmt.classDecl (f t) none) hds.slots
  faultless :=
    List.append_eq_nil_iff.mpr ⟨List.append_eq_nil_iff.mpr ⟨hf, rfl⟩, hds.faultless⟩
  related := .plainClass (q := levels) (h.kept t hkept).symm ⟨hname, rfl, rfl⟩ hds.related

theorem derivedClass (h : Renames decl y replaced f) (m : Nat) {around : Surroundings}
    {r : Reference Unit} {ds : List (FunDecl Unit)} (hkept : ¬ replaced t)
    (hname : (f t).lexeme = exchange decl.lexeme y (levels.headD false) t.lexeme)
    (hf : s'.declareFaults (f t) = [])
    (hparent : SameSuperclass decl.lexeme y f levels (s.define t.lexeme)
      (s'.define (f t).lexeme) t r)
    (hds : SameMethods decl.lexeme y f (false :: levels)
      ((s.define t.lexeme).methods (some r)) ((s'.define (f t).lexeme).methods (some r)) (m + 2)
      .derived ds) :
    SameStmt decl.lexeme y f levels s s' m around (.classDecl t (some r) ds) where
  slots := congrArg₂ (fun r ds => Stmt.classDecl (f t) (some r) ds) hparent.slot hds.slots
  faultless :=
    List.append_eq_nil_iff.mpr
      ⟨List.append_eq_nil_iff.mpr ⟨hf, hparent.faultless⟩, hds.faultless⟩
  related := .derivedClass (q := levels) (i := false :: levels) (h.kept t hkept).symm
    ⟨hname, rfl, rfl⟩ hparent.related ⟨false, rfl, rfl, fun _ _ => rfl⟩ hds.related

theorem declaredAs_none {b : Bool} {stmt : Stmt Unit} (h : stmt.declared? = none) :
    DeclaredAs decl y replaced b stmt.declared?.toList := by
  rw [h]
  exact fun _ ht => absurd ht List.not_mem_nil

mutual

theorem stmt {levels : List Bool} {s s' : Scopes} (h : Renames decl y replaced f)
    (hs : ScopesRel decl.lexeme y levels s s') (m : Nat) (around : Surroundings)
    (stmt : Stmt Unit) (hw : stmt.WellFormed) (hf : stmt.scopeFaults around s = [])
    (hd : DeclaredAs decl y replaced (levels.headD false) stmt.declared?.toList)
    (hm : Marked replaced y (stmt.resolve around.cls s).tokens
      ((stmt.resolve around.cls s).occurrences decl levels)) :
    SameStmt decl.lexeme y f levels s s' m around stmt := by
  cases stmt with
  | expression e =>
      have he := h.expr hs around.cls e hw hf hm
      exact ⟨congrArg Stmt.expression he.slots, he.faultless, .expression he.related⟩
  | print e =>
      have he := h.expr hs around.cls e hw hf hm
      exact ⟨congrArg Stmt.print he.slots, he.faultless, .print he.related⟩
  | varDecl t initializer =>
      have hname := h.declared hd (List.mem_singleton_self t)
      have hscopes := hs.declare (hd t (List.mem_singleton_self t)).1
      rw [← hname] at hscopes
      obtain ⟨hft, hfe⟩ := List.append_eq_nil_iff.mp hf
      have hft' := (hs.declareFaults hname).mpr hft
      cases initializer with
      | none =>
          refine ⟨rfl, ?_, .varPlain (q := levels) ⟨hname, rfl, rfl⟩⟩
          exact List.append_eq_nil_iff.mpr ⟨hft', rfl⟩
      | some e =>
          have hsplit : Marked replaced y ([t] ++ Expr.tokensOption _) (_ ++ _) := hm
          obtain ⟨_, he⟩ := hsplit.parts (within_single fun hu => (Token.same_iff.mp hu.2).1)
            (Expr.within_usesOption levels _)
          have he := h.expr hscopes around.cls e hw.2 hfe he
          refine ⟨?_, List.append_eq_nil_iff.mpr ⟨hft', he.faultless⟩,
            .varDecl (q := levels) ⟨hname, rfl, rfl⟩ he.related⟩
          simp only [Stmt.map, Stmt.resolve, Option.map_some, he.slots]
  | block body =>
      have hdistinct := Stmt.distinct hf
      rw [← Stmt.declaredAll_resolve around.cls s.block] at hdistinct
      have hscope := @Marked.scope replaced y decl [] _ levels hm hdistinct
      rw [Stmt.declaredAll_resolve] at hscope
      have hbody := stmts h (hs.block _) (m + 1) around body hw hf hscope hm
      exact ⟨congrArg Stmt.block hbody.slots, hbody.faultless,
        .block ⟨_, rfl, rfl, fun _ ho => nomatch ho⟩ hbody.related⟩
  | ifThen e a =>
      obtain ⟨he, ha⟩ := hm.parts (Expr.within_uses _ _) (Stmt.within_occurrences _ _)
      obtain ⟨hfe, hfa⟩ := List.append_eq_nil_iff.mp hf
      have he := h.expr hs around.cls e hw.1 hfe he
      have ha := stmt h hs m around a hw.2.1 hfa (declaredAs_none hw.2.2) ha
      refine ⟨?_, List.append_eq_nil_iff.mpr ⟨he.faultless, ha.faultless⟩,
        .ifThen he.related ha.related⟩
      simp only [Stmt.map, Stmt.resolve, he.slots, ha.slots]
  | ifElse e a b =>
      obtain ⟨he, hm⟩ := hm.parts (Expr.within_uses _ _)
        (.append (Stmt.within_occurrences _ _) (Stmt.within_occurrences _ _))
      obtain ⟨ha, hb⟩ := hm.parts (Stmt.within_occurrences _ _) (Stmt.within_occurrences _ _)
      obtain ⟨hfea, hfb⟩ := List.append_eq_nil_iff.mp hf
      obtain ⟨hfe, hfa⟩ := List.append_eq_nil_iff.mp hfea
      have he := h.expr hs around.cls e hw.1 hfe he
      have ha := stmt h hs m around a hw.2.1.1 hfa (declaredAs_none hw.2.1.2) ha
      have hb := stmt h hs m around b hw.2.2.1 hfb (declaredAs_none hw.2.2.2) hb
      refine ⟨?_, ?_, .ifElse he.related ha.related hb.related⟩
      · simp only [Stmt.map, Stmt.resolve, he.slots, ha.slots, hb.slots]
      · simp only [Stmt.map, Stmt.scopeFaults, he.faultless, ha.faultless, hb.faultless,
          List.append_nil]
  | whileLoop e a =>
      obtain ⟨he, ha⟩ := hm.parts (Expr.within_uses _ _) (Stmt.within_occurrences _ _)
      obtain ⟨hfe, hfa⟩ := List.append_eq_nil_iff.mp hf
      have he := h.expr hs around.cls e hw.1 hfe he
      have ha := stmt h hs m around a hw.2.1 hfa (declaredAs_none hw.2.2) ha
      refine ⟨?_, List.append_eq_nil_iff.mpr ⟨he.faultless, ha.faultless⟩,
        .whileLoop he.related ha.related⟩
      simp only [Stmt.map, Stmt.resolve, he.slots, ha.slots]
  | function d =>
      have hname := h.declared hd (List.mem_singleton_self d.name)
      have hscopes := hs.define (hd _ (List.mem_singleton_self d.name)).1
      rw [← hname] at hscopes
      obtain ⟨hfname, hfd⟩ := List.append_eq_nil_iff.mp hf
      have hfname' := (hs.declareFaults hname).mpr hfname
      have hfun := function h hscopes m { around with function := .function } d hw hfd hm
      refine ⟨?_, ?_, .function (q := levels) ⟨?_, rfl, rfl⟩ hfun.related⟩
      · rw [Stmt.map, Stmt.resolve, FunDecl.name_map, hfun.slots]
        rfl
      · rw [Stmt.map, Stmt.scopeFaults, FunDecl.name_map, hfname', hfun.faultless]
        rfl
      · rw [FunDecl.name_map, FunDecl.name_resolve]
        exact hname
  | ret keyword value =>
      obtain ⟨_, hvalue⟩ := hm.keeps (Expr.within_usesOption _ _)
      obtain ⟨hfret, hfvalue⟩ := List.append_eq_nil_iff.mp hf
      have hfret' : returnFaults around.function (f keyword) value.isSome = [] := by
        rw [returnFaults_map, hfret]
        rfl
      cases value with
      | none => exact ⟨rfl, List.append_eq_nil_iff.mpr ⟨hfret', rfl⟩, .retPlain⟩
      | some e =>
          have he := h.expr hs around.cls e hw hfvalue hvalue
          refine ⟨?_, List.append_eq_nil_iff.mpr ⟨hfret', he.faultless⟩,
            .ret he.related⟩
          simp only [Stmt.map, Stmt.resolve, Option.map_some, he.slots]
  | classDecl t superclass ds =>
      have hname := h.declared hd (List.mem_singleton_self t)
      have hfresh := (hd t (List.mem_singleton_self t)).1
      have hscopes := hs.define hfresh
      rw [← hname] at hscopes
      obtain ⟨hkept, hm⟩ := hm.keeps
        (.append (Reference.within_uses _ _) (FunDecl.within_occurrencesAll _ _))
      obtain ⟨hmparent, hmds⟩ := hm.parts (Reference.within_uses _ _)
        (FunDecl.within_occurrencesAll _ _)
      obtain ⟨hft, hfds⟩ := List.append_eq_nil_iff.mp hf
      obtain ⟨hfname, hfparent⟩ := List.append_eq_nil_iff.mp hft
      have hfname' := (hs.declareFaults hname).mpr hfname
      have hthis := ne_this_of_ofWord h.new
      have hsuper := ne_super_of_ofWord h.new
      cases superclass with
      | none =>
          exact h.plainClass m hkept hname hfname'
            (methods h (hscopes.methods hthis hsuper none) (m + 1) .plain ds hw.2.2 hfds hmds)
      | some r =>
          exact h.derivedClass m hkept hname hfname'
            (h.superclass hscopes hkept hfresh r hfparent hmparent)
            (methods h (hscopes.methods hthis hsuper (some r)) (m + 2) .derived ds hw.2.2 hfds
              hmds)

theorem stmts {levels : List Bool} {s s' : Scopes} (h : Renames decl y replaced f)
    (hs : ScopesRel decl.lexeme y levels s s') (m : Nat) (around : Surroundings)
    (body : List (Stmt Unit)) (hw : Stmt.WellFormedAll body)
    (hf : Stmt.scopeFaultsAll around s body = [])
    (hd : DeclaredAs decl y replaced (levels.headD false) (body.filterMap Stmt.declared?))
    (hm : Marked replaced y (Stmt.tokensAll (Stmt.resolveAll around.cls s body))
      (Stmt.occurrencesAll decl levels (Stmt.resolveAll around.cls s body))) :
    SameStmts decl.lexeme y f levels s s' m around body := by
  cases body with
  | nil => exact ⟨rfl, rfl, .nil⟩
  | cons first rest =>
      rw [Stmt.declaredAll_cons, DeclaredAs, List.forall_mem_append] at hd
      obtain ⟨hmfirst, hmrest⟩ := hm.parts (Stmt.within_occurrences _ _)
        (Stmt.within_occurrencesAll _ _)
      obtain ⟨hffirst, hfrest⟩ := List.append_eq_nil_iff.mp hf
      have hfirst := stmt h hs m around first hw.1 hffirst hd.1 hmfirst
      have hrest := stmts h (h.after hs m hd.1) m around rest hw.2 hfrest hd.2 hmrest
      refine ⟨?_, List.append_eq_nil_iff.mpr ⟨hfirst.faultless, hrest.faultless⟩,
        .cons hfirst.related hrest.related⟩
      simp only [Stmt.mapAll, Stmt.resolveAll, hfirst.slots, hrest.slots]

theorem function {levels : List Bool} {s s' : Scopes} (h : Renames decl y replaced f)
    (hs : ScopesRel decl.lexeme y levels s s') (m : Nat) (around : Surroundings)
    (d : FunDecl Unit) (hw : d.WellFormed) (hf : d.scopeFaults around s = [])
    (hm : Marked replaced y (d.resolve around.cls s).tokens
      ((d.resolve around.cls s).occurrences decl levels)) :
    SameFun decl.lexeme y f levels s s' m around d := by
  cases d with
  | mk t params body =>
      obtain ⟨hkept, hm⟩ := hm.keeps
        (.append (within_params params) (Stmt.within_occurrencesAll _ _))
      have hdistinct := FunDecl.distinct hf
      rw [← Stmt.declaredAll_resolve around.cls (s.function t params)] at hdistinct
      have hscope := Marked.scope hm hdistinct
      rw [Stmt.declaredAll_resolve, List.forall_mem_append] at hscope
      obtain ⟨_, hmbody⟩ := hm.parts (within_params params) (Stmt.within_occurrencesAll _ _)
      obtain ⟨hfparams, hfbody⟩ := List.append_eq_nil_iff.mp hf
      have hparams := fun u hu => h.declared (b := declares decl params _) hscope.1 (t := u) hu
      have hscopes := hs.function _ t (f t) hparams fun u hu => (hscope.1 u hu).1
      have hbody := stmts h hscopes (m + 1) around body hw.2.2 hfbody hscope.2 hmbody
      have hfparams' := (ScopesRel.paramFaults
        (.cons (.empty _ ("function " ++ (f t).lexeme)) hs) hparams
        fun u hu => (hscope.1 u hu).1).mpr hfparams
      have hopens : (params.map f).map (·.lexeme) =
          (params.map (·.lexeme)).map (exchange decl.lexeme y (declares decl params
            (Stmt.resolveAll around.cls (s.function t params) body))) := by
        rw [List.map_map, List.map_map]
        exact List.map_congr_left hparams
      refine ⟨congrArg (FunDecl.mk (f t) (params.map f)) hbody.slots,
        List.append_eq_nil_iff.mpr ⟨hfparams', hbody.faultless⟩,
        .mk (h.kept t hkept).symm (List.length_map ..).symm
          ⟨_, rfl, hopens, fun _ ho => nomatch ho⟩ hbody.related⟩

theorem methods {levels : List Bool} {s s' : Scopes} (h : Renames decl y replaced f)
    (hs : ScopesRel decl.lexeme y (false :: levels) s s') (m : Nat) (c : ClassKind)
    (ds : List (FunDecl Unit)) (hw : FunDecl.WellFormedAll ds)
    (hf : FunDecl.scopeFaultsAll c s ds = [])
    (hm : Marked replaced y (FunDecl.tokensAll (FunDecl.resolveAll c s ds))
      (FunDecl.occurrencesAll decl (false :: levels) (FunDecl.resolveAll c s ds))) :
    SameMethods decl.lexeme y f levels s s' m c ds := by
  cases ds with
  | nil => exact ⟨rfl, rfl, .nil⟩
  | cons d rest =>
      obtain ⟨hmd, hmrest⟩ := hm.parts (FunDecl.within_occurrences _ _)
        (FunDecl.within_occurrencesAll _ _)
      obtain ⟨hfd, hfrest⟩ := List.append_eq_nil_iff.mp hf
      have hname := h.kept _ hmd.function_name
      rw [FunDecl.name_resolve] at hname
      have hd := function h hs m ⟨.ofMethod d.name.lexeme, c⟩ d hw.1 hfd hmd
      have hrest := methods h hs m c rest hw.2 hfrest hmrest
      refine ⟨?_, ?_, .cons (q := false :: levels) ⟨false, rfl, rfl, fun _ _ => rfl⟩ hd.related
        hrest.related⟩
      · simp only [FunDecl.mapAll, FunDecl.resolveAll, hd.slots, hrest.slots]
      · rw [FunDecl.mapAll, FunDecl.scopeFaultsAll, FunDecl.name_map, hname, hd.faultless,
          hrest.faultless]
        rfl

end

end Renames

end Renaming
end Lox
