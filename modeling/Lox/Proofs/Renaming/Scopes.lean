import Lox.Proofs.Renaming.Frames
import Lox.Proofs.Scoping.Order
import Lox.Proofs.Scoping.Resolved

/-!
# Scopes with another name in them

Resolution sees the same scopes in both programs, but for the name of the variable in the
scope that declares it. A reference finds the same scope in both, if it has the other name
exactly where it led to the scope of the variable. No scope of the first program declares
the new name, so it captures nothing.
-/

namespace Lox
namespace Renaming

variable {x y n : String} {b c : Bool}

theorem exchange_exchange : exchange x y b (exchange x y b n) = n := by
  cases b
  · rfl
  · exact Equiv.swap_apply_self x y n

/-- Whatever becomes of a name in one scope, in another it cannot be the new name for
anything but the old one. -/
theorem exchange_exchange_of_ne (hn : n ≠ y) :
    exchange x y b (exchange x y c n) = n ∨ exchange x y b (exchange x y c n) = y := by
  by_cases hx : n = x
  · subst hx
    cases b <;> cases c <;> simp [exchange]
  · rw [exchange_of_ne hx hn, exchange_of_ne hx hn]
    exact .inl rfl

/-- One scope in both programs. -/
structure ScopeRel (x y : String) (b : Bool) (scope scope' : Scope) : Prop where
  declared : ∀ n, scope'.isDeclared (exchange x y b n) = scope.isDeclared n
  defined : ∀ n, scope'.isDefined (exchange x y b n) = scope.isDefined n
  fresh : scope.isDeclared y = false

/-- The scopes around a place in both programs. -/
inductive ScopesRel (x y : String) : List Bool → Scopes → Scopes → Prop
  | nil : ScopesRel x y [] [] []
  | cons {b : Bool} {levels : List Bool} {scope scope' : Scope} {s s' : Scopes} :
      ScopeRel x y b scope scope' → ScopesRel x y levels s s' →
      ScopesRel x y (b :: levels) (scope :: s) (scope' :: s')

namespace ScopeRel

variable {scope scope' : Scope}

theorem empty (label label' : String) :
    ScopeRel x y b { label := label } { label := label' } :=
  ⟨fun _ => rfl, fun _ => rfl, rfl⟩

theorem define (h : ScopeRel x y b scope scope') (hn : n ≠ y) :
    ScopeRel x y b (scope.define n) (scope'.define (exchange x y b n)) where
  declared m := by
    rw [Bool.eq_iff_iff, Scope.isDeclared_define, Scope.isDeclared_define, h.declared,
      (exchange x y b).injective.eq_iff]
  defined m := by
    rw [Bool.eq_iff_iff, Scope.isDefined_define, Scope.isDefined_define, h.defined,
      (exchange x y b).injective.eq_iff]
  fresh := (Scope.isDeclared_define_of_ne hn.symm).trans h.fresh

theorem declare (h : ScopeRel x y b scope scope') (hn : n ≠ y) :
    ScopeRel x y b (scope.declare n) (scope'.declare (exchange x y b n)) where
  declared m := by
    rw [Bool.eq_iff_iff, Scope.isDeclared_declare, Scope.isDeclared_declare, h.declared,
      (exchange x y b).injective.eq_iff]
  defined m := by
    rw [Bool.eq_iff_iff, Scope.isDefined_declare, Scope.isDefined_declare, h.defined, Ne,
      (exchange x y b).injective.eq_iff]
  fresh := (Scope.isDeclared_declare_of_ne hn.symm).trans h.fresh

/-- A name that the scope does not declare in the first program is not declared by it in
the second one either, whatever it has become. -/
theorem undeclared (h : ScopeRel x y b scope scope') (hn : n ≠ y)
    (hscope : scope.isDeclared n = false) : scope'.isDeclared (exchange x y c n) = false := by
  rw [← exchange_exchange (b := b) (n := exchange x y c n), h.declared]
  rcases exchange_exchange_of_ne (x := x) (b := b) (c := c) hn with heq | heq
  · rw [heq, hscope]
  · rw [heq, h.fresh]

end ScopeRel

namespace ScopesRel

variable {levels : List Bool} {s s' : Scopes} {f : Token → Token} {t : Token}

/-- A reference leads to the same scope. -/
theorem distanceTo? (h : ScopesRel x y levels s s') (hn : n ≠ y) :
    s'.distanceTo? (exchange x y (leadsTo levels (s.distanceTo? n)) n) = s.distanceTo? n := by
  induction h with
  | nil => rfl
  | @cons b levels scope scope' s s' hscope _ ih =>
      rw [Scopes.distanceTo?_cons, Scopes.distanceTo?_cons]
      cases hdeclared : scope.isDeclared n with
      | true =>
          have hfound : scope'.isDeclared (exchange x y b n) = true :=
            (hscope.declared n).trans hdeclared
          exact if_pos hfound
      | false =>
          have hlevel : leadsTo (b :: levels) ((s.distanceTo? n).map (· + 1)) =
              leadsTo levels (s.distanceTo? n) := by
            cases s.distanceTo? n <;> rfl
          rw [if_neg Bool.false_ne_true, hlevel, hscope.undeclared hn hdeclared,
            if_neg Bool.false_ne_true, ih]

/-- Only what the innermost scope declares can be pending. -/
theorem isPending (h : ScopesRel x y levels s s') (hn : n ≠ y) :
    s'.isPending (exchange x y (leadsTo levels (s.distanceTo? n)) n) = s.isPending n := by
  cases h with
  | nil => rfl
  | @cons b levels scope scope' s s' hscope =>
      rw [Scopes.distanceTo?_cons]
      simp only [Scopes.isPending, List.head?_cons, Option.any_some]
      cases hdeclared : scope.isDeclared n with
      | true =>
          rw [if_pos rfl, show leadsTo (b :: levels) (some 0) = b from rfl, hscope.declared,
            hscope.defined, hdeclared]
      | false => rw [hscope.undeclared hn hdeclared, Bool.false_and, Bool.false_and]

theorem declaresHere (h : ScopesRel x y levels s s') (n : String) :
    s'.declaresHere (exchange x y (levels.headD false) n) = s.declaresHere n := by
  cases h with
  | nil => rfl
  | cons hscope => exact hscope.declared n

theorem define (h : ScopesRel x y levels s s') (hn : n ≠ y) :
    ScopesRel x y levels (s.define n) (s'.define (exchange x y (levels.headD false) n)) := by
  cases h with
  | nil => exact .nil
  | cons hscope hrest => exact .cons (hscope.define hn) hrest

theorem declare (h : ScopesRel x y levels s s') (hn : n ≠ y) :
    ScopesRel x y levels (s.declare n) (s'.declare (exchange x y (levels.headD false) n)) := by
  cases h with
  | nil => exact .nil
  | cons hscope hrest => exact .cons (hscope.declare hn) hrest

theorem block (h : ScopesRel x y levels s s') (b : Bool) :
    ScopesRel x y (b :: levels) s.block s'.block :=
  .cons (.empty _ _) h

theorem reserved (h : ScopesRel x y levels s s') (hn : n ≠ y) :
    ScopesRel x y (false :: levels) (s.reserved n) (s'.reserved n) :=
  .cons ((ScopeRel.empty n n).define (b := false) hn) h

theorem methods (h : ScopesRel x y levels s s') (hthis : thisName ≠ y) (hsuper : superName ≠ y)
    {δ : Type} (superclass : Option (Reference δ)) :
    ScopesRel x y (methodLevels superclass levels) (s.methods superclass)
      (s'.methods superclass) := by
  cases superclass with
  | none => exact h.reserved hthis
  | some r => exact (h.reserved hsuper).reserved hthis

theorem declareFaults (h : ScopesRel x y levels s s')
    (ht : (f t).lexeme = exchange x y (levels.headD false) t.lexeme) :
    s'.declareFaults (f t) = [] ↔ s.declareFaults t = [] := by
  rw [Scopes.declareFaults, Scopes.declareFaults, ht, h.declaresHere]
  split <;> simp

theorem paramFaults (h : ScopesRel x y levels s s') {params : List Token}
    (hparams : ∀ t ∈ params, (f t).lexeme = exchange x y (levels.headD false) t.lexeme)
    (hfresh : ∀ t ∈ params, t.lexeme ≠ y) :
    s'.paramFaults (params.map f) = [] ↔ s.paramFaults params = [] := by
  induction params generalizing s s' with
  | nil => exact Iff.rfl
  | cons t params ih =>
      rw [List.forall_mem_cons] at hparams hfresh
      rw [List.map_cons, Scopes.paramFaults, Scopes.paramFaults, List.append_eq_nil_iff,
        List.append_eq_nil_iff, h.declareFaults hparams.1, hparams.1,
        ih (h.define hfresh.1) hparams.2 hfresh.2]

theorem function (h : ScopesRel x y levels s s') (b : Bool) (name name' : Token)
    {params : List Token} (hparams : ∀ t ∈ params, (f t).lexeme = exchange x y b t.lexeme)
    (hfresh : ∀ t ∈ params, t.lexeme ≠ y) :
    ScopesRel x y (b :: levels) (s.function name params) (s'.function name' (params.map f)) := by
  have hdefine : ∀ {s s' : Scopes}, ScopesRel x y (b :: levels) s s' →
      ScopesRel x y (b :: levels) (params.foldl (fun s t => s.define t.lexeme) s)
        ((params.map f).foldl (fun s t => s.define t.lexeme) s') := by
    induction params with
    | nil => exact id
    | cons t params ih =>
        intro s s' hs
        rw [List.forall_mem_cons] at hparams hfresh
        rw [List.map_cons, List.foldl_cons, List.foldl_cons, hparams.1]
        exact ih hparams.2 hfresh.2 (hs.define hfresh.1)
  exact hdefine (.cons (.empty _ _) h)

end ScopesRel
end Renaming

/-! ## A scope declares each name once -/

namespace Scopes

variable {s : Scopes} {ts : List Token}

theorem declareFaults_eq_nil {t : Token} :
    s.declareFaults t = [] ↔ s.declaresHere t.lexeme = false := by
  rw [declareFaults]
  cases s.declaresHere t.lexeme <;> simp

/-- Names that are declared one after the other without a fault are different. -/
theorem distinct_of_paramFaults {scope : Scope}
    (h : Scopes.paramFaults (scope :: s) ts = []) :
    (ts.map (·.lexeme)).Nodup ∧ ∀ t ∈ ts, scope.isDeclared t.lexeme = false := by
  induction ts generalizing scope with
  | nil => exact ⟨List.nodup_nil, fun _ ht => absurd ht List.not_mem_nil⟩
  | cons t ts ih =>
      rw [paramFaults, List.append_eq_nil_iff, declareFaults_eq_nil] at h
      obtain ⟨hdistinct, hrest⟩ := ih h.2
      have hother : ∀ u ∈ ts, u.lexeme ≠ t.lexeme ∧ scope.isDeclared u.lexeme = false := by
        intro u hu
        have hu' := hrest u hu
        rwa [Bool.eq_false_iff, Ne, Scope.isDeclared_define, not_or, ← Ne, ← Ne,
          ← Bool.eq_false_iff] at hu'
      refine ⟨List.nodup_cons.mpr ⟨fun hmem => ?_, hdistinct⟩,
        List.forall_mem_cons.mpr ⟨h.1, fun u hu => (hother u hu).2⟩⟩
      obtain ⟨u, hu, heq⟩ := List.mem_map.mp hmem
      exact (hother u hu).1 heq

end Scopes

theorem Stmt.declareFaults_eq_nil {around : Surroundings} {s : Scopes} {stmt : Stmt Unit}
    (h : stmt.scopeFaults around s = []) : ∀ t ∈ stmt.declared?, s.declareFaults t = [] := by
  intro t ht
  cases stmt with
  | varDecl name | function name =>
      cases ht
      exact (List.append_eq_nil_iff.mp h).1
  | classDecl name =>
      cases ht
      exact (List.append_eq_nil_iff.mp (List.append_eq_nil_iff.mp h).1).1
  | _ => cases ht

theorem Stmt.paramFaults_eq_nil {around : Surroundings} {s : Scopes} {body : List (Stmt Unit)}
    (h : Stmt.scopeFaultsAll around s body = []) :
    s.paramFaults (body.filterMap Stmt.declared?) = [] := by
  induction body generalizing s with
  | nil => rfl
  | cons stmt body ih =>
      obtain ⟨hstmt, hrest⟩ := List.append_eq_nil_iff.mp h
      have hfirst := Stmt.declareFaults_eq_nil hstmt
      have hrest' := ih hrest
      rw [Stmt.after_eq] at hrest'
      rw [List.filterMap_cons]
      cases hd : stmt.declared? with
      | none =>
          rw [hd] at hrest'
          exact hrest'
      | some t =>
          rw [hd] at hfirst hrest'
          exact List.append_eq_nil_iff.mpr ⟨hfirst t rfl, hrest'⟩

/-- The parameters of a function and what its body declares have different names. -/
theorem FunDecl.distinct {around : Surroundings} {s : Scopes} {name : Token}
    {params : List Token} {body : List (Stmt Unit)}
    (h : (FunDecl.mk name params body).scopeFaults around s = []) :
    ((params ++ body.filterMap Stmt.declared?).map (·.lexeme)).Nodup := by
  obtain ⟨hparams, hbody⟩ := List.append_eq_nil_iff.mp h
  have hall : Scopes.paramFaults (({ label := "function " ++ name.lexeme } : Scope) :: s)
      (params ++ body.filterMap Stmt.declared?) = [] := by
    rw [Scopes.paramFaults_append]
    exact List.append_eq_nil_iff.mpr ⟨hparams, Stmt.paramFaults_eq_nil hbody⟩
  exact (Scopes.distinct_of_paramFaults hall).1

/-- What the body of a block declares has different names. -/
theorem Stmt.distinct {around : Surroundings} {s : Scopes} {body : List (Stmt Unit)}
    (h : Stmt.scopeFaultsAll around s.block body = []) :
    ((body.filterMap Stmt.declared?).map (·.lexeme)).Nodup :=
  (Scopes.distinct_of_paramFaults (Stmt.paramFaults_eq_nil h)).1

end Lox
