import Lox.Proofs.Wrapping.Programs

/-!
# Resolving a program in a block

Whether a name may be declared or read depends on the innermost scope alone. So inside
the scopes of a program nothing changes when a block is put around it; and its top level
has no fault in the block either, if its names are declared once, and before their uses.
-/

namespace Lox

/-! ## The innermost scope decides -/

namespace Scopes

variable {s s' : Scopes}

theorem isPending_congr (h : s.head? = s'.head?) (n : String) :
    s.isPending n = s'.isPending n := by
  simp only [isPending, h]

theorem declareFaults_congr (h : s.head? = s'.head?) (t : Token) :
    s.declareFaults t = s'.declareFaults t := by
  have hhere : s.declaresHere t.lexeme = s'.declaresHere t.lexeme := by
    simp only [declaresHere, h]
  rw [declareFaults, declareFaults, hhere]

theorem head?_define (h : s.head? = s'.head?) (n : String) :
    (s.define n).head? = (s'.define n).head? := by
  cases s with
  | nil =>
      cases s' with
      | nil => rfl
      | cons _ _ => cases h
  | cons scope s =>
      cases s' with
      | nil => cases h
      | cons scope' s' =>
          cases h
          rfl

theorem head?_declare (h : s.head? = s'.head?) (n : String) :
    (s.declare n).head? = (s'.declare n).head? := by
  cases s with
  | nil =>
      cases s' with
      | nil => rfl
      | cons _ _ => cases h
  | cons scope s =>
      cases s' with
      | nil => cases h
      | cons scope' s' =>
          cases h
          rfl

theorem paramFaults_congr (h : s.head? = s'.head?) (params : List Token) :
    s.paramFaults params = s'.paramFaults params := by
  induction params generalizing s s' with
  | nil => rfl
  | cons t params ih =>
      rw [paramFaults, paramFaults, declareFaults_congr h, ih (head?_define h t.lexeme)]

theorem head?_function (s s' : Scopes) (name : Token) (params : List Token) :
    (s.function name params).head? = (s'.function name params).head? := by
  obtain ⟨scope, heq⟩ := Scopes.function_eq name params
  rw [heq, heq]
  rfl

end Scopes

open Scopes

variable {s s' : Scopes}

theorem Stmt.head?_after (h : s.head? = s'.head?) (y : Stmt Unit) :
    (y.after s).head? = (y.after s').head? := by
  cases y with
  | varDecl name => exact head?_define h _
  | function d => exact head?_define h _
  | classDecl name => exact head?_define h _
  | _ => exact h

mutual

theorem Expr.scopeFaults_congr {s s' : Scopes} (h : s.head? = s'.head?) (c : ClassKind)
    (e : Expr Unit) : e.scopeFaults c s = e.scopeFaults c s' := by
  cases e with
  | literal | thisRef | superRef => rfl
  | var name => simp only [Expr.scopeFaults, isPending_congr h]
  | unary operator a => exact Expr.scopeFaults_congr h c a
  | binary a operator b | logical a operator b | set a operator b =>
      simp only [Expr.scopeFaults, Expr.scopeFaults_congr h c a, Expr.scopeFaults_congr h c b]
  | conditional a b d =>
      simp only [Expr.scopeFaults, Expr.scopeFaults_congr h c a, Expr.scopeFaults_congr h c b,
        Expr.scopeFaults_congr h c d]
  | grouping a => exact Expr.scopeFaults_congr h c a
  | get a => exact Expr.scopeFaults_congr h c a
  | assign name slot a => exact Expr.scopeFaults_congr h c a
  | call a paren es =>
      simp only [Expr.scopeFaults, Expr.scopeFaults_congr h c a, Expr.scopeFaultsAll_congr h c es]
  | vector bracket es => exact Expr.scopeFaultsAll_congr h c es

theorem Expr.scopeFaultsAll_congr {s s' : Scopes} (h : s.head? = s'.head?) (c : ClassKind)
    (es : List (Expr Unit)) : Expr.scopeFaultsAll c s es = Expr.scopeFaultsAll c s' es := by
  cases es with
  | nil => rfl
  | cons e es =>
      rw [Expr.scopeFaultsAll, Expr.scopeFaultsAll, Expr.scopeFaults_congr h c e,
        Expr.scopeFaultsAll_congr h c es]

end

theorem Expr.scopeFaultsOption_congr (h : s.head? = s'.head?) (c : ClassKind)
    (e : Option (Expr Unit)) : Expr.scopeFaultsOption c s e = Expr.scopeFaultsOption c s' e := by
  cases e with
  | none => rfl
  | some e => exact e.scopeFaults_congr h c

theorem Reference.scopeFaults_congr (h : s.head? = s'.head?) (name : Token)
    (r : Option (Reference Unit)) :
    Reference.scopeFaults s name r = Reference.scopeFaults s' name r := by
  cases r with
  | none => rfl
  | some r => simp only [Reference.scopeFaults, isPending_congr h]

mutual

theorem Stmt.scopeFaults_congr {s s' : Scopes} (h : s.head? = s'.head?) (around : Surroundings)
    (y : Stmt Unit) : y.scopeFaults around s = y.scopeFaults around s' := by
  cases y with
  | expression e => exact e.scopeFaults_congr h _
  | print e => exact e.scopeFaults_congr h _
  | varDecl name e =>
      simp only [Stmt.scopeFaults, declareFaults_congr h,
        Expr.scopeFaultsOption_congr (head?_declare h _)]
  | block body =>
      have hhead : s.block.head? = s'.block.head? := rfl
      exact Stmt.scopeFaultsAll_congr hhead around body
  | ifThen e a | whileLoop e a =>
      simp only [Stmt.scopeFaults, e.scopeFaults_congr h, Stmt.scopeFaults_congr h around a]
  | ifElse e a b =>
      simp only [Stmt.scopeFaults, e.scopeFaults_congr h, Stmt.scopeFaults_congr h around a,
        Stmt.scopeFaults_congr h around b]
  | function d =>
      rw [Stmt.scopeFaults, Stmt.scopeFaults, declareFaults_congr h,
        FunDecl.scopeFaults_congr (s.define d.name.lexeme) (s'.define d.name.lexeme) _ d]
  | ret keyword e => simp only [Stmt.scopeFaults, Expr.scopeFaultsOption_congr h]
  | classDecl name r methods =>
      simp only [Stmt.scopeFaults, declareFaults_congr h,
        Reference.scopeFaults_congr (head?_define h _),
        FunDecl.scopeFaultsAll_congr ((s.define name.lexeme).methods r)
          ((s'.define name.lexeme).methods r) _ methods]

theorem Stmt.scopeFaultsAll_congr {s s' : Scopes} (h : s.head? = s'.head?)
    (around : Surroundings) (ys : List (Stmt Unit)) :
    Stmt.scopeFaultsAll around s ys = Stmt.scopeFaultsAll around s' ys := by
  cases ys with
  | nil => rfl
  | cons y ys =>
      rw [Stmt.scopeFaultsAll, Stmt.scopeFaultsAll, Stmt.scopeFaults_congr h around y,
        Stmt.scopeFaultsAll_congr (y.head?_after h) around ys]

/-- A function opens a scope of its own, so those around it make no difference. -/
theorem FunDecl.scopeFaults_congr (s s' : Scopes) (around : Surroundings) (d : FunDecl Unit) :
    d.scopeFaults around s = d.scopeFaults around s' := by
  cases d with
  | mk name params body =>
      have hhead : List.head? (({ label := "function " ++ name.lexeme } : Scope) :: s) =
          List.head? (({ label := "function " ++ name.lexeme } : Scope) :: s') := rfl
      rw [FunDecl.scopeFaults, FunDecl.scopeFaults, paramFaults_congr hhead,
        Stmt.scopeFaultsAll_congr (head?_function s s' name params) around body]

theorem FunDecl.scopeFaultsAll_congr (s s' : Scopes) (c : ClassKind) (ds : List (FunDecl Unit)) :
    FunDecl.scopeFaultsAll c s ds = FunDecl.scopeFaultsAll c s' ds := by
  cases ds with
  | nil => rfl
  | cons d ds =>
      rw [FunDecl.scopeFaultsAll, FunDecl.scopeFaultsAll, FunDecl.scopeFaults_congr s s' _ d,
        FunDecl.scopeFaultsAll_congr s s' c ds]

end

/-! ## The top level in the scope of a block -/

variable {b : Scope}

theorem Scopes.isPending_singleton {n : String} :
    isPending [b] n = false ↔ (b.isDeclared n = true → b.isDefined n = true) := by
  simp only [isPending, List.head?_cons, Option.any_some]
  cases b.isDeclared n <;> cases b.isDefined n <;> decide

mutual

/-- Outside of all scopes every name that is read is a global, and a block in which it can
be read makes no difference. -/
theorem Expr.scopeFaults_block (c : ClassKind) (e : Expr Unit)
    (h : ∀ n ∈ (e.resolve c []).globals, isPending [b] n = false) :
    e.scopeFaults c [b] = e.scopeFaults c [] := by
  cases e with
  | literal | thisRef | superRef => rfl
  | var name =>
      have hname := h name.lexeme (List.mem_singleton_self _)
      simp only [Expr.scopeFaults, hname]
      rfl
  | unary operator a => exact Expr.scopeFaults_block c a h
  | binary a operator b | logical a operator b =>
      rw [Expr.resolve, Expr.globals, List.forall_mem_append] at h
      rw [Expr.scopeFaults, Expr.scopeFaults, Expr.scopeFaults_block c a h.1,
        Expr.scopeFaults_block c b h.2]
  | set a operator b =>
      rw [Expr.resolve, Expr.globals, List.forall_mem_append] at h
      rw [Expr.scopeFaults, Expr.scopeFaults, Expr.scopeFaults_block c a h.1,
        Expr.scopeFaults_block c b h.2]
  | conditional a b d =>
      rw [Expr.resolve, Expr.globals, List.forall_mem_append, List.forall_mem_append] at h
      rw [Expr.scopeFaults, Expr.scopeFaults, Expr.scopeFaults_block c a h.1.1,
        Expr.scopeFaults_block c b h.1.2, Expr.scopeFaults_block c d h.2]
  | grouping a => exact Expr.scopeFaults_block c a h
  | get a => exact Expr.scopeFaults_block c a h
  | assign name slot a =>
      rw [Expr.resolve, Expr.globals, List.forall_mem_append] at h
      exact Expr.scopeFaults_block c a h.2
  | call a paren es =>
      rw [Expr.resolve, Expr.globals, List.forall_mem_append] at h
      rw [Expr.scopeFaults, Expr.scopeFaults, Expr.scopeFaults_block c a h.1,
        Expr.scopeFaultsAll_block c es h.2]
  | vector bracket es => exact Expr.scopeFaultsAll_block c es h

theorem Expr.scopeFaultsAll_block (c : ClassKind) (es : List (Expr Unit))
    (h : ∀ n ∈ Expr.globalsAll (Expr.resolveAll c [] es), isPending [b] n = false) :
    Expr.scopeFaultsAll c [b] es = Expr.scopeFaultsAll c [] es := by
  cases es with
  | nil => rfl
  | cons e es =>
      rw [Expr.resolveAll, Expr.globalsAll, List.forall_mem_append] at h
      rw [Expr.scopeFaultsAll, Expr.scopeFaultsAll, Expr.scopeFaults_block c e h.1,
        Expr.scopeFaultsAll_block c es h.2]

end

theorem Expr.scopeFaultsOption_block (c : ClassKind) (e : Option (Expr Unit))
    (h : ∀ n ∈ Expr.globalsOption (e.map (Expr.resolve c [])), isPending [b] n = false) :
    Expr.scopeFaultsOption c [b] e = Expr.scopeFaultsOption c [] e := by
  cases e with
  | none => rfl
  | some e => exact e.scopeFaults_block c h

/-- A statement of the top level. All that the block has declared can be read there, what
the statement declares was not declared yet, and no initializer uses its own variable. -/
theorem Stmt.scopeFaults_block (around : Surroundings) (y : Stmt Unit) (hw : y.WellFormed)
    (hpending : ∀ n, isPending [b] n = false)
    (hfresh : ∀ t ∈ y.declared?, b.isDeclared t.lexeme = false)
    (hown : ∀ t e, y = .varDecl t (some e) → t.lexeme ∉ (e.resolve around.cls []).globals) :
    y.scopeFaults around [b] = y.scopeFaults around [] := by
  have hundeclared : ∀ t ∈ y.declared?, declareFaults [b] t = declareFaults [] t := by
    intro t ht
    simp only [declareFaults, declaresHere, List.head?_cons, Option.any_some, hfresh t ht]
    rfl
  have hbranch : ∀ {a : Stmt Unit}, a.declared? = none →
      (∀ t ∈ a.declared?, b.isDeclared t.lexeme = false) ∧
        ∀ t e, a = .varDecl t (some e) → t.lexeme ∉ (e.resolve around.cls []).globals := by
    intro a ha
    refine ⟨fun t ht => ?_, fun t e heq => ?_⟩
    · rw [ha] at ht
      cases ht
    · rw [heq] at ha
      cases ha
  cases y with
  | expression e => exact e.scopeFaults_block _ fun n _ => hpending n
  | print e => exact e.scopeFaults_block _ fun n _ => hpending n
  | varDecl t initializer =>
      rw [Stmt.scopeFaults, Stmt.scopeFaults, hundeclared t rfl]
      refine congrArg (declareFaults [] t ++ ·) (Expr.scopeFaultsOption_block _ _ fun n hn => ?_)
      have hne : n ≠ t.lexeme := by
        rintro rfl
        cases initializer with
        | none => cases hn
        | some e => exact hown t e rfl hn
      refine isPending_singleton.mpr fun hdeclared => (Scope.isDefined_declare b _ n).mpr ⟨hne, ?_⟩
      rw [Scope.isDeclared_declare_of_ne hne] at hdeclared
      exact isPending_singleton.mp (hpending n) hdeclared
  | block body =>
      have hhead : (Scopes.block [b]).head? = (Scopes.block []).head? := rfl
      exact Stmt.scopeFaultsAll_congr hhead around body
  | ifThen e a =>
      obtain ⟨hfresh, hown⟩ := hbranch hw.2.2
      rw [Stmt.scopeFaults, Stmt.scopeFaults, e.scopeFaults_block _ fun n _ => hpending n,
        Stmt.scopeFaults_block around a hw.2.1 hpending hfresh hown]
  | whileLoop e a =>
      obtain ⟨hfresh, hown⟩ := hbranch hw.2.2
      rw [Stmt.scopeFaults, Stmt.scopeFaults, e.scopeFaults_block _ fun n _ => hpending n,
        Stmt.scopeFaults_block around a hw.2.1 hpending hfresh hown]
  | ifElse e a a' =>
      obtain ⟨hfresh, hown⟩ := hbranch hw.2.1.2
      obtain ⟨hfresh', hown'⟩ := hbranch hw.2.2.2
      rw [Stmt.scopeFaults, Stmt.scopeFaults, e.scopeFaults_block _ fun n _ => hpending n,
        Stmt.scopeFaults_block around a hw.2.1.1 hpending hfresh hown,
        Stmt.scopeFaults_block around a' hw.2.2.1 hpending hfresh' hown']
  | function d =>
      rw [Stmt.scopeFaults, Stmt.scopeFaults, hundeclared d.name rfl,
        FunDecl.scopeFaults_congr (Scopes.define d.name.lexeme [b])
          (Scopes.define d.name.lexeme [])]
  | ret keyword e =>
      rw [Stmt.scopeFaults, Stmt.scopeFaults,
        Expr.scopeFaultsOption_block _ _ fun n _ => hpending n]
  | classDecl name r methods =>
      simp only [Stmt.scopeFaults]
      rw [hundeclared name rfl, FunDecl.scopeFaultsAll_congr
        ((Scopes.define name.lexeme [b]).methods r) ((Scopes.define name.lexeme []).methods r)]
      have hdefined : ∀ n, isPending (Scopes.define name.lexeme [b]) n = false := by
        intro n
        refine isPending_singleton.mpr fun hdeclared => (Scope.isDefined_define b _ n).mpr ?_
        exact ((Scope.isDeclared_define b _ n).mp hdeclared).imp id
          (isPending_singleton.mp (hpending n))
      cases r with
      | none => rfl
      | some r =>
          simp only [Reference.scopeFaults, hdefined]
          rfl

/-! ## Programs -/

theorem topLevelNames_cons {δ : Type} (y : Stmt δ) (ys : List (Stmt δ)) :
    topLevelNames (y :: ys) = (y.declared?.map (·.lexeme)).toList ++ topLevelNames ys := by
  simp only [topLevelNames, List.filterMap_cons]
  cases y.declared? <;> rfl

theorem Stmt.ownName_resolve (c : ClassKind) (s : Scopes) (y : Stmt Unit) :
    (y.resolve c s).ownName = y.ownName := by
  cases y with
  | function d =>
      cases d
      rfl
  | _ => rfl

namespace Wrapping

/-- The rest of a program whose top level declares `names`, after those in `declared`. It
has no fault, declares each name once, and uses no name before its declaration. -/
structure Arranged (names declared : List String) (ys : List (Stmt Unit)) : Prop where
  wellFormed : Stmt.WellFormedAll ys
  resolved : Stmt.scopeFaultsAll {} [] ys = []
  listed : ∀ n ∈ topLevelNames ys, n ∈ names
  fresh : ∀ n ∈ topLevelNames ys, n ∉ declared
  once : (topLevelNames ys).Nodup
  uses : UsesDeclared names declared (Stmt.resolveAll .none [] ys)

/-- The scope of the block has exactly these names, and all of them can be read. -/
structure Keeps (declared : List String) (b : Scope) : Prop where
  declares : ∀ n, b.isDeclared n = true ↔ n ∈ declared
  defines : ∀ n, b.isDefined n = true ↔ n ∈ declared

variable {names declared : List String} {y : Stmt Unit} {ys : List (Stmt Unit)} {b : Scope}

theorem Keeps.isPending (h : Keeps declared b) (n : String) : isPending [b] n = false :=
  isPending_singleton.mpr fun hn => (h.defines n).mpr ((h.declares n).mp hn)

theorem Keeps.after (h : Keeps declared b) (y : Stmt Unit) :
    ∃ b', y.after [b] = [b'] ∧ Keeps ((y.declared?.map (·.lexeme)).toList ++ declared) b' := by
  rw [Stmt.after_eq]
  cases y.declared? with
  | none => exact ⟨b, rfl, h⟩
  | some t =>
      refine ⟨b.define t.lexeme, rfl, fun n => ?_, fun n => ?_⟩
      · rw [Scope.isDeclared_define, h.declares]
        exact List.mem_cons.symm
      · rw [Scope.isDefined_define, h.defines]
        exact List.mem_cons.symm

/-- A class that inherits from itself is a fault. -/
theorem ne_of_scopeFaults {around : Surroundings} {s : Scopes} {name : Token}
    {r : Reference Unit} {methods : List (FunDecl Unit)}
    (h : (Stmt.classDecl name (some r) methods).scopeFaults around s = []) :
    r.name.lexeme ≠ name.lexeme := by
  intro heq
  rw [Stmt.scopeFaults] at h
  have hreference := (List.append_eq_nil_iff.mp (List.append_eq_nil_iff.mp h).1).2
  rw [Reference.scopeFaults, if_pos heq] at hreference
  cases hreference

namespace Arranged

theorem tail (h : Arranged names declared (y :: ys)) :
    Arranged names ((y.declared?.map (·.lexeme)).toList ++ declared) ys := by
  have hlisted := h.listed
  have hfresh := h.fresh
  have honce := h.once
  rw [topLevelNames_cons] at hlisted hfresh honce
  refine ⟨h.wellFormed.2, ?_, fun n hn => hlisted n (List.mem_append_right _ hn), ?_,
    (List.nodup_append.mp honce).2.1, ?_⟩
  · have hresolved := (List.append_eq_nil_iff.mp h.resolved).2
    rwa [Stmt.after_nil] at hresolved
  · intro n hn hmem
    rcases List.mem_append.mp hmem with hmem | hmem
    · exact (List.nodup_append.mp honce).2.2 n hmem n hn rfl
    · exact hfresh n (List.mem_append_right _ hn) hmem
  · have huses := h.uses.2
    rwa [Stmt.after_nil, Stmt.declared?_resolve] at huses

theorem declared_fresh (h : Arranged names declared (y :: ys)) :
    ∀ t ∈ y.declared?, t.lexeme ∈ names ∧ t.lexeme ∉ declared := by
  intro t ht
  have hmem : t.lexeme ∈ topLevelNames (y :: ys) := by
    rw [topLevelNames_cons, show y.declared? = some t from ht]
    exact List.mem_cons_self
  exact ⟨h.listed _ hmem, h.fresh _ hmem⟩

/-- The names that the first statement uses. -/
theorem sees (h : Arranged names declared (y :: ys)) :
    ∀ n ∈ (y.resolve .none []).globals, (Spot.inside ⟨0, some declared⟩ y).Sees names n := by
  have hinside : Spot.inside ⟨0, some declared⟩ y = ⟨0, some (y.ownName ++ declared)⟩ := by
    cases y <;> rfl
  intro n hn hmem
  have huse := h.uses.1 n hn hmem
  rw [Stmt.ownName_resolve] at huse
  rw [hinside]
  exact ⟨_, rfl, huse⟩

theorem fits (h : Arranged names declared (y :: ys)) : Fits names ⟨0, some declared⟩ y where
  may t ht _ := iff_of_true (h.declared_fresh t ht).1 rfl
  fresh _ _ hdeclared t ht := by
    cases hdeclared
    exact (h.declared_fresh t ht).2
  inherits _ name r methods hy :=
    ne_of_scopeFaults (hy ▸ (List.append_eq_nil_iff.mp h.resolved).1)

/-- In the block the program is the same, but for the names of its top level, which are
found at distances. -/
theorem stmtsRel {f : Token → Token} (hf : KeepsTexts f) (hthis : thisName ∉ names)
    (hsuper : superName ∉ names) (hdeclared : ∀ n ∈ declared, n ∈ names)
    (h : Arranged names declared ys) (hb : Keeps declared b) (m : Nat) :
    (wrapping names).StmtsRel ⟨0, some declared⟩ (Stmt.resolveAll .none [] ys)
      (Stmt.mapAll f (fun _ => id) m (Stmt.resolveAll .none [b] ys)) := by
  induction ys generalizing declared b with
  | nil => exact .nil
  | cons y ys ih =>
      have hwraps : Wraps names f ⟨0, some declared⟩ [] [b] :=
        ⟨hf, hthis, hsuper, .inside (fun n hn => (hb.defines n).mpr hn)
          fun n hn => hdeclared n ((hb.declares n).mp hn), rfl⟩
      have hy := hwraps.stmtRel .none m y h.wellFormed.1 h.fits h.sees
      have hafter : Spot.after ⟨0, some declared⟩ y =
          ⟨0, some ((y.declared?.map (·.lexeme)).toList ++ declared)⟩ := by
        rw [Spot.after]
        cases y.declared? <;> rfl
      obtain ⟨b', heq, hb'⟩ := hb.after y
      rw [hafter] at hy
      rw [Stmt.resolveAll, Stmt.resolveAll, Stmt.after_nil, heq]
      refine .cons hy (ih (fun n hn => ?_) h.tail hb')
      rcases List.mem_append.mp hn with hn | hn
      · obtain ⟨t, ht, rfl⟩ := Option.map_eq_some_iff.mp (Option.mem_toList.mp hn)
        exact (h.declared_fresh t ht).1
      · exact hdeclared n hn

/-- The program has no fault in the block either. -/
theorem scopeFaults (h : Arranged names declared ys) (hb : Keeps declared b) :
    Stmt.scopeFaultsAll {} [b] ys = [] := by
  induction ys generalizing declared b with
  | nil => rfl
  | cons y ys ih =>
      have hfresh : ∀ t ∈ y.declared?, b.isDeclared t.lexeme = false := fun t ht =>
        Bool.eq_false_iff.mpr fun hn => (h.declared_fresh t ht).2 ((hb.declares _).mp hn)
      have hown : ∀ t e, y = .varDecl t (some e) → t.lexeme ∉ (e.resolve .none []).globals := by
        rintro t e rfl hn
        have hmem := h.uses.1 _ hn (h.declared_fresh t rfl).1
        exact (h.declared_fresh t rfl).2 hmem
      obtain ⟨b', heq, hb'⟩ := hb.after y
      rw [Stmt.scopeFaultsAll, heq,
        y.scopeFaults_block {} h.wellFormed.1 hb.isPending hfresh hown,
        (List.append_eq_nil_iff.mp h.resolved).1]
      exact ih h.tail hb'

end Arranged

/-- Outside of the block nothing is different, if no name of its top level is used or
declared there. -/
theorem stmtsRel_outside (hthis : thisName ∉ names) (hsuper : superName ∉ names)
    (hw : Stmt.WellFormedAll ys) (hfaults : Stmt.scopeFaultsAll {} [] ys = [])
    (hdeclares : ∀ n ∈ topLevelNames ys, n ∉ names)
    (huses : ∀ n ∈ Stmt.globalsAll (Stmt.resolveAll .none [] ys), n ∉ names) :
    (wrapping names).StmtsRel ⟨0, none⟩ (Stmt.resolveAll .none [] ys)
      (Stmt.resolveAll .none [] ys) := by
  induction ys with
  | nil => exact .nil
  | cons y ys ih =>
      rw [topLevelNames_cons, List.forall_mem_append] at hdeclares
      rw [Stmt.resolveAll, Stmt.globalsAll, List.forall_mem_append] at huses
      obtain ⟨hy, hys⟩ := List.append_eq_nil_iff.mp hfaults
      rw [Stmt.after_nil] at huses hys
      have hinside : Spot.inside ⟨0, none⟩ y = ⟨0, none⟩ := by cases y <;> rfl
      have hafter : Spot.after ⟨0, none⟩ y = ⟨0, none⟩ := by
        rw [Spot.after]
        cases y.declared? <;> rfl
      have hfits : Fits names ⟨0, none⟩ y := by
        refine ⟨fun t ht _ => ?_, fun _ _ h => ?_, fun _ name r methods heq => ?_⟩
        · refine iff_of_false (hdeclares.1 _ ?_) (by decide)
          rw [show y.declared? = some t from ht]
          exact List.mem_singleton_self _
        · cases h
        · exact ne_of_scopeFaults (heq ▸ hy)
      have hwraps : Wraps names id ⟨0, none⟩ [] [] :=
        ⟨fun _ => ⟨rfl, rfl⟩, hthis, hsuper, .outside, rfl⟩
      have hstmt := hwraps.stmtRel .none 0 y hw.1 hfits fun n hn hmem =>
        absurd hmem (huses.1 n hn)
      rw [List.append_nil, Stmt.map_id, hafter] at hstmt
      rw [Stmt.resolveAll, Stmt.after_nil]
      exact .cons hstmt (ih hw.2 hys hdeclares.2 huses.2)

end Wrapping
end Lox
