import Lox.Proofs.Joining.Resolving
import Lox.Proofs.Scoping.Resolved
import Lox.Proofs.Wrapping.Frames

/-!
# Programs in a block

What a program looks up among the globals, and what becomes of it when the program is
resolved inside a block: names that the top level declares are found in the scope of the
block, at a distance, if they are declared before they are used.
-/

namespace Lox

/-! ## Uses of global names -/

/-- The name, if no scope around it declares it. -/
def globalName (name : Token) : Slot → List String
  | none => [name.lexeme]
  | some _ => []

mutual

/-- The names that an expression reads and assigns as globals. -/
def Expr.globals : Expr Slot → List String
  | .literal _ => []
  | .unary _ operand => operand.globals
  | .binary left _ right => left.globals ++ right.globals
  | .logical left _ right => left.globals ++ right.globals
  | .conditional condition thenBranch elseBranch =>
    condition.globals ++ thenBranch.globals ++ elseBranch.globals
  | .grouping inner => inner.globals
  | .var name slot => globalName name slot
  | .assign name slot value => globalName name slot ++ value.globals
  | .call callee _ arguments => callee.globals ++ Expr.globalsAll arguments
  | .get object _ => object.globals
  | .set object _ value => object.globals ++ value.globals
  | .thisRef _ _ => []
  | .superRef _ _ _ => []
  | .vector _ elements => Expr.globalsAll elements

def Expr.globalsAll : List (Expr Slot) → List String
  | [] => []
  | e :: rest => e.globals ++ Expr.globalsAll rest

end

def Expr.globalsOption : Option (Expr Slot) → List String
  | none => []
  | some e => e.globals

def Reference.globals : Option (Reference Slot) → List String
  | none => []
  | some r => globalName r.name r.slot

mutual

/-- The names that a statement reads, assigns and inherits from as globals. -/
def Stmt.globals : Stmt Slot → List String
  | .expression e => e.globals
  | .print e => e.globals
  | .varDecl _ initializer => Expr.globalsOption initializer
  | .block body => Stmt.globalsAll body
  | .ifThen condition thenBranch => condition.globals ++ thenBranch.globals
  | .ifElse condition thenBranch elseBranch =>
    condition.globals ++ thenBranch.globals ++ elseBranch.globals
  | .whileLoop condition body => condition.globals ++ body.globals
  | .function f => f.globals
  | .ret _ value => Expr.globalsOption value
  | .classDecl _ superclass methods => Reference.globals superclass ++ FunDecl.globalsAll methods

def Stmt.globalsAll : List (Stmt Slot) → List String
  | [] => []
  | s :: rest => s.globals ++ Stmt.globalsAll rest

def FunDecl.globals : FunDecl Slot → List String
  | .mk _ _ body => Stmt.globalsAll body

def FunDecl.globalsAll : List (FunDecl Slot) → List String
  | [] => []
  | f :: rest => f.globals ++ FunDecl.globalsAll rest

end

/-- The names that a program declares at its top level, in order. -/
def topLevelNames {δ : Type} (program : List (Stmt δ)) : List String :=
  program.filterMap fun s => s.declared?.map (·.lexeme)

/-- The name that the statement itself may use: that of a function or a class, which is
known inside it. -/
def Stmt.ownName {δ : Type} : Stmt δ → List String
  | .function f => [f.name.lexeme]
  | .classDecl name _ _ => [name.lexeme]
  | _ => []

/-- Every use of one of the names comes after its declaration, if `declared` are those
that were declared before the program. A function and a class may use their own names. -/
def UsesDeclared (names declared : List String) : List (Stmt Slot) → Prop
  | [] => True
  | s :: rest =>
    (∀ n ∈ s.globals, n ∈ names → n ∈ s.ownName ++ declared) ∧
      UsesDeclared names ((s.declared?.map (·.lexeme)).toList ++ declared) rest

instance UsesDeclared.decidable (names declared : List String) :
    (program : List (Stmt Slot)) → Decidable (UsesDeclared names declared program)
  | [] => .isTrue trivial
  | s :: rest =>
    have := UsesDeclared.decidable names ((s.declared?.map (·.lexeme)).toList ++ declared) rest
    inferInstanceAs (Decidable (_ ∧ _))

namespace Wrapping

/-! ## Scopes with the block around them -/

/-- The scopes around the second program, given which names of the top level were
declared: none, or that of the block. -/
inductive Outer (names : List String) : Option (List String) → Scopes → Prop
  | outside : Outer names none []
  | inside {declared : List String} {b : Scope} :
      (∀ n ∈ declared, b.isDefined n = true) → (∀ n, b.isDeclared n = true → n ∈ names) →
      Outer names (some declared) [b]

/-- A name of the top level may be used where it was declared before. -/
def Spot.Sees (names : List String) (p : Spot) (n : String) : Prop :=
  n ∈ names → ∃ declared, p.declared = some declared ∧ n ∈ declared

/-- The spot after a statement. -/
def Spot.after {δ : Type} (p : Spot) (y : Stmt δ) : Spot :=
  match y.declared? with
  | none => p
  | some t => p.declare t.lexeme

/-- The spot of the code in a statement: in a function or a class its name is known. -/
def Spot.inside {δ : Type} (p : Spot) : Stmt δ → Spot
  | .function f => p.declare f.name.lexeme
  | .classDecl name _ _ => p.declare name.lexeme
  | _ => p

variable {names : List String} {p : Spot} {s outer : Scopes} {n : String}

theorem Spot.declare_of_ne (h : p.depth ≠ 0) (name : String) : p.declare name = p :=
  if_neg h

theorem Spot.after_of_ne {δ : Type} (h : p.depth ≠ 0) (y : Stmt δ) : p.after y = p := by
  rw [after]
  cases y.declared? with
  | none => rfl
  | some t => exact declare_of_ne h t.lexeme

theorem Spot.inside_of_ne {δ : Type} (h : p.depth ≠ 0) (y : Stmt δ) : p.inside y = p := by
  cases y with
  | function f => exact declare_of_ne h _
  | classDecl name => exact declare_of_ne h _
  | _ => rfl

theorem Spot.after_of_declared? {δ : Type} {y : Stmt δ} (h : y.declared? = none) :
    p.after y = p := by
  rw [after, h]

theorem Spot.inside_of_declared? {δ : Type} {y : Stmt δ} (h : y.declared? = none) :
    p.inside y = p := by
  cases y with
  | function | classDecl => cases h
  | _ => rfl

/-- Only the declared name itself needs the declaration. -/
theorem Spot.Sees.of_declare {name : String} (h : (p.declare name).Sees names n)
    (hne : p.depth = 0 → n ≠ name) : p.Sees names n := by
  by_cases hzero : p.depth = 0
  · intro hn
    obtain ⟨declared, hdeclared, hmem⟩ := h hn
    rw [declare, if_pos hzero] at hdeclared
    obtain ⟨declared', hdeclared', rfl⟩ := Option.map_eq_some_iff.mp hdeclared
    exact ⟨declared', hdeclared', List.mem_of_ne_of_mem (hne hzero) hmem⟩
  · rwa [declare_of_ne hzero] at h

theorem Finds.of_declare {m : String} {slot slot' : Slot}
    (h : Finds names (p.declare m) n slot slot') (hne : p.depth = 0 → n ≠ m) :
    Finds names p n slot slot' := by
  cases h with
  | inner hd => exact .inner (p.depth_declare m ▸ hd)
  | other hn => exact .other hn
  | top hn hdeclared hmem =>
      have hsees : (p.declare m).Sees names n := fun _ => ⟨_, hdeclared, hmem⟩
      obtain ⟨declared, hdeclared, hmem⟩ := hsees.of_declare hne hn
      rw [Spot.depth_declare]
      exact .top hn hdeclared hmem

/-- Other names are not declared by the block. -/
theorem Outer.distanceTo?_other {declared : Option (List String)} (h : Outer names declared outer)
    (hn : n ∉ names) : Scopes.distanceTo? (s ++ outer) n = s.distanceTo? n := by
  rw [Scopes.distanceTo?_append]
  cases h with
  | outside => exact Option.or_none
  | @inside declared b _ hdeclared =>
      have hnone : Scopes.distanceTo? [b] n = none := by
        rw [Scopes.distanceTo?, List.findIdx?_singleton, if_neg]
        exact fun hb => hn (hdeclared n hb)
      rw [hnone]
      exact Option.or_none

/-- The slots of a name in both programs. -/
theorem Outer.finds (h : Outer names p.declared outer) (hdepth : p.depth = s.length)
    (hsees : s.distanceTo? n = none → p.Sees names n) :
    Finds names p n (s.distanceTo? n) (Scopes.distanceTo? (s ++ outer) n) := by
  cases hd : s.distanceTo? n with
  | some d =>
      rw [Scopes.distanceTo?_append, hd]
      exact .inner (hdepth ▸ Scopes.distanceTo?_lt hd)
  | none =>
      by_cases hn : n ∈ names
      · obtain ⟨declared, hdeclared, hmem⟩ := hsees hd hn
        rw [hdeclared] at h
        cases h with
        | @inside _ b hdefined _ =>
            have hzero : Scopes.distanceTo? [b] n = some 0 := by
              rw [Scopes.distanceTo?, List.findIdx?_singleton, if_pos]
              exact Scope.isDeclared_of_isDefined (hdefined n hmem)
            rw [Scopes.distanceTo?_append, hd, hzero, Option.none_or, Option.map_some, Nat.zero_add,
              ← hdepth]
            exact .top hn hdeclared hmem
      · rw [h.distanceTo?_other hn, hd]
        exact .other hn

theorem Outer.declare (h : Outer names p.declared outer) (hdepth : p.depth = s.length)
    (hmay : p.MayDeclare names n)
    (hfresh : p.depth = 0 → ∀ declared, p.declared = some declared → n ∉ declared) :
    ∃ outer', Scopes.declare n (s ++ outer) = s.declare n ++ outer' ∧
      Outer names p.declared outer' := by
  cases s with
  | cons scope s => exact ⟨outer, rfl, h⟩
  | nil =>
      have hn := hmay hdepth
      have hfresh := hfresh hdepth
      generalize p.declared = declared at h hn hfresh
      cases h with
      | outside => exact ⟨[], rfl, .outside⟩
      | @inside declared b hdefined hdeclared =>
          refine ⟨[b.declare n], rfl, .inside (fun m hm => ?_) fun m hm => ?_⟩
          · refine (Scope.isDefined_declare b n m).mpr ⟨?_, hdefined m hm⟩
            rintro rfl
            exact hfresh declared rfl hm
          · rcases (Scope.isDeclared_declare b n m).mp hm with rfl | hm
            · exact hn.mpr rfl
            · exact hdeclared m hm

theorem Outer.define (h : Outer names p.declared outer) (hdepth : p.depth = s.length)
    (hmay : p.MayDeclare names n) :
    ∃ outer', Scopes.define n (s ++ outer) = s.define n ++ outer' ∧
      Outer names (p.declare n).declared outer' := by
  cases s with
  | cons scope s =>
      rw [show p.declare n = p from if_neg (by rw [hdepth]; exact Nat.succ_ne_zero _)]
      exact ⟨outer, rfl, h⟩
  | nil =>
      have hn := hmay hdepth
      rw [show p.declare n = { p with declared := p.declared.map (n :: ·) } from if_pos hdepth]
      generalize p.declared = declared at h hn
      cases h with
      | outside => exact ⟨[], rfl, .outside⟩
      | @inside declared b hdefined hdeclared =>
          refine ⟨[b.define n], rfl, .inside (fun m hm => ?_) fun m hm => ?_⟩
          · refine (Scope.isDefined_define b n m).mpr ?_
            rcases List.mem_cons.mp hm with rfl | hm
            · exact .inl rfl
            · exact .inr (hdefined m hm)
          · rcases (Scope.isDeclared_define b n m).mp hm with rfl | hm
            · exact hn.mpr rfl
            · exact hdeclared m hm

/-! ## Both programs, fragment by fragment -/

/-- Code that is resolved in the scopes `s` for the first run, with `outer` around them
for the second. There its tokens are replaced by others that read the same. -/
structure Wraps (names : List String) (f : Token → Token) (p : Spot) (s outer : Scopes) :
    Prop where
  texts : KeepsTexts f
  this : thisName ∉ names
  super : superName ∉ names
  outer : Outer names p.declared outer
  depth : p.depth = s.length

namespace Wraps

variable {f : Token → Token}

theorem enter (h : Wraps names f p s outer) (scope : Scope) :
    Wraps names f p.enter (scope :: s) outer :=
  ⟨h.texts, h.this, h.super, h.outer, congrArg (· + 1) h.depth⟩

/-- In the scopes of a function, its parameters included. -/
theorem function (h : Wraps names f p s outer) (name : Token) (params : List Token) :
    Scopes.function (s ++ outer) name params = s.function name params ++ outer ∧
      Wraps names f p.enter (s.function name params) outer := by
  obtain ⟨scope, hscope⟩ := Scopes.function_eq name params
  rw [hscope, hscope]
  exact ⟨rfl, h.enter scope⟩

theorem declare (h : Wraps names f p s outer) (hmay : p.MayDeclare names n)
    (hfresh : p.depth = 0 → ∀ declared, p.declared = some declared → n ∉ declared) :
    ∃ outer', Scopes.declare n (s ++ outer) = s.declare n ++ outer' ∧
      Wraps names f p (s.declare n) outer' := by
  obtain ⟨outer', heq, houter⟩ := h.outer.declare h.depth hmay hfresh
  refine ⟨outer', heq, h.texts, h.this, h.super, houter, h.depth.trans ?_⟩
  cases s <;> rfl

theorem define (h : Wraps names f p s outer) (hmay : p.MayDeclare names n) :
    ∃ outer', Scopes.define n (s ++ outer) = s.define n ++ outer' ∧
      Wraps names f (p.declare n) (s.define n) outer' := by
  obtain ⟨outer', heq, houter⟩ := h.outer.define h.depth hmay
  refine ⟨outer', heq, h.texts, h.this, h.super, houter, ?_⟩
  rw [Spot.depth_declare, h.depth]
  cases s <;> rfl

/-- A reserved name is found in the scopes of the program or nowhere. -/
theorem reserved (h : Wraps names f p s outer) (hn : n = thisName ∨ n = superName) :
    Scopes.distanceTo? (s ++ outer) n = s.distanceTo? n := by
  rcases hn with rfl | rfl
  · exact h.outer.distanceTo?_other h.this
  · exact h.outer.distanceTo?_other h.super

theorem finds (h : Wraps names f p s outer) (t : Token)
    (hsees : ∀ n ∈ globalName t (s.distanceTo? t.lexeme), p.Sees names n) :
    Finds names p t.lexeme (s.distanceTo? t.lexeme) (Scopes.distanceTo? (s ++ outer) t.lexeme) := by
  refine h.outer.finds h.depth fun hd => hsees _ ?_
  rw [hd]
  exact List.mem_singleton_self _

mutual

theorem exprRel (h : Wraps names f p s outer) (c : ClassKind) (e : Expr Unit)
    (hw : e.WellFormed) (hsees : ∀ n ∈ (e.resolve c s).globals, p.Sees names n) :
    (wrapping names).ExprRel p (e.resolve c s) ((e.resolve c (s ++ outer)).map f id) := by
  cases e with
  | literal value => exact .literal
  | unary operator a => exact .unary (h.texts _) (exprRel h c a hw hsees)
  | binary a operator b =>
      rw [Expr.resolve, Expr.globals, List.forall_mem_append] at hsees
      exact .binary (h.texts _) (exprRel h c a hw.1 hsees.1) (exprRel h c b hw.2 hsees.2)
  | logical a operator b =>
      rw [Expr.resolve, Expr.globals, List.forall_mem_append] at hsees
      exact .logical (h.texts _) (exprRel h c a hw.1 hsees.1) (exprRel h c b hw.2 hsees.2)
  | conditional a b d =>
      rw [Expr.resolve, Expr.globals, List.forall_mem_append, List.forall_mem_append] at hsees
      exact .conditional (exprRel h c a hw.1 hsees.1.1) (exprRel h c b hw.2.1 hsees.1.2)
        (exprRel h c d hw.2.2 hsees.2)
  | grouping a => exact .grouping (exprRel h c a hw hsees)
  | var t => exact .var (.var (h.texts t) (h.finds t hsees))
  | assign t slot a =>
      rw [Expr.resolve, Expr.globals, List.forall_mem_append] at hsees
      exact .assign (.assign (h.texts t) (h.finds t hsees.1)) (exprRel h c a hw.2 hsees.2)
  | call a paren es =>
      rw [Expr.resolve, Expr.globals, List.forall_mem_append] at hsees
      exact .call (exprRel h c a hw.1 hsees.1) (exprsRel h c es hw.2 hsees.2)
  | get a name => exact .get (h.texts _) (exprRel h c a hw hsees)
  | set a name b =>
      rw [Expr.resolve, Expr.globals, List.forall_mem_append] at hsees
      exact .set (h.texts _) (exprRel h c a hw.1 hsees.1) (exprRel h c b hw.2 hsees.2)
  | thisRef t =>
      refine .thisRef (.thisRef (h.texts t) ?_)
      have hother : t.lexeme ∉ names := (show t.lexeme = thisName from hw) ▸ h.this
      split
      · exact .other hother
      · exact h.outer.finds h.depth fun _ hn => absurd hn hother
  | superRef t method =>
      refine .superRef (h.texts _) ?_
      rw [h.reserved (.inr hw)]
      refine .superRef fun d hd => ?_
      split at hd
      · exact h.depth ▸ Scopes.distanceTo?_lt hd
      · cases hd
  | vector bracket es => exact .vector (exprsRel h c es hw hsees)

theorem exprsRel (h : Wraps names f p s outer) (c : ClassKind) (es : List (Expr Unit))
    (hw : Expr.WellFormedAll es)
    (hsees : ∀ n ∈ Expr.globalsAll (Expr.resolveAll c s es), p.Sees names n) :
    (wrapping names).ExprsRel p (Expr.resolveAll c s es)
      (Expr.mapAll f id (Expr.resolveAll c (s ++ outer) es)) := by
  cases es with
  | nil => exact .nil
  | cons e es =>
      rw [Expr.resolveAll, Expr.globalsAll, List.forall_mem_append] at hsees
      exact .cons (exprRel h c e hw.1 hsees.1) (exprsRel h c es hw.2 hsees.2)

end

/-- The scopes after a statement inside another scope. -/
theorem after (h : Wraps names f p s outer) (hdepth : p.depth ≠ 0) (y : Stmt Unit) :
    y.after (s ++ outer) = y.after s ++ outer ∧ Wraps names f p (y.after s) outer := by
  cases s with
  | nil => exact absurd h.depth hdepth
  | cons scope s =>
      obtain ⟨scope', heq⟩ := y.after_cons scope
      rw [List.cons_append, heq, heq]
      exact ⟨rfl, h.texts, h.this, h.super, h.outer, h.depth⟩

end Wraps

/-- What a statement of the top level has to keep to: its name is declared there once, and
a class does not inherit from itself. -/
structure Fits (names : List String) (p : Spot) (y : Stmt Unit) : Prop where
  may : ∀ t ∈ y.declared?, p.MayDeclare names t.lexeme
  fresh : p.depth = 0 → ∀ declared, p.declared = some declared →
    ∀ t ∈ y.declared?, t.lexeme ∉ declared
  inherits : p.depth = 0 → ∀ name r methods, y = .classDecl name (some r) methods →
    r.name.lexeme ≠ name.lexeme

theorem fits_of_ne {y : Stmt Unit} (h : p.depth ≠ 0) : Fits names p y :=
  ⟨fun _ _ hzero => absurd hzero h, fun hzero => absurd hzero h, fun hzero => absurd hzero h⟩

theorem fits_of_declared? {y : Stmt Unit} (h : y.declared? = none) : Fits names p y := by
  refine ⟨fun t ht => ?_, fun _ _ _ t ht => ?_, fun _ name r methods hy => ?_⟩
  · rw [h] at ht
    cases ht
  · rw [h] at ht
    cases ht
  · rw [hy] at h
    cases h

namespace Wraps

variable {f : Token → Token}

mutual

theorem stmtRel {p : Spot} {s outer : Scopes} (h : Wraps names f p s outer) (c : ClassKind)
    (m : Nat) (y : Stmt Unit) (hw : y.WellFormed) (hfits : Fits names p y)
    (hsees : ∀ n ∈ (y.resolve c s).globals, (p.inside y).Sees names n) :
    (wrapping names).StmtRel p (y.resolve c s)
      ((y.resolve c (s ++ outer)).map f (fun _ => id) m) (p.after y) := by
  cases y with
  | expression e => exact .expression (h.exprRel c e hw hsees)
  | print e => exact .print (h.exprRel c e hw hsees)
  | varDecl t initializer =>
      have hmay := hfits.may t rfl
      cases initializer with
      | none => exact .varPlain (q := p) ⟨h.texts t, rfl, rfl, hmay⟩
      | some e =>
          obtain ⟨outer', heq, h'⟩ := h.declare hmay fun hzero declared hdeclared =>
            hfits.fresh hzero declared hdeclared t rfl
          have he : (wrapping names).ExprRel p (e.resolve c (s.declare t.lexeme))
              ((e.resolve c (Scopes.declare t.lexeme (s ++ outer))).map f id) := by
            rw [heq]
            exact h'.exprRel c e hw.2 hsees
          exact .varDecl (q := p) ⟨h.texts t, rfl, rfl, hmay⟩ he
  | block body =>
      exact .block (q := p.enter) ⟨rfl, rfl⟩
        (stmtsRel (h.enter _) (Nat.succ_ne_zero _) c (m + 1) body hw hsees)
  | ifThen e a =>
      rw [Stmt.resolve, Stmt.globals, List.forall_mem_append] at hsees
      have ha := stmtRel h c m a hw.2.1 (fits_of_declared? hw.2.2)
      rw [Spot.inside_of_declared? hw.2.2, Spot.after_of_declared? hw.2.2] at ha
      exact .ifThen (h.exprRel c e hw.1 hsees.1) (ha hsees.2)
  | ifElse e a b =>
      rw [Stmt.resolve, Stmt.globals, List.forall_mem_append, List.forall_mem_append] at hsees
      have ha := stmtRel h c m a hw.2.1.1 (fits_of_declared? hw.2.1.2)
      have hb := stmtRel h c m b hw.2.2.1 (fits_of_declared? hw.2.2.2)
      rw [Spot.inside_of_declared? hw.2.1.2, Spot.after_of_declared? hw.2.1.2] at ha
      rw [Spot.inside_of_declared? hw.2.2.2, Spot.after_of_declared? hw.2.2.2] at hb
      exact .ifElse (h.exprRel c e hw.1 hsees.1.1) (ha hsees.1.2) (hb hsees.2)
  | whileLoop e a =>
      rw [Stmt.resolve, Stmt.globals, List.forall_mem_append] at hsees
      have ha := stmtRel h c m a hw.2.1 (fits_of_declared? hw.2.2)
      rw [Spot.inside_of_declared? hw.2.2, Spot.after_of_declared? hw.2.2] at ha
      exact .whileLoop (h.exprRel c e hw.1 hsees.1) (ha hsees.2)
  | function d =>
      have hmay := hfits.may d.name rfl
      obtain ⟨outer', heq, h'⟩ := h.define hmay
      have hd : (wrapping names).FunRel (p.declare d.name.lexeme)
          (d.resolve c (s.define d.name.lexeme))
          ((d.resolve c (Scopes.define d.name.lexeme (s ++ outer))).map f (fun _ => id) m) := by
        rw [heq]
        exact funRel h' c m d hw hsees
      have hname : d.name.Alike ((d.resolve c (Scopes.define d.name.lexeme (s ++ outer))).map f
          (fun _ => id) m).name := by
        have halike := FunDecl.alike_name_map h.texts m
          (d.resolve c (Scopes.define d.name.lexeme (s ++ outer)))
        rwa [FunDecl.name_resolve] at halike
      have hname' := FunDecl.name_resolve (c := c) (s := s.define d.name.lexeme) d
      refine .function (q := p) ⟨?_, rfl, ?_, ?_⟩ hd
      · rw [hname']
        exact hname
      · rw [hname']
        rfl
      · rw [hname']
        exact hmay
  | ret t value =>
      cases value with
      | none => exact .retPlain
      | some e => exact .ret (h.exprRel c e hw hsees)
  | classDecl t superclass methods =>
      have hmay := hfits.may t rfl
      obtain ⟨outer', heq, h'⟩ := h.define hmay
      rw [Stmt.resolve, Stmt.globals, List.forall_mem_append] at hsees
      rw [Stmt.resolve, Stmt.resolve, heq]
      cases superclass with
      | none =>
          exact .plainClass (q := p) (h.texts t).lexeme ⟨h.texts t, rfl, rfl, hmay⟩
            (methodsRel h' _ .plain _ methods hw.2.2 hsees.2)
      | some r =>
          have hfinds := h'.finds r.name hsees.1
          refine .derivedClass (q := p) (i := (p.declare t.lexeme).enter) (h.texts t).lexeme
            ⟨h.texts t, rfl, rfl, hmay⟩ (.var (h.texts r.name) ?_) ⟨rfl, rfl⟩
            (methodsRel (h'.enter _) _ .derived _ methods hw.2.2 hsees.2)
          exact hfinds.of_declare fun hzero => hfits.inherits hzero t r methods rfl

theorem stmtsRel {p : Spot} {s outer : Scopes} (h : Wraps names f p s outer)
    (hdepth : p.depth ≠ 0) (c : ClassKind) (m : Nat) (ys : List (Stmt Unit))
    (hw : Stmt.WellFormedAll ys)
    (hsees : ∀ n ∈ Stmt.globalsAll (Stmt.resolveAll c s ys), p.Sees names n) :
    (wrapping names).StmtsRel p (Stmt.resolveAll c s ys)
      (Stmt.mapAll f (fun _ => id) m (Stmt.resolveAll c (s ++ outer) ys)) := by
  cases ys with
  | nil => exact .nil
  | cons y ys =>
      rw [Stmt.resolveAll, Stmt.globalsAll, List.forall_mem_append] at hsees
      obtain ⟨heq, h'⟩ := h.after hdepth y
      have hy := stmtRel h c m y hw.1 (fits_of_ne hdepth)
      rw [Spot.inside_of_ne hdepth, Spot.after_of_ne hdepth] at hy
      rw [Stmt.resolveAll, Stmt.resolveAll, heq]
      exact .cons (hy hsees.1) (stmtsRel h' hdepth c m ys hw.2 hsees.2)

theorem funRel {p : Spot} {s outer : Scopes} (h : Wraps names f p s outer) (c : ClassKind)
    (m : Nat) (d : FunDecl Unit) (hw : d.WellFormed)
    (hsees : ∀ n ∈ (d.resolve c s).globals, p.Sees names n) :
    (wrapping names).FunRel p (d.resolve c s)
      ((d.resolve c (s ++ outer)).map f (fun _ => id) m) := by
  cases d with
  | mk t params body =>
      obtain ⟨heq, h'⟩ := h.function t params
      have hparams : params.map (·.lexeme) = (params.map f).map (·.lexeme) := by
        rw [List.map_map]
        exact List.map_congr_left fun u _ => (h.texts u).lexeme
      rw [FunDecl.resolve, FunDecl.resolve, heq]
      exact .mk (q := p.enter) (h.texts t).lexeme (List.length_map ..).symm ⟨hparams, rfl⟩
        (stmtsRel h' (Nat.succ_ne_zero _) c (m + 1) body hw.2.2 hsees)

/-- Methods are resolved in the scope of their receiver. -/
theorem methodsRel {p : Spot} {s outer : Scopes} (h : Wraps names f p s outer) (scope : Scope)
    (c : ClassKind) (m : Nat) (ds : List (FunDecl Unit)) (hw : FunDecl.WellFormedAll ds)
    (hsees : ∀ n ∈ FunDecl.globalsAll (FunDecl.resolveAll c (scope :: s) ds), p.Sees names n) :
    (wrapping names).MethodsRel p (FunDecl.resolveAll c (scope :: s) ds)
      (FunDecl.mapAll f (fun _ => id) m (FunDecl.resolveAll c (scope :: (s ++ outer)) ds)) := by
  cases ds with
  | nil => exact .nil
  | cons d ds =>
      rw [FunDecl.resolveAll, FunDecl.globalsAll, List.forall_mem_append] at hsees
      exact .cons (q := p.enter) ⟨rfl, rfl⟩ (funRel (h.enter scope) c m d hw.1 hsees.1)
        (methodsRel h scope c m ds hw.2 hsees.2)

end

end Wraps

end Wrapping
end Lox
