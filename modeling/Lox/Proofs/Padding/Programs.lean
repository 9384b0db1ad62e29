import Lox.Proofs.Padding.Frames
import Lox.Proofs.Scoping.Resolved
import Lox.Proofs.Scoping.Runs

/-!
# Programs with a scope more around them

A tree is resolved in some scopes, and once more where a scope that declares nothing lies
somewhere among them. What becomes of it is the same text, and its references find the
same scopes: past the additional one their distances are greater by one.

At a moment of a run of accepted units the machine has the frames that were made, and nothing that
it holds refers to others. So it is related to itself, each frame being kept where it is, and both
runs of a comparison may begin with it.
-/

namespace Lox

/-! ## The text of resolved trees -/

mutual

/-- Resolution changes nothing but slots. -/
theorem Expr.forget_resolve (c : ClassKind) (s : Scopes) (e : Expr Unit) :
    (e.resolve c s).map id (fun _ => ()) = e := by
  cases e with
  | literal | var | thisRef | superRef => rfl
  | unary operator a => simp only [Expr.resolve, Expr.map, Expr.forget_resolve c s a, id]
  | binary a operator b | logical a operator b | set a operator b =>
      simp only [Expr.resolve, Expr.map, Expr.forget_resolve c s a, Expr.forget_resolve c s b, id]
  | conditional a b d =>
      simp only [Expr.resolve, Expr.map, Expr.forget_resolve c s a, Expr.forget_resolve c s b,
        Expr.forget_resolve c s d]
  | grouping a | get a | assign name slot a =>
      simp only [Expr.resolve, Expr.map, Expr.forget_resolve c s a, id]
  | call a paren es =>
      simp only [Expr.resolve, Expr.map, Expr.forget_resolve c s a, Expr.forget_resolveAll c s es,
        id]
  | vector bracket es => simp only [Expr.resolve, Expr.map, Expr.forget_resolveAll c s es, id]

theorem Expr.forget_resolveAll (c : ClassKind) (s : Scopes) (es : List (Expr Unit)) :
    Expr.mapAll id (fun _ => ()) (Expr.resolveAll c s es) = es := by
  cases es with
  | nil => rfl
  | cons e es =>
      simp only [Expr.resolveAll, Expr.mapAll, Expr.forget_resolve c s e,
        Expr.forget_resolveAll c s es]

end

theorem Expr.forget_resolveOption (c : ClassKind) (s : Scopes) (e : Option (Expr Unit)) :
    (e.map (Expr.resolve c s)).map (Expr.map id fun _ => ()) = e := by
  cases e with
  | none => rfl
  | some e => exact congrArg some (e.forget_resolve c s)

mutual

theorem Stmt.forget_resolve (c : ClassKind) (s : Scopes) (n : Nat) (y : Stmt Unit) :
    (y.resolve c s).map id (fun _ _ => ()) n = y := by
  cases y with
  | expression e | print e => simp only [Stmt.resolve, Stmt.map, e.forget_resolve]
  | varDecl name e | ret name e =>
      simp only [Stmt.resolve, Stmt.map, Expr.forget_resolveOption, id]
  | block body => simp only [Stmt.resolve, Stmt.map, Stmt.forget_resolveAll c _ _ body]
  | ifThen e a | whileLoop e a =>
      simp only [Stmt.resolve, Stmt.map, e.forget_resolve, Stmt.forget_resolve c s n a]
  | ifElse e a b =>
      simp only [Stmt.resolve, Stmt.map, e.forget_resolve, Stmt.forget_resolve c s n a,
        Stmt.forget_resolve c s n b]
  | function d => simp only [Stmt.resolve, Stmt.map, FunDecl.forget_resolve c _ n d]
  | classDecl name r methods =>
      have hr : (r.map (Reference.resolve (s.define name.lexeme))).map
          (Reference.map id fun _ => ()) = r := by
        cases r <;> rfl
      simp only [Stmt.resolve, Stmt.map, FunDecl.forget_resolveAll _ _ _ methods, hr, id]

theorem Stmt.forget_resolveAll (c : ClassKind) (s : Scopes) (n : Nat)
    (ys : List (Stmt Unit)) :
    Stmt.mapAll id (fun _ _ => ()) n (Stmt.resolveAll c s ys) = ys := by
  cases ys with
  | nil => rfl
  | cons y ys =>
      simp only [Stmt.resolveAll, Stmt.mapAll, Stmt.forget_resolve c s n y,
        Stmt.forget_resolveAll c _ n ys]

theorem FunDecl.forget_resolve (c : ClassKind) (s : Scopes) (n : Nat) (d : FunDecl Unit) :
    (d.resolve c s).map id (fun _ _ => ()) n = d := by
  cases d with
  | mk name params body =>
      simp only [FunDecl.resolve, FunDecl.map, Stmt.forget_resolveAll c _ _ body, List.map_id, id]

theorem FunDecl.forget_resolveAll (c : ClassKind) (s : Scopes) (n : Nat)
    (ds : List (FunDecl Unit)) :
    FunDecl.mapAll id (fun _ _ => ()) n (FunDecl.resolveAll c s ds) = ds := by
  cases ds with
  | nil => rfl
  | cons d ds =>
      simp only [FunDecl.resolveAll, FunDecl.mapAll, FunDecl.forget_resolve c s n d,
        FunDecl.forget_resolveAll c s n ds]

end

theorem Stmt.sameText_resolve (y : Stmt Unit) (c : ClassKind) (s s' : Scopes) :
    (y.resolve c s).SameText (y.resolve c s') :=
  ⟨0, (y.forget_resolve c s 0).trans (y.forget_resolve c s' 0).symm⟩

theorem FunDecl.sameText_resolve (d : FunDecl Unit) (c : ClassKind) (s s' : Scopes) :
    (d.resolve c s).SameText (d.resolve c s') :=
  ⟨0, (d.forget_resolve c s 0).trans (d.forget_resolve c s' 0).symm⟩

theorem Expr.sameText_resolve (e : Expr Unit) (c : ClassKind) (s s' : Scopes) :
    (e.resolve c s).SameText (e.resolve c s') :=
  (e.forget_resolve c s).trans (e.forget_resolve c s').symm

namespace Padding

/-! ## Scopes -/

variable {inner base : Scopes}

/-- The scopes inside `inner`, which lie around the spot. -/
abbrev behind (inner : Scopes) : Spot :=
  .inside inner.length

/-- A scope that declares nothing is found by nobody. -/
theorem distanceTo?_insert (inner base : Scopes) (n : String) :
    Scopes.distanceTo? (inner ++ base.block) n =
      (Scopes.distanceTo? (inner ++ base) n).map (behind inner).shift := by
  have hblock : Scopes.distanceTo? base.block n = (base.distanceTo? n).map (· + 1) := by
    rw [Scopes.block, Scopes.distanceTo?_cons]
    exact if_neg Bool.false_ne_true
  rw [Scopes.distanceTo?_append, Scopes.distanceTo?_append, hblock]
  cases hd : inner.distanceTo? n with
  | some d => exact congrArg some (if_pos (Scopes.distanceTo?_lt hd)).symm
  | none =>
      rw [Option.none_or, Option.none_or, Option.map_map, Option.map_map]
      refine congrArg (fun f => Option.map f _) (funext fun d => ?_)
      show d + 1 + inner.length = Spot.shift _ (d + inner.length)
      rw [Spot.shift, if_neg (Nat.not_lt.mpr (Nat.le_add_left _ _))]
      omega

/-- If the additional scope does not part a superclass from the receivers inside it, their
scopes are next to each other with it as well. -/
theorem shift_super (hbase : base.distanceTo? superName ≠ some 0) {d : Nat}
    (hd : Scopes.distanceTo? (inner ++ base) superName = some d) :
    (behind inner).shift d - 1 = (behind inner).shift (d - 1) := by
  have hne : d ≠ inner.length := by
    rintro rfl
    rw [Scopes.distanceTo?_append] at hd
    cases hinner : inner.distanceTo? superName with
    | some k =>
        rw [hinner] at hd
        exact Nat.ne_of_lt (Scopes.distanceTo?_lt hinner) (Option.some.inj hd)
    | none =>
        rw [hinner, Option.none_or] at hd
        obtain ⟨k, hk, heq⟩ := Option.map_eq_some_iff.mp hd
        exact hbase (hk.trans (congrArg some (by omega)))
  rw [Spot.shift, Spot.shift]
  split <;> split <;> omega

theorem define_append (h : inner ≠ []) (n : String) :
    Scopes.define n (inner ++ base) = inner.define n ++ base := by
  cases inner with
  | nil => exact absurd rfl h
  | cons scope inner => rfl

theorem declare_append (h : inner ≠ []) (n : String) :
    Scopes.declare n (inner ++ base) = inner.declare n ++ base := by
  cases inner with
  | nil => exact absurd rfl h
  | cons scope inner => rfl

theorem behind_define (inner : Scopes) (n : String) : behind (inner.define n) = behind inner := by
  cases inner <;> rfl

theorem behind_declare (inner : Scopes) (n : String) :
    behind (inner.declare n) = behind inner := by
  cases inner <;> rfl

theorem behind_ne (h : inner ≠ []) : behind inner ≠ .inside 0 :=
  fun heq => h (List.length_eq_zero_iff.mp (Spot.inside.inj heq))

/-! ## Trees -/

mutual

theorem exprRel (hbase : base.distanceTo? superName ≠ some 0) (c : ClassKind) (inner : Scopes)
    (e : Expr Unit) (hw : e.WellFormed) :
    padding.ExprRel (behind inner) (e.resolve c (inner ++ base))
      (e.resolve c (inner ++ base.block)) := by
  cases e with
  | literal value => exact .literal
  | unary operator a => exact .unary ⟨rfl, rfl⟩ (exprRel hbase c inner a hw)
  | binary a operator b =>
      exact .binary ⟨rfl, rfl⟩ (exprRel hbase c inner a hw.1) (exprRel hbase c inner b hw.2)
  | logical a operator b =>
      exact .logical ⟨rfl, rfl⟩ (exprRel hbase c inner a hw.1) (exprRel hbase c inner b hw.2)
  | conditional a b d =>
      exact .conditional (exprRel hbase c inner a hw.1) (exprRel hbase c inner b hw.2.1)
        (exprRel hbase c inner d hw.2.2)
  | grouping a => exact .grouping (exprRel hbase c inner a hw)
  | var t =>
      rw [Expr.resolve, Expr.resolve, distanceTo?_insert]
      exact .var (.var ⟨rfl, rfl⟩)
  | assign t slot a =>
      rw [Expr.resolve, Expr.resolve, distanceTo?_insert]
      exact .assign (.assign ⟨rfl, rfl⟩) (exprRel hbase c inner a hw.2)
  | call a paren es => exact .call (exprRel hbase c inner a hw.1) (exprsRel hbase c inner es hw.2)
  | get a name => exact .get ⟨rfl, rfl⟩ (exprRel hbase c inner a hw)
  | set a name b =>
      exact .set ⟨rfl, rfl⟩ (exprRel hbase c inner a hw.1) (exprRel hbase c inner b hw.2)
  | thisRef t =>
      rw [Expr.resolve, Expr.resolve, distanceTo?_insert, ← Option.map_none, ← apply_ite]
      exact .thisRef (.thisRef ⟨rfl, rfl⟩)
  | superRef t method =>
      rw [Expr.resolve, Expr.resolve, distanceTo?_insert, ← Option.map_none, ← apply_ite]
      refine .superRef ⟨rfl, rfl⟩ (.superRef fun d hd => shift_super hbase ?_)
      rw [← (show t.lexeme = superName from hw)]
      split at hd
      · exact hd
      · cases hd
  | vector bracket es => exact .vector (exprsRel hbase c inner es hw)

theorem exprsRel (hbase : base.distanceTo? superName ≠ some 0) (c : ClassKind) (inner : Scopes)
    (es : List (Expr Unit)) (hw : Expr.WellFormedAll es) :
    padding.ExprsRel (behind inner) (Expr.resolveAll c (inner ++ base) es)
      (Expr.resolveAll c (inner ++ base.block) es) := by
  cases es with
  | nil => exact .nil
  | cons e es => exact .cons (exprRel hbase c inner e hw.1) (exprsRel hbase c inner es hw.2)

end

theorem declares (h : inner ≠ []) (t : Token) :
    padding.Declares (behind inner) t t (behind inner) (behind inner) :=
  ⟨⟨rfl, rfl⟩, rfl, rfl, behind_ne h⟩

mutual

/-- The additional scope gets no declaration: a statement right inside it declares nothing. -/
theorem stmtRel (hbase : base.distanceTo? superName ≠ some 0) (c : ClassKind) (inner : Scopes)
    (y : Stmt Unit) (hw : y.WellFormed) (hy : ∀ t ∈ y.declared?, inner ≠ []) :
    padding.StmtRel (behind inner) (y.resolve c (inner ++ base))
      (y.resolve c (inner ++ base.block)) (behind inner) := by
  have hbranch : ∀ a : Stmt Unit, a.declared? = none → ∀ t ∈ a.declared?, inner ≠ [] := by
    intro a ha t ht
    rw [ha] at ht
    cases ht
  cases y with
  | expression e => exact .expression (exprRel hbase c inner e hw)
  | print e => exact .print (exprRel hbase c inner e hw)
  | varDecl t initializer =>
      have hinner := hy t rfl
      cases initializer with
      | none => exact .varPlain (declares hinner t)
      | some e =>
          have he := exprRel hbase c (inner.declare t.lexeme) e hw.2
          rw [behind_declare, ← declare_append hinner, ← declare_append hinner] at he
          exact .varDecl (declares hinner t) he
  | block body =>
      exact .block ⟨⟨rfl, nofun⟩, rfl⟩
        (stmtsRel hbase c ({ label := "block" } :: inner) body hw (List.cons_ne_nil _ _))
  | ifThen e a =>
      exact .ifThen (exprRel hbase c inner e hw.1)
        (stmtRel hbase c inner a hw.2.1 (hbranch a hw.2.2))
  | ifElse e a b =>
      exact .ifElse (exprRel hbase c inner e hw.1)
        (stmtRel hbase c inner a hw.2.1.1 (hbranch a hw.2.1.2))
        (stmtRel hbase c inner b hw.2.2.1 (hbranch b hw.2.2.2))
  | whileLoop e a =>
      exact .whileLoop (exprRel hbase c inner e hw.1)
        (stmtRel hbase c inner a hw.2.1 (hbranch a hw.2.2))
  | function d =>
      have hinner := hy d.name rfl
      have hd := funRel hbase c (inner.define d.name.lexeme) d hw
      rw [behind_define, ← define_append hinner, ← define_append hinner] at hd
      refine .function (q := behind inner) ?_ hd
      rw [FunDecl.name_resolve, FunDecl.name_resolve]
      exact declares hinner d.name
  | ret t value =>
      cases value with
      | none => exact .retPlain
      | some e => exact .ret (exprRel hbase c inner e hw)
  | classDecl t superclass methods =>
      have hinner := hy t rfl
      rw [Stmt.resolve, Stmt.resolve, define_append hinner, define_append hinner]
      cases superclass with
      | none =>
          refine .plainClass rfl (declares hinner t) ?_
          rw [← behind_define inner t.lexeme]
          exact methodsRel hbase .plain (inner.define t.lexeme) _ methods hw.2.2
      | some r =>
          have hr : Refers (behind inner)
              (.var r.name (Scopes.distanceTo? (inner.define t.lexeme ++ base) r.name.lexeme))
              (.var r.name
                (Scopes.distanceTo? (inner.define t.lexeme ++ base.block) r.name.lexeme)) := by
            rw [distanceTo?_insert, behind_define]
            exact .var ⟨rfl, rfl⟩
          refine .derivedClass rfl (declares hinner t) hr ⟨⟨rfl, nofun⟩, rfl⟩ ?_
          rw [← behind_define inner t.lexeme]
          exact methodsRel hbase .derived (_ :: inner.define t.lexeme) _ methods hw.2.2

theorem stmtsRel (hbase : base.distanceTo? superName ≠ some 0) (c : ClassKind) (inner : Scopes)
    (ys : List (Stmt Unit)) (hw : Stmt.WellFormedAll ys) (hinner : inner ≠ []) :
    padding.StmtsRel (behind inner) (Stmt.resolveAll c (inner ++ base) ys)
      (Stmt.resolveAll c (inner ++ base.block) ys) := by
  cases ys with
  | nil => exact .nil
  | cons y ys =>
      obtain ⟨scope, rest, rfl⟩ := List.exists_cons_of_ne_nil hinner
      obtain ⟨scope', hafter⟩ := y.after_cons scope
      rw [Stmt.resolveAll, Stmt.resolveAll, List.cons_append, List.cons_append, hafter, hafter]
      exact .cons (stmtRel hbase c (scope :: rest) y hw.1 fun _ _ => hinner)
        (stmtsRel hbase c (scope' :: rest) ys hw.2 (List.cons_ne_nil _ _))

theorem funRel (hbase : base.distanceTo? superName ≠ some 0) (c : ClassKind) (inner : Scopes)
    (d : FunDecl Unit) (hw : d.WellFormed) :
    padding.FunRel (behind inner) (d.resolve c (inner ++ base))
      (d.resolve c (inner ++ base.block)) := by
  have htext := d.sameText_resolve c (inner ++ base) (inner ++ base.block)
  cases d with
  | mk t params body =>
      obtain ⟨scope, hscope⟩ := Scopes.function_eq t params
      rw [FunDecl.resolve, FunDecl.resolve, hscope, hscope] at htext ⊢
      refine .mk rfl rfl ⟨⟨rfl, ?_⟩, rfl⟩
        (stmtsRel hbase c (scope :: inner) body hw.2.2 (List.cons_ne_nil _ _))
      rintro f f' ⟨⟩ ⟨⟩
      exact htext

/-- Methods are resolved in the scope of their receiver. -/
theorem methodsRel (hbase : base.distanceTo? superName ≠ some 0) (c : ClassKind)
    (inner : Scopes) (scope : Scope) (ds : List (FunDecl Unit))
    (hw : FunDecl.WellFormedAll ds) :
    padding.MethodsRel (behind inner) (FunDecl.resolveAll c (scope :: (inner ++ base)) ds)
      (FunDecl.resolveAll c (scope :: (inner ++ base.block)) ds) := by
  cases ds with
  | nil => exact .nil
  | cons d ds =>
      exact .cons ⟨⟨rfl, nofun⟩, rfl⟩ (funRel hbase c (scope :: inner) d hw.1)
        (methodsRel hbase c inner scope ds hw.2)

end

end Padding

/-! ## Machines as they are -/

namespace Padding

/-! ## What refers to frames that there are -/

section

variable {C : Comparison} {w : C.World} {size : Nat} (hsize : 0 < size)
  (hbelow : ∀ {p E E'}, C.Env w p E E' → ∀ k ∈ E, k < size)

theorem around_self {E : Env} (h : ∀ k ∈ E, k < size) :
    Around (.same size hsize) .plain E E := by
  have hplain := Around.plain (w := .same size hsize) h
  rwa [show E.map (World.same size hsize).image = E from List.map_id E] at hplain

theorem forall₂_self {α : Type} {R R' : α → α → Prop} {l l' : List α}
    (h : List.Forall₂ R l l') (hR : ∀ a a', R a a' → R' a a) : List.Forall₂ R' l l := by
  induction h with
  | nil => exact .nil
  | cons hx _ ih => exact .cons (hR _ _ hx) ih

theorem tableRel_self {α : Type} {R R' : α → α → Prop} {b b' : Bindings α}
    (h : Comparison.TableRel R b b') (hR : ∀ a a', R a a' → R' a a) :
    Comparison.TableRel R' b b :=
  forall₂_self h fun _ _ hx => ⟨rfl, hR _ _ hx.2⟩

include hbelow

theorem closureRel_self {c c' : Closure} (h : C.ClosureRel w c c') :
    padding.ClosureRel (.same size hsize) c c := by
  obtain ⟨p, hE, _⟩ := h
  refine ⟨.plain, around_self hsize (hbelow hE), selfSpots.funRel_self rfl _, rfl, fun _ => ?_⟩
  exact ⟨.plain, c.declaration, c.declaration, ⟨rfl, nofun⟩, rfl⟩

theorem methodRel_self {m m' : Method} (h : C.MethodRel w m m') :
    padding.MethodRel (.same size hsize) m m := by
  cases h with
  | closure hE _ _ _ =>
      have hself : padding.Env (.same size hsize) Spot.plain _ _ := around_self hsize (hbelow hE)
      exact .closure hself ⟨⟨rfl, nofun⟩, rfl⟩ (selfSpots.funRel_self rfl _) rfl
  | native => exact .native

theorem classRel_self {c c' : Class} (h : C.ClassRel w c c') :
    padding.ClassRel (.same size hsize) c c := by
  have hbody : ∀ {b b'}, C.BodyRel w b b' → padding.BodyRel (.same size hsize) b b := fun hb =>
    ⟨rfl, rfl, tableRel_self hb.methods fun _ _ => methodRel_self hsize hbelow, rfl⟩
  induction h with
  | root hb => exact .root (hbody hb)
  | derived hb _ ih => exact .derived (hbody hb) ih

theorem valueRel_self {v v' : Value} (h : C.ValueRel w v v') :
    padding.ValueRel (.same size hsize) v v := by
  induction h with
  | nil => exact .nil
  | bool => exact .bool
  | number => exact .number
  | text => exact .text
  | function hc => exact .function (closureRel_self hsize hbelow hc)
  | native => exact .native
  | nativeMethod _ ih => exact .nativeMethod ih
  | cls hc => exact .cls (classRel_self hsize hbelow hc)
  | object => exact .object
  | unassigned => exact .unassigned

theorem instanceRel_self {i i' : Instance} (h : C.InstanceRel w i i') :
    padding.InstanceRel (.same size hsize) i i where
  cls := classRel_self hsize hbelow h.cls
  fields := tableRel_self h.fields fun _ _ => valueRel_self hsize hbelow
  elements := by
    have helements := h.elements
    generalize i.elements = vs at helements
    generalize i'.elements = vs' at helements
    cases helements with
    | none => exact .none
    | some hvs => exact .some (forall₂_self hvs fun _ _ => valueRel_self hsize hbelow)

end

/-! ## Moments of a run -/

variable {programs : List (List (Stmt Slot))}
  {haccepted : ∀ program ∈ programs, Accepted program} {w : FrameLog} {m m' : Machine}

theorem below_of_chain {V : ValueRelation} {F F' : Frames Value} (hF : w.Store V F F')
    {p : Place} {E : Env} (hE : w.Chain p E) : ∀ k ∈ E, k < F.size := by
  rw [hF.size]
  induction hE with
  | global =>
      intro k hk
      rw [List.mem_singleton.mp hk]
      exact hF.global
  | frame hmade _ _ _ ih => exact List.forall_mem_cons.mpr ⟨(hF.logged _ _ hmade).2, ih⟩

/-- A machine that accepted programs have brought about is related to itself. -/
theorem machineRel_self (h : (scoping haccepted).MachineRel w m m')
    (hsize : 0 < m.frames.size) : padding.MachineRel (.same m.frames.size hsize) m m := by
  have hbelow : ∀ {p E E'}, (scoping haccepted).Env w p E E' → ∀ k ∈ E, k < m.frames.size :=
    fun hE => below_of_chain h.frames hE.2
  refine ⟨⟨fun k n => ?_, rfl, rfl, fun j hj => absurd rfl (hj j)⟩, ?_, rfl,
    Array.empty_append.symm, ?_, ⟨rfl, rfl, rfl⟩⟩
  · have hvalues := h.frames.values k n
    show Option.Rel _ (m.frames.binding? k n) (m.frames.binding? k n)
    generalize m.frames.binding? k n = v at hvalues
    generalize m'.frames.binding? k n = v' at hvalues
    cases hvalues with
    | none => exact .none
    | some hv => exact .some (valueRel_self hsize hbelow hv)
  · exact forall₂_self h.objects fun _ _ => instanceRel_self hsize hbelow
  · exact classRel_self hsize hbelow h.vectorClass

end Padding

end Lox
