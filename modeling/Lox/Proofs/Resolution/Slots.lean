import Lox.Proofs.Resolution.Agreement
import Lox.Session

/-!
# The slots that a session keeps

A session numbers the references of a program and keeps what its resolver tells of them
under these numbers. Every number is given once. So the slots of one program stand behind
those of all earlier ones, in the order in which resolution comes to its references:
`Session.resolve_eq`. What is read off them, at once and at any time later, is the program
as `resolveProgram` gives it: `Session.withSlots_numberAll`.
-/

namespace Lox

open Pass

section

variable {ι : Type}

/-! ## Numbers -/

/-- The nodes are `count` numbers from `k` on, and `next` comes after them. -/
def Counted (k count : Nat) (nodes : List Nat) (next : Nat) : Prop :=
  nodes = List.range' k count ∧ next = k + count

theorem counted_nil (k : Nat) : Counted k 0 [] k :=
  ⟨rfl, rfl⟩

theorem counted_one (k : Nat) : Counted k 1 [k] (k + 1) :=
  ⟨rfl, rfl⟩

theorem Counted.append {k count count' next next' : Nat} {nodes nodes' : List Nat}
    (h : Counted k count nodes next) (h' : Counted next count' nodes' next') :
    Counted k (count + count') (nodes ++ nodes') next' := by
  obtain ⟨rfl, rfl⟩ := h
  obtain ⟨rfl, rfl⟩ := h'
  exact ⟨List.range'_append_1, Nat.add_assoc _ _ _⟩

mutual

theorem Expr.number_counted (e : Expr ι) (k : Nat) :
    Counted k e.nodes.length (e.number k).1.nodes (e.number k).2 := by
  cases e with
  | literal => exact counted_nil k
  | var | thisRef | superRef => exact counted_one k
  | unary operator e | grouping e | get e name => exact e.number_counted k
  | binary e operator e' | logical e operator e' =>
      rw [Expr.nodes, List.length_append]
      exact (e.number_counted k).append (e'.number_counted _)
  | conditional e e' e'' =>
      rw [Expr.nodes, List.length_append, List.length_append]
      exact (e.number_counted k).append ((e'.number_counted _).append (e''.number_counted _))
  | assign name node e =>
      rw [Expr.nodes, List.length_append]
      exact (e.number_counted k).append (counted_one _)
  | call e paren es =>
      rw [Expr.nodes, List.length_append]
      exact (e.number_counted k).append (Expr.numberAll_counted es _)
  | set e name e' =>
      rw [Expr.nodes, List.length_append]
      exact (e'.number_counted k).append (e.number_counted _)
  | vector bracket es => exact Expr.numberAll_counted es k

theorem Expr.numberAll_counted (es : List (Expr ι)) (k : Nat) :
    Counted k (Expr.nodesAll es).length (Expr.nodesAll (Expr.numberAll es k).1)
      (Expr.numberAll es k).2 := by
  cases es with
  | nil => exact counted_nil k
  | cons e es =>
      rw [Expr.nodesAll, List.length_append]
      exact (e.number_counted k).append (Expr.numberAll_counted es _)

end

theorem Expr.numberOption_counted (e : Option (Expr ι)) (k : Nat) :
    Counted k (Expr.nodesOption e).length (Expr.nodesOption (Expr.numberOption e k).1)
      (Expr.numberOption e k).2 := by
  cases e with
  | none => exact counted_nil k
  | some e => exact e.number_counted k

theorem Reference.number_counted (r : Option (Reference ι)) (k : Nat) :
    Counted k (Reference.nodes r).length (Reference.nodes (Reference.number r k).1)
      (Reference.number r k).2 := by
  cases r with
  | none => exact counted_nil k
  | some r => exact counted_one k

mutual

theorem Stmt.number_counted (y : Stmt ι) (k : Nat) :
    Counted k y.nodes.length (y.number k).1.nodes (y.number k).2 := by
  cases y with
  | expression e | print e => exact e.number_counted k
  | varDecl name e | ret keyword e => exact Expr.numberOption_counted e k
  | block ys => exact Stmt.numberAll_counted ys k
  | ifThen e y | whileLoop e y =>
      rw [Stmt.nodes, List.length_append]
      exact (e.number_counted k).append (y.number_counted _)
  | ifElse e y y' =>
      rw [Stmt.nodes, List.length_append, List.length_append]
      exact (e.number_counted k).append ((y.number_counted _).append (y'.number_counted _))
  | function f => exact f.number_counted k
  | classDecl name superclass fs =>
      rw [Stmt.nodes, List.length_append]
      exact (Reference.number_counted superclass k).append (FunDecl.numberAll_counted fs _)

theorem Stmt.numberAll_counted (ys : List (Stmt ι)) (k : Nat) :
    Counted k (Stmt.nodesAll ys).length (Stmt.nodesAll (Stmt.numberAll ys k).1)
      (Stmt.numberAll ys k).2 := by
  cases ys with
  | nil => exact counted_nil k
  | cons y ys =>
      rw [Stmt.nodesAll, List.length_append]
      exact (y.number_counted k).append (Stmt.numberAll_counted ys _)

theorem FunDecl.number_counted (f : FunDecl ι) (k : Nat) :
    Counted k f.nodes.length (f.number k).1.nodes (f.number k).2 := by
  cases f with
  | mk name params ys => exact Stmt.numberAll_counted ys k

theorem FunDecl.numberAll_counted (fs : List (FunDecl ι)) (k : Nat) :
    Counted k (FunDecl.nodesAll fs).length (FunDecl.nodesAll (FunDecl.numberAll fs k).1)
      (FunDecl.numberAll fs k).2 := by
  cases fs with
  | nil => exact counted_nil k
  | cons f fs =>
      rw [FunDecl.nodesAll, List.length_append]
      exact (f.number_counted k).append (FunDecl.numberAll_counted fs _)

end

/-! ## Numbers change nothing else -/

mutual

theorem Expr.bare_number (n : Nat) (e : Expr ι) (k : Nat) :
    (e.number k).1.map id (bare n) = e.map id (bare n) := by
  cases e with
  | literal | var | thisRef | superRef => rfl
  | unary operator e => exact congrArg (Expr.unary operator) (e.bare_number n k)
  | grouping e => exact congrArg Expr.grouping (e.bare_number n k)
  | get e name => exact congrArg (Expr.get · name) (e.bare_number n k)
  | binary e operator e' =>
      exact congrArg₂ (Expr.binary · operator ·) (e.bare_number n k) (e'.bare_number n _)
  | logical e operator e' =>
      exact congrArg₂ (Expr.logical · operator ·) (e.bare_number n k) (e'.bare_number n _)
  | conditional e e' e'' =>
      simp only [Expr.number, Expr.map, e.bare_number n, e'.bare_number n, e''.bare_number n]
  | assign name node e => exact congrArg (Expr.assign name ()) (e.bare_number n k)
  | call e paren es =>
      exact congrArg₂ (Expr.call · paren ·) (e.bare_number n k) (Expr.bare_numberAll n es _)
  | set e name e' =>
      exact congrArg₂ (Expr.set · name ·) (e.bare_number n _) (e'.bare_number n k)
  | vector bracket es => exact congrArg (Expr.vector bracket) (Expr.bare_numberAll n es k)

theorem Expr.bare_numberAll (n : Nat) (es : List (Expr ι)) (k : Nat) :
    Expr.mapAll id (bare n) (Expr.numberAll es k).1 = Expr.mapAll id (bare n) es := by
  cases es with
  | nil => rfl
  | cons e es => exact congrArg₂ List.cons (e.bare_number n k) (Expr.bare_numberAll n es _)

end

theorem Expr.bare_numberOption (n : Nat) (e : Option (Expr ι)) (k : Nat) :
    (Expr.numberOption e k).1.map (Expr.map id (bare n)) = e.map (Expr.map id (bare n)) := by
  cases e with
  | none => rfl
  | some e => exact congrArg some (e.bare_number n k)

mutual

theorem Stmt.bare_number (n : Nat) (y : Stmt ι) (k : Nat) :
    (y.number k).1.map id bare n = y.map id bare n := by
  cases y with
  | expression e => exact congrArg Stmt.expression (e.bare_number n k)
  | print e => exact congrArg Stmt.print (e.bare_number n k)
  | varDecl name e => exact congrArg (Stmt.varDecl name) (Expr.bare_numberOption n e k)
  | ret keyword e => exact congrArg (Stmt.ret keyword) (Expr.bare_numberOption n e k)
  | block ys => exact congrArg Stmt.block (Stmt.bare_numberAll (n + 1) ys k)
  | ifThen e y => exact congrArg₂ Stmt.ifThen (e.bare_number n k) (y.bare_number n _)
  | whileLoop e y => exact congrArg₂ Stmt.whileLoop (e.bare_number n k) (y.bare_number n _)
  | ifElse e y y' =>
      simp only [Stmt.number, Stmt.map, e.bare_number n, y.bare_number n, y'.bare_number n]
  | function f => exact congrArg Stmt.function (f.bare_number n k)
  | classDecl name superclass fs =>
      have hmethods := FunDecl.bare_numberAll (methodDepth superclass n) fs
        (Reference.number superclass k).2
      cases superclass <;> exact congrArg (Stmt.classDecl name _) hmethods

theorem Stmt.bare_numberAll (n : Nat) (ys : List (Stmt ι)) (k : Nat) :
    Stmt.mapAll id bare n (Stmt.numberAll ys k).1 = Stmt.mapAll id bare n ys := by
  cases ys with
  | nil => rfl
  | cons y ys => exact congrArg₂ List.cons (y.bare_number n k) (Stmt.bare_numberAll n ys _)

theorem FunDecl.bare_number (n : Nat) (f : FunDecl ι) (k : Nat) :
    (f.number k).1.map id bare n = f.map id bare n := by
  cases f with
  | mk name params ys =>
      exact congrArg (FunDecl.mk name (params.map id)) (Stmt.bare_numberAll (n + 1) ys k)

theorem FunDecl.bare_numberAll (n : Nat) (fs : List (FunDecl ι)) (k : Nat) :
    FunDecl.mapAll id bare n (FunDecl.numberAll fs k).1 = FunDecl.mapAll id bare n fs := by
  cases fs with
  | nil => rfl
  | cons f fs => exact congrArg₂ List.cons (f.bare_number n k) (FunDecl.bare_numberAll n fs _)

end

/-! ## Reading slots -/

variable {g : ι → Slot}

theorem Pass.Yields.length {p : Pass ι Unit} {a a' : Surroundings} {s s' : Scopes}
    {fs : List ScopeViolation} {rs : List LocalReference} {nodes : List ι} {slots : List Slot}
    (h : Yields p a s a' s' fs rs nodes slots) : (nodes.map g).length = slots.length := by
  obtain ⟨found, hfound, _⟩ := h
  rw [List.length_map, hfound.length]

/-- If the nodes of two parts have the slots of the parts together, the nodes of each have the
slots of each. -/
theorem map_append_inj {nodes nodes' : List ι} {slots slots' : List Slot}
    (hlength : (nodes.map g).length = slots.length)
    (h : (nodes ++ nodes').map g = slots ++ slots') :
    nodes.map g = slots ∧ nodes'.map g = slots' := by
  rw [List.map_append] at h
  exact List.append_inj h hlength

mutual

/-- An expression whose nodes have the slots that resolution gives becomes what resolution
makes of it. -/
theorem Expr.map_eq_resolve (n : Nat) (e : Expr ι) (c : ClassKind) (s : Scopes)
    (h : e.nodes.map g = ((e.map id (bare n)).resolve c s).nodes) :
    e.map id g = (e.map id (bare n)).resolve c s := by
  have hlength (e : Expr ι) := (e.walk_yields (τ := Unit) n ⟨.none, c⟩ s).length (g := g)
  cases e with
  | literal => rfl
  | var name node => exact congrArg (Expr.var name) (List.cons.inj h).1
  | thisRef keyword node => exact congrArg (Expr.thisRef keyword) (List.cons.inj h).1
  | superRef keyword method node =>
      exact congrArg (Expr.superRef keyword method) (List.cons.inj h).1
  | unary operator e => exact congrArg (Expr.unary operator) (e.map_eq_resolve n c s h)
  | grouping e => exact congrArg Expr.grouping (e.map_eq_resolve n c s h)
  | get e name => exact congrArg (Expr.get · name) (e.map_eq_resolve n c s h)
  | binary e operator e' =>
      obtain ⟨h₁, h₂⟩ := map_append_inj (hlength e) h
      exact congrArg₂ (Expr.binary · operator ·) (e.map_eq_resolve n c s h₁)
        (e'.map_eq_resolve n c s h₂)
  | logical e operator e' =>
      obtain ⟨h₁, h₂⟩ := map_append_inj (hlength e) h
      exact congrArg₂ (Expr.logical · operator ·) (e.map_eq_resolve n c s h₁)
        (e'.map_eq_resolve n c s h₂)
  | conditional e e' e'' =>
      obtain ⟨h₁, h₂⟩ := map_append_inj (hlength e) h
      obtain ⟨h₂, h₃⟩ := map_append_inj (hlength e') h₂
      simp only [Expr.map, Expr.resolve, e.map_eq_resolve n c s h₁, e'.map_eq_resolve n c s h₂,
        e''.map_eq_resolve n c s h₃]
  | assign name node e =>
      obtain ⟨h₁, h₂⟩ := map_append_inj (hlength e) h
      exact congrArg₂ (Expr.assign name · ·) (List.cons.inj h₂).1 (e.map_eq_resolve n c s h₁)
  | call e paren es =>
      obtain ⟨h₁, h₂⟩ := map_append_inj (hlength e) h
      exact congrArg₂ (Expr.call · paren ·) (e.map_eq_resolve n c s h₁)
        (Expr.mapAll_eq_resolve n es c s h₂)
  | set e name e' =>
      obtain ⟨h₁, h₂⟩ := map_append_inj (hlength e') h
      exact congrArg₂ (Expr.set · name ·) (e.map_eq_resolve n c s h₂)
        (e'.map_eq_resolve n c s h₁)
  | vector bracket es => exact congrArg (Expr.vector bracket) (Expr.mapAll_eq_resolve n es c s h)

theorem Expr.mapAll_eq_resolve (n : Nat) (es : List (Expr ι)) (c : ClassKind) (s : Scopes)
    (h : (Expr.nodesAll es).map g =
      Expr.nodesAll (Expr.resolveAll c s (Expr.mapAll id (bare n) es))) :
    Expr.mapAll id g es = Expr.resolveAll c s (Expr.mapAll id (bare n) es) := by
  cases es with
  | nil => rfl
  | cons e es =>
      obtain ⟨h₁, h₂⟩ := map_append_inj ((e.walk_yields (τ := Unit) n ⟨.none, c⟩ s).length) h
      exact congrArg₂ List.cons (e.map_eq_resolve n c s h₁) (Expr.mapAll_eq_resolve n es c s h₂)

end

theorem Expr.mapOption_eq_resolve (n : Nat) (e : Option (Expr ι)) (c : ClassKind) (s : Scopes)
    (h : (Expr.nodesOption e).map g =
      Expr.nodesOption ((e.map (Expr.map id (bare n))).map (Expr.resolve c s))) :
    e.map (Expr.map id g) = (e.map (Expr.map id (bare n))).map (Expr.resolve c s) := by
  cases e with
  | none => rfl
  | some e => exact congrArg some (e.map_eq_resolve n c s h)

theorem Reference.map_eq_resolve (n : Nat) (r : Option (Reference ι)) (s : Scopes)
    (h : (Reference.nodes r).map g =
      Reference.nodes ((r.map (Reference.map id (bare n))).map (Reference.resolve s))) :
    r.map (Reference.map id g) =
      (r.map (Reference.map id (bare n))).map (Reference.resolve s) := by
  cases r with
  | none => rfl
  | some r => exact congrArg (fun slot => some (Reference.mk r.name slot)) (List.cons.inj h).1

mutual

theorem Stmt.map_eq_resolve (n : Nat) (y : Stmt ι) (hy : (y.map id bare n).Listed) (c : ClassKind)
    (s : Scopes) (h : y.nodes.map g = ((y.map id bare n).resolve c s).nodes) :
    y.map id (fun _ => g) n = (y.map id bare n).resolve c s := by
  have hlength (e : Expr ι) := (e.walk_yields (τ := Unit) n ⟨.none, c⟩ s).length (g := g)
  cases y with
  | expression e => exact congrArg Stmt.expression (e.map_eq_resolve n c s h)
  | print e => exact congrArg Stmt.print (e.map_eq_resolve n c s h)
  | varDecl name e => exact congrArg (Stmt.varDecl name) (Expr.mapOption_eq_resolve n e c _ h)
  | ret keyword e => exact congrArg (Stmt.ret keyword) (Expr.mapOption_eq_resolve n e c s h)
  | block ys => exact congrArg Stmt.block (Stmt.mapAll_eq_resolve (n + 1) ys hy c s.block h)
  | ifThen e y =>
      obtain ⟨h₁, h₂⟩ := map_append_inj (hlength e) h
      exact congrArg₂ Stmt.ifThen (e.map_eq_resolve n c s h₁) (y.map_eq_resolve n hy.1 c s h₂)
  | whileLoop e y =>
      obtain ⟨h₁, h₂⟩ := map_append_inj (hlength e) h
      exact congrArg₂ Stmt.whileLoop (e.map_eq_resolve n c s h₁) (y.map_eq_resolve n hy.1 c s h₂)
  | ifElse e y y' =>
      obtain ⟨h₁, h₂⟩ := map_append_inj (hlength e) h
      have hthen := (y.walk_yields (τ := Unit) n hy.1.1 ⟨.none, c⟩ s).length (g := g)
      obtain ⟨h₂, h₃⟩ := map_append_inj hthen h₂
      simp only [Stmt.map, Stmt.resolve, e.map_eq_resolve n c s h₁,
        y.map_eq_resolve n hy.1.1 c s h₂, y'.map_eq_resolve n hy.2.1 c s h₃]
  | function f =>
      have hf := FunDecl.map_eq_resolve n f hy c (s.define f.name.lexeme)
      rw [Stmt.map, Stmt.map, Stmt.resolve, FunDecl.name_bare]
      rw [Stmt.map, Stmt.resolve, FunDecl.name_bare] at h
      exact congrArg Stmt.function (hf h)
  | classDecl name superclass fs =>
      have hlength : ((Reference.nodes superclass).map g).length =
          (Reference.nodes ((superclass.map (Reference.map id (bare n))).map
            (Reference.resolve (s.define name.lexeme)))).length := by
        cases superclass <;> rfl
      obtain ⟨h₁, h₂⟩ := map_append_inj hlength h
      have hmethods := FunDecl.mapAll_eq_resolve (methodDepth superclass n) fs hy _ _ h₂
      have hsuper := Reference.map_eq_resolve n superclass _ h₁
      exact congrArg₂ (Stmt.classDecl name) hsuper hmethods

theorem Stmt.mapAll_eq_resolve (n : Nat) (ys : List (Stmt ι))
    (hys : Stmt.ListedAll (Stmt.mapAll id bare n ys)) (c : ClassKind) (s : Scopes)
    (h : (Stmt.nodesAll ys).map g =
      Stmt.nodesAll (Stmt.resolveAll c s (Stmt.mapAll id bare n ys))) :
    Stmt.mapAll id (fun _ => g) n ys = Stmt.resolveAll c s (Stmt.mapAll id bare n ys) := by
  cases ys with
  | nil => rfl
  | cons y ys =>
      have hlength := (y.walk_yields (τ := Unit) n hys.1 ⟨.none, c⟩ s).length (g := g)
      obtain ⟨h₁, h₂⟩ := map_append_inj hlength h
      exact congrArg₂ List.cons (y.map_eq_resolve n hys.1 c s h₁)
        (Stmt.mapAll_eq_resolve n ys hys.2 c _ h₂)

theorem FunDecl.map_eq_resolve (n : Nat) (f : FunDecl ι) (hf : (f.map id bare n).Listed)
    (c : ClassKind) (s : Scopes) (h : f.nodes.map g = ((f.map id bare n).resolve c s).nodes) :
    f.map id (fun _ => g) n = (f.map id bare n).resolve c s := by
  cases f with
  | mk name params ys =>
      have hys := Stmt.mapAll_eq_resolve (n + 1) ys hf c _ h
      exact congrArg (FunDecl.mk name (params.map id)) hys

theorem FunDecl.mapAll_eq_resolve (n : Nat) (fs : List (FunDecl ι))
    (hfs : FunDecl.ListedAll (FunDecl.mapAll id bare n fs)) (c : ClassKind) (s : Scopes)
    (h : (FunDecl.nodesAll fs).map g =
      FunDecl.nodesAll (FunDecl.resolveAll c s (FunDecl.mapAll id bare n fs))) :
    FunDecl.mapAll id (fun _ => g) n fs = FunDecl.resolveAll c s (FunDecl.mapAll id bare n fs) := by
  cases fs with
  | nil => rfl
  | cons f fs =>
      have hlength := (f.walk_yields (τ := Unit) n hfs.1 .none ⟨.none, c⟩ s).length (g := g)
      obtain ⟨h₁, h₂⟩ := map_append_inj hlength h
      exact congrArg₂ List.cons (f.map_eq_resolve n hfs.1 c s h₁)
        (FunDecl.mapAll_eq_resolve n fs hfs.2 c s h₂)

end

end

/-! ## The slots of a session -/

theorem foldl_record {ι τ : Type} (onResolve : ι → Nat → τ → τ) (found : List (Sighting ι))
    (t : τ) : found.foldl (Sighting.record onResolve) t =
      (found.filterMap Sighting.told?).foldl (fun t entry => onResolve entry.1 entry.2 t) t := by
  induction found generalizing t with
  | nil => rfl
  | cons x found ih => cases x <;> exact ih _

/-- Slots that are put at the numbers behind some others stand behind them. -/
theorem foldl_set_distanced (earlier slots : List Slot) :
    (distanced (List.range' earlier.length slots.length) slots).foldl
        (fun t entry => t.set entry.1 (some entry.2))
        (earlier ++ List.replicate slots.length none) =
      earlier ++ slots := by
  induction slots generalizing earlier with
  | nil => rfl
  | cons slot slots ih =>
      have hrest := ih (earlier ++ [slot])
      rw [List.length_append, List.length_singleton, List.append_assoc, List.append_assoc] at hrest
      rw [List.length_cons, List.range'_succ]
      cases slot with
      | none => exact hrest
      | some distance =>
          have hfirst : distanced (earlier.length :: List.range' (earlier.length + 1) slots.length)
              (some distance :: slots) = (earlier.length, distance) ::
                distanced (List.range' (earlier.length + 1) slots.length) slots := rfl
          refine Eq.trans ?_ hrest
          rw [hfirst, List.foldl_cons, List.replicate_succ,
            List.set_append_right _ _ (Nat.le_refl _), Nat.sub_self, List.set_cons_zero,
            List.singleton_append]

/-- Without its numbers a program is what it was. -/
theorem Stmt.bare_numbered (program : List (Stmt Unit)) (k : Nat) :
    Stmt.mapAll id bare 0 (Stmt.numberAll program k).1 = program :=
  (Stmt.bare_numberAll 0 program k).trans (Stmt.mapAll_id 0 program)

namespace Session

/-- What a session does with the distance of a reference. -/
def keepSlot (node distance : Nat) (slots : Array Slot) : Array Slot :=
  slots.setIfInBounds node (some distance)

theorem toList_foldl_keepSlot (entries : List (Nat × Nat)) (slots : Array Slot) :
    (entries.foldl (fun t entry => keepSlot entry.1 entry.2 t) slots).toList =
      entries.foldl (fun t entry => t.set entry.1 (some entry.2)) slots.toList := by
  induction entries generalizing slots with
  | nil => rfl
  | cons entry entries ih =>
      rw [List.foldl_cons, List.foldl_cons, ih, keepSlot, Array.toList_setIfInBounds]

/-- The session with more slots behind those that it has. -/
def keeping (s : Session) (slots : List Slot) : Session :=
  { s with traces := { s.traces with slots := s.traces.slots ++ slots.toArray } }

/-- A session that resolves a program finds what `resolveProgram` says, and keeps the slots of
the program behind those that it has. -/
theorem resolve_eq (s : Session) {program : List (Stmt Unit)} (h : Stmt.ListedAll program) :
    (s.resolve program).1 = (Stmt.numberAll program s.traces.slots.size).1 ∧
      (s.resolve program).2.1.faults = (resolveProgram program).faults ∧
      (s.resolve program).2.1.note = (resolveProgram program).note ∧
      (s.resolve program).2.2 = s.keeping (Stmt.nodesAll (resolveProgram program).program) := by
  obtain ⟨hnodes, hnext⟩ := Stmt.numberAll_counted program s.traces.slots.size
  have hbare := Stmt.bare_numbered program s.traces.slots.size
  obtain ⟨found, hfound, hrun⟩ := Stmt.walkAll_yields (τ := Array Slot) 0
    (Stmt.numberAll program s.traces.slots.size).1 (hbare.symm ▸ h) {} []
  rw [hbare, hnodes] at hfound
  have hlength : (Stmt.nodesAll program).length =
      (Stmt.nodesAll (resolveProgram program).program).length := by
    have h := hfound.length
    rwa [List.length_range'] at h
  have hdistances : found.foldl (Sighting.record keepSlot)
      (s.traces.slots ++ Array.replicate
        ((Stmt.numberAll program s.traces.slots.size).2 - s.traces.slots.size) none) =
      s.traces.slots ++ (Stmt.nodesAll (resolveProgram program).program).toArray := by
    rw [foldl_record, hfound.told, hnext, Nat.add_sub_cancel_left, hlength]
    refine Array.ext' ((toList_foldl_keepSlot _ _).trans ?_)
    simp only [Array.toList_append, Array.toList_replicate, ← Array.length_toList]
    exact foldl_set_distanced _ _
  have hwalk := hrun [] keepSlot (s.traces.slots ++ Array.replicate
    ((Stmt.numberAll program s.traces.slots.size).2 - s.traces.slots.size) none)
  rw [hdistances] at hwalk
  have hresolver : (s.resolve program).2.1 = _ := hwalk
  have hsession : (s.resolve program).2.2 = { s with traces := { s.traces with
      slots := (s.resolve program).2.1.distances } } := rfl
  refine ⟨rfl, ?_, ?_, by rw [hsession, hresolver, keeping]⟩
  · rw [hresolver]
    exact hfound.violations
  · rw [hresolver]
    exact congrArg₂ Note.resolved (congrArg List.length hfound.references)
      (congrArg List.length hfound.violations)

/-- What is read off the slots of a program, with any others before and behind them, is what
resolution makes of the program. -/
theorem withSlots_numberAll {program : List (Stmt Unit)} (h : Stmt.ListedAll program)
    (earlier later : Array Slot) :
    withSlots (earlier ++ (Stmt.nodesAll (resolveProgram program).program).toArray ++ later)
        (Stmt.numberAll program earlier.size).1 =
      (resolveProgram program).program := by
  obtain ⟨hnodes, -⟩ := Stmt.numberAll_counted program earlier.size
  have hbare := Stmt.bare_numbered program earlier.size
  have hlisted := h
  rw [← hbare] at hlisted
  obtain ⟨found, hfound, -⟩ := Stmt.walkAll_yields (τ := Unit) 0 _ hlisted {} []
  have hlength := hfound.length
  rw [hbare, hnodes, List.length_range'] at hlength
  have hread := Stmt.mapAll_eq_resolve (g := fun node => (earlier ++
    (Stmt.nodesAll (resolveProgram program).program).toArray ++ later).getD node none) 0
    (Stmt.numberAll program earlier.size).1 hlisted .none []
  rw [hbare, hnodes] at hread
  refine hread (List.ext_getElem ?_ fun i hi (hi' : i < (Stmt.nodesAll _).length) => ?_)
  · rw [List.length_map, List.length_range']
    exact hlength
  · simp only [List.getElem_map, List.getElem_range', Nat.one_mul]
    rw [Array.getD_eq_getD_getElem?, Array.append_assoc, Array.getElem?_append_right (by omega),
      Nat.add_sub_cancel_left, Array.getElem?_append_left (by simpa [resolveProgram] using hi')]
    simp [resolveProgram, hi']

end Session

end Lox
