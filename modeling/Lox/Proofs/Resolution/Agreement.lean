import Lox.Proofs.Mapping
import Lox.Proofs.Resolution.Walk
import Lox.Proofs.Scoping.Resolved
import Lox.Proofs.Violations.Listed

/-!
# The walk finds what resolution says

The walk over a program and the functions of `Lox.Resolve` agree: what the walk adds to
its log, whatever stood there before, are the faults and the local references of the
program, in the same order. Moreover each reference is found at its own node, and in a
scope that the resolver has open.
-/

namespace Lox

/-- No slot. -/
def bare {ι : Type} (_ : Nat) (_ : ι) : Unit := ()

/-! ## Names made readable -/

theorem Bindings.insert_insert {α : Type} (name : String) (x y : α) (b : Bindings α) :
    (b.insert name x).insert name y = b.insert name y := by
  induction b with
  | nil => rw [insert, insert, insert, if_pos rfl]
  | cons entry b ih =>
      obtain ⟨n, v⟩ := entry
      by_cases hn : n = name
      · rw [insert, if_pos hn, insert, if_pos rfl, insert, if_pos hn]
      · rw [insert, if_neg hn, insert, if_neg hn, ih, insert, if_neg hn]

/-- That a name was not readable before does not show. -/
theorem Scopes.define_declare (s : Scopes) (name : String) :
    (s.declare name).define name = s.define name := by
  cases s with
  | nil => rfl
  | cons scope s =>
      simp only [Scopes.declare, Scopes.define, Scope.declare, Scope.define,
        Bindings.insert_insert]

section

variable {ι : Type}

/-! ## Trees without slots -/

theorem Stmt.after_bare (n : Nat) (y : Stmt ι) (s : Scopes) :
    (y.map id bare n).after s = y.after s := by
  cases y with
  | function f =>
      cases f
      rfl
  | _ => rfl

/-- A statement that may stand alone declares nothing around it. -/
theorem Stmt.after_of_alone {n : Nat} {y : Stmt ι} (h : (y.map id bare n).declared? = none)
    (s : Scopes) : y.after s = s := by
  rw [← Stmt.after_bare n y s, Stmt.after_eq, h]

theorem FunDecl.name_bare (n : Nat) (f : FunDecl ι) : (f.map id bare n).name = f.name := by
  cases f
  rfl

/-! ## What is found -/

namespace Sighting

def node? : Sighting ι → Option ι
  | .reference node .. => some node
  | .violation _ => none

/-- The node of a reference with its distance. -/
def told? : Sighting ι → Option (ι × Nat)
  | .reference node found _ => some (node, found.distance)
  | .violation _ => none

/-- The scope that a reference means is among those around it. -/
def Inside : Sighting ι → Prop
  | .reference _ found depth => found.distance < depth
  | .violation _ => True

end Sighting

/-- The nodes that have a distance, each with it. -/
def distanced (nodes : List ι) (slots : List Slot) : List (ι × Nat) :=
  (nodes.zip slots).filterMap fun entry => entry.2.map (entry.1, ·)

/-- The sightings are the faults `fs` and the references `rs`, each of which is found at the
node that has its distance for a slot. -/
structure Finds (found : List (Sighting ι)) (fs : List ScopeViolation)
    (rs : List LocalReference) (nodes : List ι) (slots : List Slot) : Prop where
  violations : found.filterMap Sighting.violation? = fs
  references : found.filterMap Sighting.reference? = rs
  told : found.filterMap Sighting.told? = distanced nodes slots
  length : nodes.length = slots.length
  inside : ∀ x ∈ found, x.Inside

theorem finds_nil : Finds ([] : List (Sighting ι)) [] [] [] [] :=
  ⟨rfl, rfl, rfl, rfl, fun _ h => nomatch h⟩

theorem Finds.append {found found' : List (Sighting ι)} {fs fs' : List ScopeViolation}
    {rs rs' : List LocalReference} {nodes nodes' : List ι} {slots slots' : List Slot}
    (h : Finds found fs rs nodes slots) (h' : Finds found' fs' rs' nodes' slots') :
    Finds (found ++ found') (fs ++ fs') (rs ++ rs') (nodes ++ nodes') (slots ++ slots') where
  violations := by rw [List.filterMap_append, h.violations, h'.violations]
  references := by rw [List.filterMap_append, h.references, h'.references]
  told := by
    rw [List.filterMap_append, h.told, h'.told, distanced, distanced, distanced,
      List.zip_append h.length, List.filterMap_append]
  length := by rw [List.length_append, List.length_append, h.length, h'.length]
  inside x hx := (List.mem_append.mp hx).elim (h.inside x) (h'.inside x)

theorem node?_eq_told? (x : Sighting ι) : x.node? = x.told?.map Prod.fst := by
  cases x <;> rfl

/-- References are found at some of the nodes, in their order. -/
theorem Finds.nodes {found : List (Sighting ι)} {fs : List ScopeViolation}
    {rs : List LocalReference} {nodes : List ι} {slots : List Slot}
    (h : Finds found fs rs nodes slots) : (found.filterMap Sighting.node?).Sublist nodes := by
  have hnodes : found.filterMap Sighting.node? = (distanced nodes slots).map Prod.fst := by
    rw [← h.told, List.map_filterMap]
    exact congrArg (List.filterMap · found) (funext node?_eq_told?)
  have hfst : ∀ l : List (ι × Slot),
      ((l.filterMap fun entry => entry.2.map (entry.1, ·)).map Prod.fst).Sublist
        (l.map Prod.fst) := by
    intro l
    induction l with
    | nil => exact List.Sublist.refl _
    | cons entry l ih =>
        obtain ⟨node, _ | distance⟩ := entry
        · exact ih.cons node
        · exact ih.cons_cons node
  have hzip := hfst (nodes.zip slots)
  rw [List.map_fst_zip (Nat.le_of_eq h.length)] at hzip
  rw [hnodes]
  exact hzip

variable {τ : Type}

namespace Pass

/-- From scopes `s` in the surroundings `a` the pass comes to `s'` and `a'`, and it adds
to the log, whatever it holds, the faults `fs` and the references `rs`. Whoever asked for
it is told the slots of the nodes. -/
def Yields (p : Pass ι τ) (a : Surroundings) (s : Scopes) (a' : Surroundings) (s' : Scopes)
    (fs : List ScopeViolation) (rs : List LocalReference) (nodes : List ι)
    (slots : List Slot) : Prop :=
  ∃ found, Finds found fs rs nodes slots ∧ ∀ log onResolve distances,
    p ⟨s, a, log, onResolve, distances⟩ =
      ⟨s', a', log ++ found, onResolve, found.foldl (Sighting.record onResolve) distances⟩

variable {p q : Pass ι τ} {a a' a'' : Surroundings} {s s' s'' : Scopes}
  {fs fs' : List ScopeViolation} {rs rs' : List LocalReference} {nodes nodes' : List ι}
  {slots slots' : List Slot}

/-- A pass that only moves to other scopes and surroundings. -/
theorem yields_of_moving
    (h : ∀ log onResolve distances,
      p ⟨s, a, log, onResolve, distances⟩ = ⟨s', a', log, onResolve, distances⟩) :
    Yields p a s a' s' [] [] [] [] :=
  ⟨[], finds_nil, fun log onResolve distances => by rw [h, List.append_nil, List.foldl_nil]⟩

theorem yields_skip : Yields (skip : Pass ι τ) a s a s [] [] [] [] :=
  yields_of_moving fun _ _ _ => rfl

theorem Yields.andThen (hp : Yields p a s a' s' fs rs nodes slots)
    (hq : Yields q a' s' a'' s'' fs' rs' nodes' slots') :
    Yields (andThen p q) a s a'' s'' (fs ++ fs') (rs ++ rs') (nodes ++ nodes')
      (slots ++ slots') := by
  obtain ⟨found, hfound, hrun⟩ := hp
  obtain ⟨found', hfound', hrun'⟩ := hq
  refine ⟨found ++ found', hfound.append hfound', fun log onResolve distances => ?_⟩
  rw [Pass.andThen, hrun, hrun', List.append_assoc, List.foldl_append]

theorem yields_report (fault : ScopeFault) (token : Token) :
    Yields (report fault token : Pass ι τ) a s a s [⟨fault, token⟩] [] [] [] :=
  ⟨[.violation ⟨fault, token⟩],
    ⟨rfl, rfl, rfl, rfl, fun x hx => by rw [List.mem_singleton.mp hx]; exact trivial⟩,
    fun _ _ _ => rfl⟩

/-- A node at which no reference is found. -/
theorem Yields.at_node (hp : Yields p a s a' s' fs rs [] []) (node : ι) :
    Yields p a s a' s' fs rs [node] [none] := by
  obtain ⟨found, hfound, hrun⟩ := hp
  exact ⟨found, { hfound with told := hfound.told, length := rfl }, hrun⟩

theorem yields_reportIf (test : Scopes → Surroundings → Bool) (fault : ScopeFault)
    (token : Token) :
    Yields (reportIf test fault token : Pass ι τ) a s a s
      (if test s a then [⟨fault, token⟩] else []) [] [] [] := by
  by_cases ht : test s a = true
  · obtain ⟨found, hfound, hrun⟩ := yields_report (ι := ι) (a := a) (s := s) fault token
    refine ⟨found, by rwa [if_pos ht], fun log onResolve distances => ?_⟩
    rw [reportIf, if_pos ht, hrun]
  · rw [if_neg ht]
    refine yields_of_moving fun log onResolve distances => ?_
    rw [reportIf, if_neg ht]

theorem yields_declare (name : Token) :
    Yields (declare name : Pass ι τ) a s a (s.declare name.lexeme) (s.declareFaults name) [] []
      [] := by
  have hmove : Yields
      (fun r : Resolver ι τ => { r with scopes := r.scopes.declare name.lexeme }) a s
      a (s.declare name.lexeme) [] [] [] [] :=
    yields_of_moving fun _ _ _ => rfl
  have h := (yields_reportIf (τ := τ) (fun s _ => s.declaresHere name.lexeme) .alreadyDeclared
    name).andThen hmove
  rwa [List.append_nil] at h

theorem yields_define (name : String) :
    Yields (define name : Pass ι τ) a s a (s.define name) [] [] [] [] :=
  yields_of_moving fun _ _ _ => rfl

/-- What is found is in one of the scopes that are open. -/
theorem yields_locate (kind : ReferenceKind) (name : Token) (node : ι) :
    Yields (locate kind name node : Pass ι τ) a s a s [] (localReference kind name
      (s.distanceTo? name.lexeme)) [node] [s.distanceTo? name.lexeme] := by
  cases hd : s.distanceTo? name.lexeme with
  | none =>
      refine Yields.at_node (yields_of_moving fun log onResolve distances => ?_) node
      simp only [locate, hd]
  | some distance =>
      have hinside : distance < s.length := (List.findIdx?_eq_some_iff_getElem.mp hd).1
      refine ⟨[.reference node ⟨kind, name, distance⟩ s.length],
        ⟨rfl, rfl, rfl, rfl, fun x hx => ?_⟩, fun log onResolve distances => ?_⟩
      · rw [List.mem_singleton.mp hx]
        exact hinside
      · simp only [locate, hd]
        rfl

theorem yields_readVariable (name : Token) (node : ι) :
    Yields (readVariable name node : Pass ι τ) a s a s
      (if s.isPending name.lexeme then [⟨.ownInitializer, name⟩] else [])
      (localReference .var name (s.distanceTo? name.lexeme)) [node]
      [s.distanceTo? name.lexeme] := by
  have h := (yields_reportIf (τ := τ) (fun s _ => s.isPending name.lexeme) .ownInitializer
    name).andThen (yields_locate (a := a) (s := s) .var name node)
  rwa [List.append_nil] at h

theorem yields_readThis (keyword : Token) (node : ι) :
    Yields (readThis keyword node : Pass ι τ) a s a s
      (if a.cls = .none then [⟨.thisOutsideClass, keyword⟩] else [])
      (localReference .thisRef keyword
        (if a.cls = .none then none else s.distanceTo? keyword.lexeme)) [node]
      [if a.cls = .none then none else s.distanceTo? keyword.lexeme] := by
  obtain ⟨k, c⟩ := a
  cases c with
  | none => exact (yields_report .thisOutsideClass keyword).at_node node
  | plain | derived => exact yields_locate .thisRef keyword node

theorem yields_readSuper (keyword : Token) (node : ι) :
    Yields (readSuper keyword node : Pass ι τ) a s a s
      (match a.cls with
        | .none => [⟨.superOutsideClass, keyword⟩]
        | .plain => [⟨.superWithoutSuperclass, keyword⟩]
        | .derived => [])
      (localReference .superRef keyword
        (if a.cls = .derived then s.distanceTo? keyword.lexeme else none)) [node]
      [if a.cls = .derived then s.distanceTo? keyword.lexeme else none] := by
  obtain ⟨k, c⟩ := a
  cases c with
  | none => exact (yields_report .superOutsideClass keyword).at_node node
  | plain => exact (yields_report .superWithoutSuperclass keyword).at_node node
  | derived => exact yields_locate .superRef keyword node

/-- A scope of its own is gone with all that was declared in it. -/
theorem Yields.inScope {label : String}
    (hp : Yields p a ({ label := label } :: s) a' s' fs rs nodes slots) (hs : s'.tail = s) :
    Yields (inScope label p) a s a' s fs rs nodes slots := by
  obtain ⟨found, hfound, hrun⟩ := hp
  refine ⟨found, hfound, fun log onResolve distances => ?_⟩
  simp only [Pass.inScope, hrun, hs]

theorem Yields.inFunction {kind : FunctionKind}
    (hp : Yields p { a with function := kind } s a' s' fs rs nodes slots) :
    Yields (inFunction kind p) a s { a' with function := a.function } s' fs rs nodes slots := by
  obtain ⟨found, hfound, hrun⟩ := hp
  refine ⟨found, hfound, fun log onResolve distances => ?_⟩
  simp only [Pass.inFunction, hrun]

theorem Yields.keepingClass (hp : Yields p a s a' s' fs rs nodes slots) :
    Yields (keepingClass p) a s { a' with cls := a.cls } s' fs rs nodes slots := by
  obtain ⟨found, hfound, hrun⟩ := hp
  refine ⟨found, hfound, fun log onResolve distances => ?_⟩
  simp only [Pass.keepingClass, hrun]

end Pass

open Pass

/-! ## Expressions -/

mutual

theorem Expr.walk_yields (n : Nat) (e : Expr ι) (a : Surroundings) (s : Scopes) :
    Yields (e.walk : Pass ι τ) a s a s ((e.map id (bare n)).scopeFaults a.cls s)
      ((e.map id (bare n)).resolve a.cls s).references e.nodes
      ((e.map id (bare n)).resolve a.cls s).nodes := by
  cases e with
  | literal => exact yields_skip
  | var name node => exact yields_readVariable name node
  | thisRef keyword node => exact yields_readThis keyword node
  | superRef keyword method node => exact yields_readSuper keyword node
  | unary operator e => exact e.walk_yields n a s
  | binary e operator e' | logical e operator e' =>
      exact (e.walk_yields n a s).andThen (e'.walk_yields n a s)
  | conditional e e' e'' =>
      have h := (e.walk_yields n a s).andThen
        ((e'.walk_yields n a s).andThen (e''.walk_yields n a s))
      rwa [← List.append_assoc, ← List.append_assoc] at h
  | grouping e => exact e.walk_yields n a s
  | assign name node e =>
      have h := (e.walk_yields n a s).andThen (yields_locate .assign name node)
      rwa [List.append_nil] at h
  | call e paren es => exact (e.walk_yields n a s).andThen (Expr.walkAll_yields n es a s)
  | get e name => exact e.walk_yields n a s
  | set e name e' => exact (e'.walk_yields n a s).andThen (e.walk_yields n a s)
  | vector bracket es => exact Expr.walkAll_yields n es a s

theorem Expr.walkAll_yields (n : Nat) (es : List (Expr ι)) (a : Surroundings) (s : Scopes) :
    Yields (Expr.walkAll es : Pass ι τ) a s a s
      (Expr.scopeFaultsAll a.cls s (Expr.mapAll id (bare n) es))
      (Expr.referencesAll (Expr.resolveAll a.cls s (Expr.mapAll id (bare n) es)))
      (Expr.nodesAll es)
      (Expr.nodesAll (Expr.resolveAll a.cls s (Expr.mapAll id (bare n) es))) := by
  cases es with
  | nil => exact yields_skip
  | cons e es => exact (e.walk_yields n a s).andThen (Expr.walkAll_yields n es a s)

end

theorem Expr.walkOption_yields (n : Nat) (e : Option (Expr ι)) (a : Surroundings) (s : Scopes) :
    Yields (Expr.walkOption e : Pass ι τ) a s a s
      (Expr.scopeFaultsOption a.cls s (e.map (Expr.map id (bare n))))
      (Expr.referencesOption ((e.map (Expr.map id (bare n))).map (Expr.resolve a.cls s)))
      (Expr.nodesOption e)
      (Expr.nodesOption ((e.map (Expr.map id (bare n))).map (Expr.resolve a.cls s))) := by
  cases e with
  | none => exact yields_skip
  | some e => exact e.walk_yields n a s

/-! ## The parts of statements -/

theorem Pass.yields_returns (n : Nat) (keyword : Token) (e : Option (Expr ι)) (a : Surroundings)
    (s : Scopes) :
    Yields (returns keyword e : Pass ι τ) a s a s
      (returnFaults a.function keyword (e.map (Expr.map id (bare n))).isSome ++
        Expr.scopeFaultsOption a.cls s (e.map (Expr.map id (bare n))))
      (Expr.referencesOption ((e.map (Expr.map id (bare n))).map (Expr.resolve a.cls s)))
      (Expr.nodesOption e)
      (Expr.nodesOption ((e.map (Expr.map id (bare n))).map (Expr.resolve a.cls s))) := by
  have h := (yields_reportIf (τ := τ) (fun _ around => around.function = .none) .topLevelReturn
    keyword).andThen
      ((yields_reportIf (fun _ around => e.isSome && around.function = .initializer)
        .initializerReturn keyword).andThen (Expr.walkOption_yields n e a s))
  simp only [List.nil_append, Bool.and_eq_true, decide_eq_true_eq] at h
  simp only [returnFaults, Option.isSome_map, List.append_assoc]
  exact h

/-- Declaring a name and making it readable at once. -/
theorem Pass.Yields.named {p : Pass ι τ} {a a' : Surroundings} {s s' : Scopes}
    {fs : List ScopeViolation} {rs : List LocalReference} {nodes : List ι} {slots : List Slot}
    (name : Token)
    (hp : Yields p a (s.define name.lexeme) a' s' fs rs nodes slots) :
    Yields (Pass.andThen (declare name) (Pass.andThen (define name.lexeme) p)) a s a' s'
      (s.declareFaults name ++ fs) rs nodes slots := by
  rw [← Scopes.define_declare] at hp
  exact (yields_declare name).andThen ((yields_define name.lexeme).andThen hp)

theorem Pass.yields_parameters (params : List Token) (a : Surroundings) (s : Scopes) :
    Yields (parameters params : Pass ι τ) a s a (params.foldl (fun s p => s.define p.lexeme) s)
      (s.paramFaults params) [] [] [] := by
  induction params generalizing s with
  | nil => exact yields_skip
  | cons name params ih => exact (ih (s.define name.lexeme)).named name

theorem Pass.yields_inherit (n : Nat) (name : Token) (superclass : Option (Reference ι))
    (k : FunctionKind) (s : Scopes) :
    Yields (inherit name superclass : Pass ι τ) ⟨k, .plain⟩ s ⟨k, .ofSuperclass superclass⟩ s
      (Reference.scopeFaults s name (superclass.map (Reference.map id (bare n))))
      (Reference.references ((superclass.map (Reference.map id (bare n))).map
        (Reference.resolve s)))
      (Reference.nodes superclass)
      (Reference.nodes ((superclass.map (Reference.map id (bare n))).map
        (Reference.resolve s))) := by
  cases superclass with
  | none => exact yields_skip
  | some r =>
      have henter : Yields (enterClass .derived : Pass ι τ) ⟨k, .plain⟩ s ⟨k, .derived⟩ s [] [] []
          [] :=
        yields_of_moving fun _ _ _ => rfl
      have h := (yields_reportIf (τ := τ) (fun _ _ => r.name.lexeme = name.lexeme) .inheritsItself
        r.name).andThen (henter.andThen (yields_readVariable r.name r.slot))
      simp only [decide_eq_true_eq] at h
      exact h

theorem Pass.Yields.reserving {p : Pass ι τ} {a a' : Surroundings} {s : Scopes} {name : String}
    {fs : List ScopeViolation} {rs : List LocalReference} {nodes : List ι}
    {slots : List Slot}
    (hp : Yields p a (s.reserved name) a' (s.reserved name) fs rs nodes slots) :
    Yields (reserving name p) a s a' s fs rs nodes slots :=
  ((yields_define name).andThen hp).inScope rfl

theorem Pass.Yields.methods {p : Pass ι τ} {a a' : Surroundings} {s : Scopes}
    {superclass : Option (Reference ι)} {fs : List ScopeViolation} {rs : List LocalReference}
    {nodes : List ι} {slots : List Slot}
    (hp : Yields p a (s.methods superclass) a' (s.methods superclass) fs rs nodes slots) :
    Yields (methods superclass p) a s a' s fs rs nodes slots := by
  cases superclass with
  | none => exact hp.reserving
  | some r => exact hp.reserving.reserving

/-! ## Statements -/

namespace Scopes

theorem tail_after {δ : Type} (s : Scopes) (y : Stmt δ) : (y.after s).tail = s.tail := by
  cases y with
  | varDecl name | classDecl name => exact s.tail_define name.lexeme
  | function f => exact s.tail_define f.name.lexeme
  | _ => rfl

/-- The scopes after some statements. -/
def afterAll {δ : Type} (s : Scopes) (ys : List (Stmt δ)) : Scopes :=
  ys.foldl Stmt.after s

theorem tail_afterAll {δ : Type} (s : Scopes) (ys : List (Stmt δ)) :
    (s.afterAll ys).tail = s.tail := by
  induction ys generalizing s with
  | nil => rfl
  | cons y ys ih => exact (ih (y.after s)).trans (s.tail_after y)

theorem tail_function (s : Scopes) (name : Token) (params : List Token) :
    (s.function name params).tail = s := by
  rw [Scopes.function]
  suffices h : ∀ t : Scopes, (params.foldl (fun s p => s.define p.lexeme) t).tail = t.tail from h _
  induction params with
  | nil => exact fun _ => rfl
  | cons p params ih => exact fun t => (ih (t.define p.lexeme)).trans (t.tail_define p.lexeme)

end Scopes

mutual

theorem Stmt.walk_yields (n : Nat) (y : Stmt ι) (hy : (y.map id bare n).Listed)
    (a : Surroundings) (s : Scopes) :
    Yields (y.walk : Pass ι τ) a s a (y.after s) ((y.map id bare n).scopeFaults a s)
      ((y.map id bare n).resolve a.cls s).references y.nodes
      ((y.map id bare n).resolve a.cls s).nodes := by
  cases y with
  | expression e | print e => exact e.walk_yields n a s
  | varDecl name e =>
      have h := (yields_declare (τ := τ) name).andThen
        ((Expr.walkOption_yields n e a (s.declare name.lexeme)).andThen
          (yields_define name.lexeme))
      rw [Scopes.define_declare, List.append_nil, List.append_nil, List.append_nil,
        List.append_nil] at h
      exact h
  | block body =>
      exact (Stmt.walkAll_yields (n + 1) body hy a s.block).inScope (s.block.tail_afterAll body)
  | ifThen e y =>
      have h := (e.walk_yields (τ := τ) n a s).andThen (y.walk_yields n hy.1 a s)
      rw [Stmt.after_of_alone hy.2] at h
      exact h
  | whileLoop e y =>
      have h := (e.walk_yields (τ := τ) n a s).andThen (y.walk_yields n hy.1 a s)
      rw [Stmt.after_of_alone hy.2] at h
      exact h
  | ifElse e y z =>
      have hthen := y.walk_yields n hy.1.1 a s
      have helse := z.walk_yields n hy.2.1 a s
      rw [Stmt.after_of_alone hy.1.2] at hthen
      rw [Stmt.after_of_alone hy.2.2] at helse
      have h := (e.walk_yields (τ := τ) n a s).andThen (hthen.andThen helse)
      rw [← List.append_assoc, ← List.append_assoc] at h
      exact h
  | function f =>
      have h := (FunDecl.walk_yields n f hy .function a (s.define f.name.lexeme)).named f.name
      simp only [Stmt.map, Stmt.scopeFaults, Stmt.resolve, Stmt.references, FunDecl.name_bare]
      exact h
  | ret keyword e => exact yields_returns n keyword e a s
  | classDecl name superclass ms =>
      have hmethods := (FunDecl.walkAll_yields (methodDepth superclass n) ms hy a.function
        (.ofSuperclass superclass) ((s.define name.lexeme).methods superclass)).methods
      have hinner := ((yields_inherit n name superclass a.function (s.define name.lexeme)).andThen
        hmethods).named name
      have henter : Yields (enterClass .plain : Pass ι τ) a s ⟨a.function, .plain⟩ s []
          [] [] [] :=
        yields_of_moving fun _ _ _ => rfl
      have h := (henter.andThen hinner).keepingClass
      rw [List.nil_append, ← List.append_assoc] at h
      cases superclass <;> exact h

theorem Stmt.walkAll_yields (n : Nat) (ys : List (Stmt ι))
    (hys : Stmt.ListedAll (Stmt.mapAll id bare n ys)) (a : Surroundings) (s : Scopes) :
    Yields (Stmt.walkAll ys : Pass ι τ) a s a (s.afterAll ys)
      (Stmt.scopeFaultsAll a s (Stmt.mapAll id bare n ys))
      (Stmt.referencesAll (Stmt.resolveAll a.cls s (Stmt.mapAll id bare n ys)))
      (Stmt.nodesAll ys)
      (Stmt.nodesAll (Stmt.resolveAll a.cls s (Stmt.mapAll id bare n ys))) := by
  cases ys with
  | nil => exact yields_skip
  | cons y ys =>
      have h := (y.walk_yields n hys.1 a s).andThen
        (Stmt.walkAll_yields n ys hys.2 a (y.after s))
      simp only [Stmt.mapAll, Stmt.scopeFaultsAll, Stmt.resolveAll, Stmt.after_bare]
      exact h

theorem FunDecl.walk_yields (n : Nat) (f : FunDecl ι) (hf : (f.map id bare n).Listed)
    (k : FunctionKind) (a : Surroundings) (s : Scopes) :
    Yields (f.walk k : Pass ι τ) a s a s ((f.map id bare n).scopeFaults { a with function := k } s)
      ((f.map id bare n).resolve a.cls s).references f.nodes
      ((f.map id bare n).resolve a.cls s).nodes := by
  cases f with
  | mk name params body =>
      have hbody := Stmt.walkAll_yields (n + 1) body hf { a with function := k }
        (s.function name params)
      have hscopes : ((s.function name params).afterAll body).tail = s :=
        (Scopes.tail_afterAll _ body).trans (s.tail_function name params)
      have h := (((yields_parameters params { a with function := k } _).andThen hbody).inScope
        hscopes).inFunction
      simp only [FunDecl.map, FunDecl.scopeFaults, List.map_id]
      exact h

theorem FunDecl.walkAll_yields (n : Nat) (fs : List (FunDecl ι))
    (hfs : FunDecl.ListedAll (FunDecl.mapAll id bare n fs)) (k : FunctionKind) (c : ClassKind)
    (s : Scopes) :
    Yields (FunDecl.walkAll fs : Pass ι τ) ⟨k, c⟩ s ⟨k, c⟩ s
      (FunDecl.scopeFaultsAll c s (FunDecl.mapAll id bare n fs))
      (FunDecl.referencesAll (FunDecl.resolveAll c s (FunDecl.mapAll id bare n fs)))
      (FunDecl.nodesAll fs)
      (FunDecl.nodesAll (FunDecl.resolveAll c s (FunDecl.mapAll id bare n fs))) := by
  cases fs with
  | nil => exact yields_skip
  | cons f fs =>
      have h := (f.walk_yields n hfs.1 (.ofMethod f.name.lexeme) ⟨k, c⟩ s).andThen
        (FunDecl.walkAll_yields n fs hfs.2 k c s)
      simp only [FunDecl.mapAll, FunDecl.scopeFaultsAll, FunDecl.name_bare]
      exact h

end

end

end Lox
