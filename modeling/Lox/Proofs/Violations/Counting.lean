import Lox.Proofs.Scoping.Places
import Lox.Proofs.Violations.Listed
import Lox.Proofs.Violations.Survey
import Mathlib.Data.List.Perm.Basic

/-!
# Counting violations

Resolution walks a tree with scopes that change on the way; a survey has none. The two
are compared by counting: however the faults of a part are picked, resolution reports as
many as the survey has, besides those that depend on what the scope around the part holds.
Those are accounted for where the scope is opened, since what has been declared in it up
to a place is what stands before that place in its body.

Nothing is pending in a scope but in an initializer, so nothing is where a scope is opened.

Counted rule by rule, the faults of a program are then its static violations. A survey has no
order in which rules are broken, so what is proved is that both lists are the same up to their
order.
-/

namespace Lox

/-! ## Scopes in which everything can be read -/

namespace Scopes

/-- Everything in the innermost scope can be read. -/
def Quiet (s : Scopes) : Prop :=
  ∀ name, s.isPending name = false

theorem quiet_nil : Quiet [] := fun _ => rfl

theorem isPending_cons (scope : Scope) (s : Scopes) (name : String) :
    isPending (scope :: s) name = (scope.isDeclared name && !scope.isDefined name) := by
  simp [isPending]

theorem quiet_empty (label : String) (s : Scopes) : Quiet ({ label := label } :: s) := by
  intro name
  simp [isPending, Scope.isDeclared, Bindings.contains]

theorem Quiet.define {s : Scopes} (h : s.Quiet) (x : String) : (s.define x).Quiet := by
  intro name
  cases s with
  | nil => rfl
  | cons scope rest =>
      have hname := h name
      rw [isPending_cons, Bool.and_eq_false_imp] at hname
      rw [Scopes.define, isPending_cons, Bool.and_eq_false_imp]
      intro hdeclared
      rcases (scope.isDeclared_define x name).mp hdeclared with rfl | hbefore
      · simp [(scope.isDefined_define name name).mpr (.inl rfl)]
      · have hdefined : scope.isDefined name = true := by simpa using hname hbefore
        simp [(scope.isDefined_define x name).mpr (.inr hdefined)]

theorem Quiet.function {s : Scopes} (name : Token) (params : List Token) :
    (s.function name params).Quiet := by
  have hfold : ∀ (params : List Token) {s : Scopes}, s.Quiet →
      (params.foldl (fun s p => s.define p.lexeme) s).Quiet := by
    intro params
    induction params with
    | nil => exact fun h => h
    | cons p rest ih => exact fun h => ih (h.define p.lexeme)
  exact hfold params (quiet_empty _ s)

theorem Quiet.after {s : Scopes} (h : s.Quiet) (y : Stmt Unit) : (y.after s).Quiet := by
  cases y <;> first | exact h | exact h.define _

/-- In the initializer of a variable it is the only one that cannot be read. -/
theorem Quiet.isPending_declare {scope : Scope} {s : Scopes} (h : Quiet (scope :: s))
    (x name : String) : (Scopes.declare x (scope :: s)).isPending name = decide (name = x) := by
  have hname := h name
  rw [isPending_cons] at hname
  rw [Scopes.declare, isPending_cons]
  have hdeclared := scope.isDeclared_declare x name
  have hdefined := scope.isDefined_declare x name
  by_cases hx : name = x
  · simp only [hx, true_or, ne_eq, not_true_eq_false, false_and, iff_true, iff_false,
      Bool.not_eq_true] at hdeclared hdefined ⊢
    simp [hdeclared, hdefined]
  · simp only [hx, false_or, ne_eq, not_false_eq_true, true_and, decide_false]
      at hdeclared hdefined ⊢
    rw [Bool.eq_iff_iff.mpr hdeclared, Bool.eq_iff_iff.mpr hdefined]
    exact hname

end Scopes

/-! ## What is reported where -/

namespace Mention

/-- The faults of mentioning something in a class of kind `c`. -/
def faults (c : ClassKind) (s : Scopes) : Mention → List ScopeViolation
  | name t => if s.isPending t.lexeme then [⟨.ownInitializer, t⟩] else []
  | this t => if c = .none then [⟨.thisOutsideClass, t⟩] else []
  | super t =>
    match c with
    | .none => [⟨.superOutsideClass, t⟩]
    | .plain => [⟨.superWithoutSuperclass, t⟩]
    | .derived => []

end Mention

namespace LocalScope

def violations (scope : LocalScope) : List ScopeViolation :=
  scope.repeats.map (⟨.alreadyDeclared, ·⟩) ++ scope.ownReads.map (⟨.ownInitializer, ·⟩)

end LocalScope

namespace ClassSite

def violations (site : ClassSite) : List ScopeViolation :=
  site.initializerReturns.map (⟨.initializerReturn, ·⟩) ++
    (site.baselessSupers.map (⟨.superWithoutSuperclass, ·⟩) ++
      site.selfInheritance.map (⟨.inheritsItself, ·⟩))

end ClassSite

/-- The faults of some `return` statements in a function of kind `k`. -/
def returnsFaults (k : FunctionKind) (returns : List ReturnSite) : List ScopeViolation :=
  returns.flatMap fun r => returnFaults k r.keyword r.hasValue

/-- The faults of some mentions where everything can be read. -/
def mentionsFaults (c : ClassKind) (mentions : List Mention) : List ScopeViolation :=
  mentions.flatMap (Mention.faults c [])

/-- The violations in what is surveyed. The surroundings matter to what is not in a function
or not in a class. -/
def Survey.violations (around : Surroundings) (s : Survey) : List ScopeViolation :=
  s.scopes.flatMap LocalScope.violations ++ (s.classes.flatMap ClassSite.violations ++
    (returnsFaults around.function s.returns ++ mentionsFaults around.cls s.mentions))

/-- The readings of variables in their own initializers, by the statements of a body. They
are faults unless the scope is global. -/
def Scopes.readFaults (s : Scopes) (body : List (Stmt Unit)) : List ScopeViolation :=
  match s with
  | [] => []
  | _ :: _ => (body.flatMap Stmt.ownReads).map (⟨.ownInitializer, ·⟩)

mutual

theorem Expr.scopeFaults_eq (c : ClassKind) (s : Scopes) (e : Expr Unit) :
    e.scopeFaults c s = e.mentions.flatMap (Mention.faults c s) := by
  match e with
  | .literal _ => rfl
  | .unary _ operand => exact operand.scopeFaults_eq c s
  | .binary left _ right | .logical left _ right =>
      rw [Expr.scopeFaults, Expr.mentions, List.flatMap_append, left.scopeFaults_eq,
        right.scopeFaults_eq]
  | .conditional condition thenBranch elseBranch =>
      rw [Expr.scopeFaults, Expr.mentions, List.flatMap_append, List.flatMap_append,
        condition.scopeFaults_eq, thenBranch.scopeFaults_eq, elseBranch.scopeFaults_eq]
  | .grouping inner => exact inner.scopeFaults_eq c s
  | .var _ _ | .thisRef _ _ | .superRef _ _ _ =>
      rw [Expr.mentions, List.flatMap_singleton]
      rfl
  | .assign _ _ value => exact value.scopeFaults_eq c s
  | .call callee _ arguments =>
      rw [Expr.scopeFaults, Expr.mentions, List.flatMap_append, callee.scopeFaults_eq,
        Expr.scopeFaultsAll_eq]
  | .get object _ => exact object.scopeFaults_eq c s
  | .set object _ value =>
      rw [Expr.scopeFaults, Expr.mentions, List.flatMap_append, object.scopeFaults_eq,
        value.scopeFaults_eq]
  | .vector _ elements => exact Expr.scopeFaultsAll_eq c s elements

theorem Expr.scopeFaultsAll_eq (c : ClassKind) (s : Scopes) (es : List (Expr Unit)) :
    Expr.scopeFaultsAll c s es = (Expr.mentionsAll es).flatMap (Mention.faults c s) := by
  match es with
  | [] => rfl
  | e :: rest =>
      rw [Expr.scopeFaultsAll, Expr.mentionsAll, List.flatMap_append, e.scopeFaults_eq,
        Expr.scopeFaultsAll_eq]

end

theorem Expr.scopeFaultsOption_eq (c : ClassKind) (s : Scopes) (e : Option (Expr Unit)) :
    Expr.scopeFaultsOption c s e = (Expr.mentionsOption e).flatMap (Mention.faults c s) := by
  cases e with
  | none => rfl
  | some e => exact e.scopeFaults_eq c s

namespace Scopes

variable {s : Scopes} {c : ClassKind}

/-- Where everything can be read, the scopes do not matter. -/
theorem Quiet.faults (h : s.Quiet) (mentions : List Mention) :
    mentions.flatMap (Mention.faults c s) = mentionsFaults c mentions := by
  refine List.flatMap_congr fun m _ => ?_
  cases m with
  | name t => simp only [Mention.faults, h t.lexeme, quiet_nil t.lexeme]
  | this t | super t => rfl

/-- Readings of the variable in its own initializer are faults in addition to the others. -/
theorem Quiet.count_initializer {scope : Scope} (h : Quiet (scope :: s)) (x : String)
    (q : ScopeViolation → Bool) (mentions : List Mention) :
    (mentions.flatMap (Mention.faults c (Scopes.declare x (scope :: s)))).countP q =
      ((mentions.filterMap (Mention.reads? x)).map (⟨.ownInitializer, ·⟩)).countP q +
        (mentionsFaults c mentions).countP q := by
  induction mentions with
  | nil => rfl
  | cons m rest ih =>
      rw [mentionsFaults] at ih ⊢
      rw [List.flatMap_cons, List.flatMap_cons, List.countP_append, List.countP_append, ih]
      cases m with
      | name t =>
          have hfaults : Mention.faults c [] (.name t) = [] := rfl
          rw [hfaults, Mention.faults, h.isPending_declare]
          by_cases hx : t.lexeme = x
          · have hread : Mention.reads? x (.name t) = some t := if_pos hx
            rw [List.filterMap_cons_some hread, List.map_cons, if_pos (decide_eq_true hx)]
            simp only [List.countP_cons, List.countP_nil]
            omega
          · have hread : Mention.reads? x (.name t) = none := if_neg hx
            rw [List.filterMap_cons_none hread, if_neg (by simpa using hx)]
            simp only [List.countP_nil]
            omega
      | this t | super t =>
          simp only [Mention.faults, Mention.reads?, List.filterMap_cons]
          omega

/-- Where `earlier` has been declared, a declaration is a fault if its name is one of those. -/
theorem paramFaults_eq (scope : Scope) (s : Scopes) {earlier : List String}
    (h : ∀ name, scope.isDeclared name = true ↔ name ∈ earlier) (names : List Token) :
    paramFaults (scope :: s) names = (repeated earlier names).map (⟨.alreadyDeclared, ·⟩) := by
  induction names generalizing scope earlier with
  | nil => rfl
  | cons t rest ih =>
      have hnext : ∀ name, (scope.define t.lexeme).isDeclared name = true ↔
          name ∈ t.lexeme :: earlier := fun name => by
        rw [Scope.isDeclared_define, h, List.mem_cons]
      rw [paramFaults, Scopes.define, ih _ hnext, repeated, List.map_append]
      congr 1
      by_cases ht : t.lexeme ∈ earlier
      · simp [declareFaults, declaresHere, ht, (h t.lexeme).mpr ht]
      · have hnot : scope.isDeclared t.lexeme = false := by
          simpa using fun hd => ht ((h t.lexeme).mp hd)
        simp [declareFaults, declaresHere, ht, hnot]

theorem paramFaults_nil (names : List Token) : paramFaults [] names = [] := by
  induction names with
  | nil => rfl
  | cons t rest ih => rw [paramFaults, Scopes.define, ih]; rfl

/-- In a scope that has just been opened. -/
theorem paramFaults_empty (label : String) (s : Scopes) (names : List Token) :
    paramFaults ({ label := label } :: s) names =
      (repeated [] names).map (⟨.alreadyDeclared, ·⟩) :=
  paramFaults_eq _ s (by simp [Scope.isDeclared, Bindings.contains]) names

end Scopes

/-! ## Counting -/

variable {around : Surroundings} {s : Scopes} {q : ScopeViolation → Bool}

namespace Survey

theorem count_append (a b : Survey) :
    ((a ++ b).violations around).countP q =
      (a.violations around).countP q + (b.violations around).countP q := by
  have happend : a ++ b = a.append b := rfl
  simp only [happend, append, violations, returnsFaults, mentionsFaults, List.flatMap_append,
    List.countP_append]
  omega

/-- Where something is mentioned and no more. -/
theorem violations_mentions (mentions : List Mention) :
    ({ mentions := mentions } : Survey).violations around = mentionsFaults around.cls mentions :=
  rfl

theorem violations_scope (scope : LocalScope) :
    ({ scopes := [scope] } : Survey).violations around = scope.violations := by
  simp [violations, returnsFaults, mentionsFaults]

theorem violations_return (r : ReturnSite) (mentions : List Mention) :
    ({ returns := [r], mentions := mentions } : Survey).violations around =
      returnFaults around.function r.keyword r.hasValue ++ mentionsFaults around.cls mentions := by
  simp [violations, returnsFaults]

theorem count_ofFunction (around : Surroundings) (scope : LocalScope) (inside : Survey) :
    ((inside.ofFunction scope).violations around).countP q +
        (returnsFaults around.function inside.returns).countP q =
      scope.violations.countP q + (inside.violations around).countP q := by
  simp only [ofFunction, violations, returnsFaults, List.flatMap_cons, List.flatMap_nil,
    List.countP_append, List.countP_nil]
  omega

end Survey

/-- Opening a scope with its parameters and going through its body. -/
theorem LocalScope.count_violations (label : String) (params : List Token)
    (body : List (Stmt Unit)) :
    (LocalScope.violations ⟨params, body⟩).countP q =
      (Scopes.paramFaults ({ label := label } :: s) params).countP q +
        ((params.foldl (fun (s : Scopes) p => s.define p.lexeme)
          ({ label := label } :: s)).paramFaults (body.filterMap Stmt.declared?)).countP q +
        ((params.foldl (fun (s : Scopes) p => s.define p.lexeme)
          ({ label := label } :: s)).readFaults body).countP q := by
  have hreads : ∀ (params : List Token) (scope : Scope),
      (params.foldl (fun (s : Scopes) p => s.define p.lexeme) (scope :: s)).readFaults body =
        (body.flatMap Stmt.ownReads).map (⟨.ownInitializer, ·⟩) := by
    intro params
    induction params with
    | nil => exact fun _ => rfl
    | cons p rest ih => exact fun scope => ih (scope.define p.lexeme)
  have hnames := Scopes.paramFaults_append ({ label := label } :: s) params
    (body.filterMap Stmt.declared?)
  rw [Scopes.paramFaults_empty] at hnames
  rw [LocalScope.violations, hreads, LocalScope.repeats, LocalScope.declared, hnames,
    List.countP_append, List.countP_append]
  rfl

/-! ## Methods and classes -/

/-- In a function that is no method every `return` is right. -/
theorem returnsFaults_function (returns : List ReturnSite) :
    returnsFaults .function returns = [] := by
  simp [returnsFaults, returnFaults]

theorem FunctionKind.returnsFaults_ofMethod (f : FunDecl Unit) :
    returnsFaults (.ofMethod f.name.lexeme) f.returns =
      if f.name.lexeme = initializerName then
        ((f.returns.filter (·.hasValue)).map (·.keyword)).map (⟨.initializerReturn, ·⟩)
      else [] := by
  rw [returnsFaults, FunctionKind.ofMethod]
  split
  · induction f.returns with
    | nil => rfl
    | cons r rest ih =>
        rw [List.flatMap_cons, ih]
        cases hv : r.hasValue <;> simp [returnFaults, hv]
  · simp [returnFaults]

theorem ClassSite.initializerReturns_eq (site : ClassSite) :
    site.initializerReturns.map (⟨.initializerReturn, ·⟩) =
      site.methods.flatMap fun f => returnsFaults (.ofMethod f.name.lexeme) f.returns := by
  rw [initializerReturns]
  induction site.methods with
  | nil => rfl
  | cons f rest ih =>
      rw [List.flatMap_cons, ← ih, FunctionKind.returnsFaults_ofMethod]
      by_cases hname : f.name.lexeme = initializerName
      · rw [List.filter_cons_of_pos (by simpa using hname), if_pos hname, List.flatMap_cons,
          List.map_append]
      · rw [List.filter_cons_of_neg (by simpa using hname), if_neg hname, List.nil_append]

theorem ClassSite.baselessSupers_eq (site : ClassSite) :
    site.baselessSupers.map (⟨.superWithoutSuperclass, ·⟩) =
      mentionsFaults (.ofSuperclass site.superclass)
        (FunDecl.surveyAll site.methods).mentions := by
  rw [baselessSupers, mentionsFaults]
  induction (FunDecl.surveyAll site.methods).mentions with
  | nil => cases site.superclass <;> rfl
  | cons m rest ih =>
      rw [List.flatMap_cons, ← ih]
      cases site.superclass <;> cases m <;> rfl

theorem ClassSite.selfInheritance_eq (site : ClassSite) (h : s.Quiet) :
    site.selfInheritance.map (⟨.inheritsItself, ·⟩) =
      Reference.scopeFaults s site.name site.superclass := by
  rw [selfInheritance]
  cases site.superclass with
  | none => rfl
  | some r =>
      simp only [Option.toList, List.map_cons, List.map_nil, Reference.scopeFaults,
        h r.name.lexeme, Bool.false_eq_true, if_false, List.append_nil]
      by_cases hname : r.name.lexeme = site.name.lexeme <;> simp [hname]

theorem ClassSite.count_violations (name : Token) (superclass : Option (Reference Unit))
    (methods : List (FunDecl Unit)) (h : s.Quiet) :
    (ClassSite.violations ⟨name, superclass, methods⟩).countP q =
      (methods.flatMap fun f => returnsFaults (.ofMethod f.name.lexeme) f.returns).countP q +
        (mentionsFaults (.ofSuperclass superclass)
          (FunDecl.surveyAll methods).mentions).countP q +
        (Reference.scopeFaults s name superclass).countP q := by
  rw [violations, initializerReturns_eq, baselessSupers_eq, selfInheritance_eq _ h,
    List.countP_append, List.countP_append, Nat.add_assoc]

/-- What is left of a function to mention has no `return`. -/
theorem FunDecl.returns_surveyAll (methods : List (FunDecl Unit)) :
    (FunDecl.surveyAll methods).returns = [] := by
  induction methods with
  | nil => rfl
  | cons f rest ih =>
      have hreturns : (FunDecl.surveyAll (f :: rest)).returns =
          f.survey.returns ++ (FunDecl.surveyAll rest).returns := rfl
      rw [hreturns, ih, List.append_nil]
      cases f
      rfl

/-- So the kind of the function around does not matter to it. -/
theorem FunDecl.survey_violations (f : FunDecl Unit) (k k' : FunctionKind) (c : ClassKind) :
    f.survey.violations ⟨k, c⟩ = f.survey.violations ⟨k', c⟩ := by
  cases f
  rfl

theorem Survey.count_ofClass (around : Surroundings) (site : ClassSite) {inside : Survey}
    (h : inside.returns = []) (c : ClassKind) :
    ((inside.ofClass site).violations around).countP q +
        (mentionsFaults c inside.mentions).countP q =
      site.violations.countP q + (inside.violations ⟨around.function, c⟩).countP q := by
  simp only [ofClass, violations, h, returnsFaults, mentionsFaults, List.flatMap_cons,
    List.flatMap_nil, List.countP_append, List.countP_nil]
  omega

/-! ## Whole trees -/

namespace Scopes

/-- The faults in a body that are there because of what its scope holds. -/
def bodyFaults (s : Scopes) (body : List (Stmt Unit)) : List ScopeViolation :=
  s.paramFaults (body.filterMap Stmt.declared?) ++ s.readFaults body

theorem bodyFaults_nil (s : Scopes) : s.bodyFaults [] = [] := by
  cases s <;> rfl

/-- A statement that declares nothing breaks no such rule. -/
theorem bodyFaults_of_declared?_eq_none (s : Scopes) {y : Stmt Unit} (h : y.declared? = none) :
    s.bodyFaults [y] = [] := by
  cases y <;> first | cases s <;> rfl | cases h

theorem count_bodyFaults_cons (s : Scopes) (y : Stmt Unit) (rest : List (Stmt Unit)) :
    (s.bodyFaults (y :: rest)).countP q =
      (s.bodyFaults [y]).countP q + ((y.after s).bodyFaults rest).countP q := by
  have hnames : s.paramFaults ((y :: rest).filterMap Stmt.declared?) =
      s.paramFaults ([y].filterMap Stmt.declared?) ++
        (y.after s).paramFaults (rest.filterMap Stmt.declared?) := by
    rw [← List.singleton_append, List.filterMap_append, paramFaults_append]
    cases y <;> rfl
  have hreads : s.readFaults (y :: rest) = s.readFaults [y] ++ (y.after s).readFaults rest := by
    cases s with
    | nil => cases y <;> rfl
    | cons scope s =>
        have hafter : ∃ scope', y.after (scope :: s) = scope' :: s := by
          cases y <;> exact ⟨_, rfl⟩
        obtain ⟨scope', hafter⟩ := hafter
        rw [hafter, readFaults, readFaults, readFaults, List.flatMap_cons, List.flatMap_cons,
          List.flatMap_nil, List.append_nil, List.map_append]
  simp only [bodyFaults, hnames, hreads, List.countP_append]
  omega

/-- A statement that declares `t` and reads nothing in an initializer. -/
theorem bodyFaults_of_declared?_eq_some (s : Scopes) {y : Stmt Unit} {t : Token}
    (h : y.declared? = some t) (hreads : y.ownReads = []) :
    s.bodyFaults [y] = s.declareFaults t := by
  rw [bodyFaults, List.filterMap_cons_some h, List.filterMap_nil]
  cases s <;> simp [readFaults, paramFaults, hreads]

/-- The initializer of a variable, whose name is in the scope but cannot be read. -/
theorem Quiet.count_varDecl (hs : s.Quiet) (name : Token) (initializer : Option (Expr Unit))
    (c : ClassKind) :
    (s.declareFaults name).countP q +
        (Expr.scopeFaultsOption c (s.declare name.lexeme) initializer).countP q =
      (s.bodyFaults [.varDecl name initializer]).countP q +
        (mentionsFaults c (Expr.mentionsOption initializer)).countP q := by
  rw [Expr.scopeFaultsOption_eq]
  cases s with
  | nil => rfl
  | cons scope rest =>
      rw [hs.count_initializer, bodyFaults, readFaults, List.countP_append]
      simp only [List.filterMap_cons, List.filterMap_nil, Stmt.declared?, paramFaults,
        List.append_nil, List.flatMap_cons, List.flatMap_nil, Stmt.ownReads]
      omega

end Scopes

mutual

theorem Stmt.count_scopeFaults (around : Surroundings) {s : Scopes} {y : Stmt Unit}
    (hy : y.Listed) (hs : s.Quiet) :
    (y.scopeFaults around s).countP q =
      (s.bodyFaults [y]).countP q + (y.survey.violations around).countP q := by
  match y with
  | .expression e | .print e =>
      rw [Stmt.scopeFaults, e.scopeFaults_eq, hs.faults,
        Scopes.bodyFaults_of_declared?_eq_none s rfl, Stmt.survey, Survey.violations_mentions,
        List.countP_nil, Nat.zero_add]
  | .varDecl name initializer =>
      rw [Stmt.scopeFaults, List.countP_append, hs.count_varDecl, Stmt.survey,
        Survey.violations_mentions]
  | .block body =>
      have hbody := Stmt.count_scopeFaultsAll around hy
        (Scopes.quiet_empty "block" s)
      have hscope := LocalScope.count_violations (s := s) (q := q) "block" [] body
      rw [List.foldl_nil, Scopes.paramFaults, List.countP_nil] at hscope
      rw [Scopes.bodyFaults, List.countP_append] at hbody
      rw [Stmt.scopeFaults, Scopes.block, hbody, Scopes.bodyFaults_of_declared?_eq_none s rfl,
        List.countP_nil, Stmt.survey, Survey.count_append, Survey.violations_scope]
      omega
  | .ifThen condition thenBranch =>
      have hthen := Stmt.count_scopeFaults around hy.1 hs
      rw [Scopes.bodyFaults_of_declared?_eq_none s hy.2, List.countP_nil] at hthen
      rw [Stmt.scopeFaults, condition.scopeFaults_eq, hs.faults, List.countP_append, hthen,
        Scopes.bodyFaults_of_declared?_eq_none s rfl, List.countP_nil, Stmt.survey,
        Survey.count_append, Survey.violations_mentions]
      omega
  | .ifElse condition thenBranch elseBranch =>
      have hthen := Stmt.count_scopeFaults around hy.1.1 hs
      have helse := Stmt.count_scopeFaults around hy.2.1 hs
      rw [Scopes.bodyFaults_of_declared?_eq_none s hy.1.2, List.countP_nil] at hthen
      rw [Scopes.bodyFaults_of_declared?_eq_none s hy.2.2, List.countP_nil] at helse
      rw [Stmt.scopeFaults, condition.scopeFaults_eq, hs.faults, List.countP_append,
        List.countP_append, hthen, helse, Scopes.bodyFaults_of_declared?_eq_none s rfl,
        List.countP_nil, Stmt.survey, Survey.count_append, Survey.count_append,
        Survey.violations_mentions]
      omega
  | .whileLoop condition body =>
      have hbody := Stmt.count_scopeFaults around hy.1 hs
      rw [Scopes.bodyFaults_of_declared?_eq_none s hy.2, List.countP_nil] at hbody
      rw [Stmt.scopeFaults, condition.scopeFaults_eq, hs.faults, List.countP_append, hbody,
        Scopes.bodyFaults_of_declared?_eq_none s rfl, List.countP_nil, Stmt.survey,
        Survey.count_append, Survey.violations_mentions]
      omega
  | .function f =>
      have hf := FunDecl.count_scopeFaults { around with function := .function }
        (s := s.define f.name.lexeme) hy
      rw [returnsFaults_function, List.countP_nil] at hf
      rw [Stmt.scopeFaults, List.countP_append, hf,
        Scopes.bodyFaults_of_declared?_eq_some s rfl rfl, Stmt.survey,
        f.survey_violations _ around.function]
      rfl
  | .ret keyword value =>
      rw [Stmt.scopeFaults, Expr.scopeFaultsOption_eq, hs.faults, List.countP_append,
        Scopes.bodyFaults_of_declared?_eq_none s rfl, List.countP_nil, Stmt.survey,
        Survey.violations_return, List.countP_append, Nat.zero_add]
  | .classDecl name superclass methods =>
      have hms := FunDecl.count_scopeFaultsAll (c := .ofSuperclass superclass)
        (k := around.function) (s := (s.define name.lexeme).methods superclass) hy
      have hclass := Survey.count_ofClass around (q := q) ⟨name, superclass, methods⟩
        (FunDecl.returns_surveyAll methods) (.ofSuperclass superclass)
      rw [ClassSite.count_violations name superclass methods (hs.define name.lexeme)] at hclass
      rw [Stmt.scopeFaults]
      simp only [List.countP_append]
      rw [hms, Scopes.bodyFaults_of_declared?_eq_some s rfl rfl, Stmt.survey]
      omega

theorem Stmt.count_scopeFaultsAll (around : Surroundings) {s : Scopes} {ys : List (Stmt Unit)}
    (hys : Stmt.ListedAll ys) (hs : s.Quiet) :
    (Stmt.scopeFaultsAll around s ys).countP q =
      (s.bodyFaults ys).countP q + ((Stmt.surveyAll ys).violations around).countP q := by
  match ys with
  | [] =>
      rw [Scopes.bodyFaults_nil]
      rfl
  | y :: rest =>
      have hy := Stmt.count_scopeFaults around hys.1 hs
      have hrest := Stmt.count_scopeFaultsAll around hys.2 (hs.after y)
      rw [Stmt.scopeFaultsAll, List.countP_append, hy, hrest,
        Scopes.count_bodyFaults_cons s y rest, Stmt.surveyAll, Survey.count_append]
      omega

theorem FunDecl.count_scopeFaults (around : Surroundings) {s : Scopes} {f : FunDecl Unit}
    (hf : f.Listed) :
    (f.scopeFaults around s).countP q =
      (f.survey.violations around).countP q +
        (returnsFaults around.function f.returns).countP q := by
  match f with
  | .mk name params body =>
      have hbody := Stmt.count_scopeFaultsAll around hf
        (Scopes.Quiet.function (s := s) name params)
      have hscope := LocalScope.count_violations (s := s) (q := q) ("function " ++ name.lexeme)
        params body
      have hfunction := Survey.count_ofFunction around (q := q) ⟨params, body⟩
        (Stmt.surveyAll body)
      rw [Scopes.bodyFaults, List.countP_append] at hbody
      rw [FunDecl.scopeFaults, List.countP_append, hbody, FunDecl.survey, FunDecl.returns,
        FunDecl.body, Scopes.function]
      omega

theorem FunDecl.count_scopeFaultsAll {s : Scopes} {c : ClassKind} {k : FunctionKind}
    {methods : List (FunDecl Unit)} (hms : FunDecl.ListedAll methods) :
    (FunDecl.scopeFaultsAll c s methods).countP q =
      ((FunDecl.surveyAll methods).violations ⟨k, c⟩).countP q +
        (methods.flatMap fun f =>
          returnsFaults (.ofMethod f.name.lexeme) f.returns).countP q := by
  match methods with
  | [] => rfl
  | f :: rest =>
      have hf := FunDecl.count_scopeFaults ⟨.ofMethod f.name.lexeme, c⟩ (s := s) hms.1
      have hrest := FunDecl.count_scopeFaultsAll (s := s) (c := c) (k := k) hms.2
      rw [f.survey_violations _ k] at hf
      dsimp only at hf
      rw [FunDecl.scopeFaultsAll, List.countP_append, hf, hrest, FunDecl.surveyAll,
        Survey.count_append, List.flatMap_cons, List.countP_append]
      omega

end

/-! ## What resolution reports -/

/-- A violation as it is reported. -/
def ScopeViolation.report (v : ScopeViolation) : String × Token :=
  (v.fault.code, v.token)

section

variable {α : Type} (q : String × Token → Bool)

/-- Faults of one kind, counted as tokens that break its rule. -/
theorem count_reports (fault : ScopeFault) (xs : List α) (tokens : α → List Token) :
    (xs.flatMap fun x => (tokens x).map (ScopeViolation.mk fault)).countP
        (q ∘ ScopeViolation.report) =
      ((xs.flatMap tokens).map fun t => (fault.code, t)).countP q := by
  rw [← List.map_flatMap, List.countP_map, List.countP_map]
  rfl

theorem count_flatMap_append {β : Type} (p : β → Bool) (xs : List α) (f g : α → List β) :
    (xs.flatMap fun x => f x ++ g x).countP p =
      (xs.flatMap f).countP p + (xs.flatMap g).countP p := by
  rw [← (List.flatMap_append_perm xs f g).countP_eq, List.countP_append]

namespace Survey

variable (s : Survey)

theorem count_scopes :
    (s.scopes.flatMap LocalScope.violations).countP (q ∘ ScopeViolation.report) =
      ((s.scopes.flatMap LocalScope.repeats).map fun t => ("E201", t)).countP q +
        ((s.scopes.flatMap LocalScope.ownReads).map fun t => ("E202", t)).countP q := by
  unfold LocalScope.violations
  rw [count_flatMap_append, count_reports, count_reports]
  rfl

theorem count_classes :
    (s.classes.flatMap ClassSite.violations).countP (q ∘ ScopeViolation.report) =
      ((s.classes.flatMap ClassSite.initializerReturns).map fun t => ("E204", t)).countP q +
        (((s.classes.flatMap ClassSite.baselessSupers).map fun t => ("E207", t)).countP q +
          ((s.classes.flatMap ClassSite.selfInheritance).map fun t => ("E208", t)).countP q) := by
  unfold ClassSite.violations
  rw [count_flatMap_append, count_flatMap_append, count_reports, count_reports, count_reports]
  rfl

theorem count_returns :
    (returnsFaults .none s.returns).countP (q ∘ ScopeViolation.report) =
      ((s.returns.map (·.keyword)).map fun t => ("E203", t)).countP q := by
  have hkind : ∀ r : ReturnSite, returnFaults .none r.keyword r.hasValue =
      [r.keyword].map (ScopeViolation.mk .topLevelReturn) := fun r => by simp [returnFaults]
  have hkeywords : s.returns.flatMap (fun r => [r.keyword]) = s.returns.map (·.keyword) :=
    List.map_eq_flatMap.symm
  unfold returnsFaults
  simp only [hkind]
  rw [count_reports, hkeywords]
  rfl

theorem count_mentions :
    (mentionsFaults .none s.mentions).countP (q ∘ ScopeViolation.report) =
      ((s.mentions.filterMap Mention.this?).map fun t => ("E205", t)).countP q +
        ((s.mentions.filterMap Mention.super?).map fun t => ("E206", t)).countP q := by
  have hkind : ∀ m : Mention, m.faults .none [] =
      m.this?.toList.map (ScopeViolation.mk .thisOutsideClass) ++
        m.super?.toList.map (ScopeViolation.mk .superOutsideClass) := fun m => by cases m <;> rfl
  unfold mentionsFaults
  simp only [funext hkind]
  rw [count_flatMap_append, count_reports, count_reports, List.filterMap_eq_flatMap_toList,
    List.filterMap_eq_flatMap_toList]
  rfl

/-- The violations outside of everything, rule by rule. -/
theorem count_rules :
    (s.violations {}).countP (q ∘ ScopeViolation.report) =
      (s.rules.flatMap fun (code, tokens) => tokens.map fun t => (code, t)).countP q := by
  simp only [violations, rules, List.flatMap_cons, List.flatMap_nil, List.countP_append,
    List.countP_nil, count_scopes, count_classes, count_returns, count_mentions]
  omega

end Survey

end

/-- Resolution reports the static violations of a program, each as often as there are. -/
theorem resolveProgram_perm {program : List (Stmt Unit)} (h : Stmt.ListedAll program) :
    ((resolveProgram program).diagnostics.map fun d => (d.code, d.token)).Perm
      ((staticViolations program).map fun (code, t) => (code, some t)) := by
  have hreports : (resolveProgram program).diagnostics.map (fun d => (d.code, d.token)) =
      ((Stmt.scopeFaultsAll {} [] program).map ScopeViolation.report).map
        fun (code, t) => (code, some t) := by
    simp only [Resolution.diagnostics, resolveProgram, List.map_map]
    rfl
  rw [hreports]
  refine List.Perm.map _ ?_
  classical
  refine List.perm_iff_count.mpr fun v => ?_
  have hcount := Stmt.count_scopeFaultsAll {} (q := (· == v) ∘ ScopeViolation.report) h
    Scopes.quiet_nil
  rw [Scopes.bodyFaults, Scopes.paramFaults_nil, Survey.count_rules, List.nil_append] at hcount
  rw [List.count_eq_countP, List.count_eq_countP, List.countP_map, hcount, Scopes.readFaults,
    List.countP_nil, Nat.zero_add, staticViolations]

/-- Of every program that the parser gives, also of one with syntax errors, resolution reports
the static violations and nothing else. -/
theorem resolveProgram_reports (im : Importer) (limit : ErrorLimit) (tokens : List Token)
    (name : Option String) :
    ((resolveProgram (parseProgram im limit tokens name).program).diagnostics.map
        fun d => (d.code, d.token)).Perm
      ((staticViolations (parseProgram im limit tokens name).program).map
        fun (code, t) => (code, some t)) :=
  resolveProgram_perm (parseProgram_listed im limit tokens name)

end Lox
