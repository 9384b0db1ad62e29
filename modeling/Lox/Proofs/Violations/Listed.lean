import Lox.Proofs.Acceptance

/-!
# Where declarations stand

A declaration stands in a list of statements, never alone as the branch of an `if` or the
body of a loop. So are all trees of the parser, also those of a program with syntax errors,
of which nothing else is known: what could not be parsed is left out, and what is kept was
built by the same procedures.
-/

namespace Lox

section

variable {δ : Type}

mutual

/-- Declarations stand in lists only: no branch of an `if` and no body of a loop is one. -/
def Stmt.Listed : Stmt δ → Prop
  | .block body => Stmt.ListedAll body
  | .ifThen _ thenBranch => thenBranch.Listed ∧ thenBranch.declared? = none
  | .ifElse _ thenBranch elseBranch =>
    (thenBranch.Listed ∧ thenBranch.declared? = none) ∧
      elseBranch.Listed ∧ elseBranch.declared? = none
  | .whileLoop _ body => body.Listed ∧ body.declared? = none
  | .function f => f.Listed
  | .classDecl _ _ methods => FunDecl.ListedAll methods
  | _ => True

def Stmt.ListedAll : List (Stmt δ) → Prop
  | [] => True
  | s :: rest => s.Listed ∧ Stmt.ListedAll rest

def FunDecl.Listed : FunDecl δ → Prop
  | .mk _ _ body => Stmt.ListedAll body

def FunDecl.ListedAll : List (FunDecl δ) → Prop
  | [] => True
  | f :: rest => f.Listed ∧ FunDecl.ListedAll rest

end

end

theorem Stmt.listedAll_append {δ : Type} {ss ss' : List (Stmt δ)} (h : Stmt.ListedAll ss)
    (h' : Stmt.ListedAll ss') : Stmt.ListedAll (ss ++ ss') := by
  induction ss with
  | nil => exact h'
  | cons s ss ih => exact ⟨h.1, ih h.2⟩

theorem Stmt.listedAll_toList {δ : Type} {s : Option (Stmt δ)} (h : ∀ y ∈ s, y.Listed) :
    Stmt.ListedAll s.toList := by
  cases s with
  | none => exact trivial
  | some y => exact ⟨h y rfl, trivial⟩

namespace Parse

variable {α β : Type} {P : α → Prop}

/-- Every result of the step has the property. -/
def Gives (P : α → Prop) (p : Parse α) : Prop :=
  ∀ s a s', p s = .ok a s' → P a

theorem gives_pure {a : α} (h : P a) : Gives P (pure a) := by
  intro s b s' hb
  cases hb
  exact h

theorem gives_spent : Gives P spent := fun _ _ _ h => nomatch h

theorem gives_unexpected (message : String) : Gives P (unexpected message) :=
  fun _ _ _ h => nomatch h

theorem Gives.bind {Q : β → Prop} {p : Parse α} {f : α → Parse β} (hp : Gives P p)
    (hf : ∀ a, P a → Gives Q (f a)) : Gives Q (p >>= f) := by
  intro s b s' h
  obtain ⟨a, s₁, ha, hb⟩ := bind_eq_ok h
  exact hf a (hp s a s₁ ha) s₁ b s' hb

/-- Whatever the first step gives. -/
theorem gives_bind {Q : β → Prop} {p : Parse α} {f : α → Parse β} (hf : ∀ a, Gives Q (f a)) :
    Gives Q (p >>= f) :=
  Gives.bind (P := fun _ => True) (fun _ _ _ _ => trivial) fun a _ => hf a

theorem Gives.rescue {p : Parse α} (hp : Gives P p) :
    Gives (fun r => ∀ a ∈ r, P a) (rescue p) := by
  intro s r s' h
  cases hs : p s with
  | ok a s₁ =>
      simp only [Parse.rescue, hs, Step.ok.injEq] at h
      rw [← h.1]
      exact fun b hb => Option.some.inj hb ▸ hp s a s₁ hs
  | failed s₁ =>
      obtain ⟨_, s₂, heq, _⟩ := rescue_of_failed hs
      rw [heq] at h
      cases h
      intro b hb
      cases hb
  | spent s₁ => simp only [Parse.rescue, hs, reduceCtorEq] at h

/-! ## Declarations and statements -/

/-- A statement that may stand alone. -/
def Alone (y : Stmt Unit) : Prop :=
  y.Listed ∧ y.declared? = none

theorem gives_varDecl : Gives Stmt.Listed varDecl :=
  gives_bind fun _ => gives_bind fun _ => gives_bind fun _ => gives_pure trivial

theorem gives_expressionStatement : Gives Alone expressionStatement :=
  gives_bind fun _ => gives_bind fun _ => gives_pure ⟨trivial, rfl⟩

theorem gives_forInitializer : Gives (fun r => ∀ y ∈ r, y.Listed) forInitializer := by
  refine gives_bind fun semicolon => ?_
  cases semicolon with
  | some _ => exact gives_pure fun _ h => nomatch h
  | none =>
      refine gives_bind fun word => ?_
      cases word with
      | some _ =>
          exact gives_varDecl.bind fun y hy => gives_pure fun _ h => Option.some.inj h ▸ hy
      | none =>
          exact gives_expressionStatement.bind fun y hy =>
            gives_pure fun _ h => Option.some.inj h ▸ hy.1

theorem gives_forClauses : Gives (fun c => ∀ y ∈ c.initializer, y.Listed) forClauses :=
  gives_bind fun _ => gives_forInitializer.bind fun _ h => gives_bind fun _ => gives_bind fun _ =>
    gives_bind fun _ => gives_bind fun _ => gives_pure h

/-- A loop with its initializer in a block of its own. -/
theorem alone_loop {clauses : ForClauses} {body : Stmt Unit}
    (h : ∀ y ∈ clauses.initializer, y.Listed) (hbody : Alone body) :
    Alone (clauses.loop body) := by
  obtain ⟨initializer, condition, increment⟩ := clauses
  cases initializer <;> cases increment <;>
    simp_all [Alone, ForClauses.loop, Stmt.Listed, Stmt.ListedAll, Stmt.declared?]

/-- What the procedures give at some budget. -/
structure ListedAt (n : Nat) : Prop where
  declaration : Gives (fun r => ∀ y ∈ r, y.Listed) (declaration n)
  classDecl : Gives Stmt.Listed (classDecl n)
  methods : Gives FunDecl.ListedAll (methods n)
  function : ∀ what, Gives FunDecl.Listed (function n what)
  blockBody : Gives Stmt.ListedAll (blockBody n)
  declarations : Gives Stmt.ListedAll (declarations n)
  statement : Gives Alone (statement n)
  ifStatement : Gives Alone (ifStatement n)

theorem gives_declaration {n : Nat} (ih : ListedAt n) :
    Gives (fun r => ∀ y ∈ r, y.Listed) (declaration (n + 1)) := by
  refine Gives.rescue (gives_bind fun classWord => ?_)
  cases classWord with
  | some _ => exact ih.classDecl
  | none =>
      refine gives_bind fun funWord => ?_
      cases funWord with
      | some _ => exact (ih.function _).bind fun _ hf => gives_pure hf
      | none =>
          refine gives_bind fun varWord => ?_
          cases varWord with
          | some _ => exact gives_varDecl
          | none => exact fun s y s' h => (ih.statement s y s' h).1

theorem gives_methods {n : Nat} (ih : ListedAt n) :
    Gives FunDecl.ListedAll (methods (n + 1)) := by
  refine gives_bind fun brace => gives_bind fun finish => ?_
  cases brace || finish with
  | true => exact gives_pure trivial
  | false =>
      exact (ih.function _).bind fun _ hf => ih.methods.bind fun _ hrest => gives_pure ⟨hf, hrest⟩

theorem gives_declarations {n : Nat} (ih : ListedAt n) :
    Gives Stmt.ListedAll (declarations (n + 1)) := by
  refine gives_bind fun brace => gives_bind fun finish => ?_
  cases brace || finish with
  | true => exact gives_pure trivial
  | false =>
      exact ih.declaration.bind fun _ hy => ih.declarations.bind fun _ hrest =>
        gives_pure (Stmt.listedAll_append (Stmt.listedAll_toList hy) hrest)

theorem gives_statement {n : Nat} (ih : ListedAt n) : Gives Alone (statement (n + 1)) := by
  refine gives_bind fun t => ?_
  cases t.kind with
  | printWord =>
      exact gives_bind fun _ => gives_bind fun _ => gives_bind fun _ => gives_pure ⟨trivial, rfl⟩
  | leftBrace =>
      exact gives_bind fun _ => ih.blockBody.bind fun _ hbody => gives_pure ⟨hbody, rfl⟩
  | ifWord => exact gives_bind fun _ => ih.ifStatement
  | whileWord =>
      exact gives_bind fun _ => gives_bind fun _ => ih.statement.bind fun _ hbody =>
        gives_pure ⟨hbody, rfl⟩
  | forWord =>
      exact gives_bind fun _ => gives_bind fun _ => gives_forClauses.bind fun _ hclauses =>
        ih.statement.bind fun _ hbody => gives_bind fun _ => gives_pure (alone_loop hclauses hbody)
  | returnWord =>
      exact gives_bind fun _ => gives_bind fun _ => gives_bind fun _ => gives_bind fun _ =>
        gives_pure ⟨trivial, rfl⟩
  | importWord => exact gives_unexpected _
  | _ => exact gives_expressionStatement

theorem gives_ifStatement {n : Nat} (ih : ListedAt n) : Gives Alone (ifStatement (n + 1)) := by
  refine gives_bind fun _ => ih.statement.bind fun _ hthen => gives_bind fun elseWord => ?_
  cases elseWord with
  | some _ => exact ih.statement.bind fun _ helse => gives_pure ⟨⟨hthen, helse⟩, rfl⟩
  | none => exact gives_pure ⟨hthen, rfl⟩

theorem listedAt (n : Nat) : ListedAt n := by
  induction n with
  | zero =>
      exact ⟨gives_spent, gives_spent, gives_spent, fun _ => gives_spent, gives_spent, gives_spent,
        gives_spent, gives_spent⟩
  | succ n ih =>
      exact {
        declaration := gives_declaration ih
        classDecl := gives_bind fun _ => gives_bind fun _ => gives_bind fun _ =>
          ih.methods.bind fun _ hms => gives_bind fun _ => gives_pure hms
        methods := gives_methods ih
        function := fun _ => gives_bind fun _ => gives_bind fun _ => gives_bind fun _ =>
          gives_bind fun _ => gives_bind fun _ => ih.blockBody.bind fun _ hbody =>
            gives_pure hbody
        blockBody := ih.declarations.bind fun _ hbody => gives_bind fun _ => gives_pure hbody
        declarations := gives_declarations ih
        statement := gives_statement ih
        ifStatement := gives_ifStatement ih }

/-! ## Programs -/

theorem gives_topDeclaration : Gives (fun r => ∀ y ∈ r, y.Listed) topDeclaration :=
  fun s r s' h => (listedAt _).declaration s r s' h

theorem program_listed (im : Importer) (limit : ErrorLimit) (n : Nat) (seen : List AbsPath)
    {s : ParseState} (hs : s.finish.kind = .eof) :
    Stmt.ListedAll (program im limit n seen s).program := by
  induction n generalizing s seen with
  | zero => exact trivial
  | succ n ih =>
      obtain ⟨r, hround, hr⟩ := program_round im limit seen hs
      rw [hr n]
      cases hround with
      | ends | stops | unordered | halts => exact trivial
      | imports _ _ hm _ hrun => exact ih _ ((run_continues hrun).finish ▸ hm.finish ▸ hs)
      | broken _ _ hm => exact ih _ (hm.finish ▸ hs)
      | @declares _ s₁ s₂ stmt _ hm _ _ hd =>
          have hs₁ : s₁.finish.kind = .eof := hm.finish ▸ hs
          obtain ⟨_, hm₂, _⟩ := readsAt_ok hd (topDeclaration_reads s₁ hs₁)
          exact Stmt.listedAll_append (Stmt.listedAll_toList (gives_topDeclaration s₁ stmt s₂ hd))
            (ih _ (hm₂.finish ▸ hs₁))

end Parse

/-- Every program that the parser gives. -/
theorem parseProgram_listed (im : Importer) (limit : ErrorLimit) (tokens : List Token)
    (name : Option String) : Stmt.ListedAll (parseProgram im limit tokens name).program := by
  have h := Parse.program_listed im limit (im.supply tokens + 1) []
    (ofTokens_finish tokens)
  rw [parseProgram]
  split <;> exact h

end Lox
