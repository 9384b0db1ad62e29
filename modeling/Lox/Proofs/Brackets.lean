import Lox.Proofs.Typed.Closings
import Mathlib.Data.List.TakeWhile

/-!
# Brackets

Reading a program from left to right, every bracket that closes is of the kind of the last one
that was opened and is still open, and at the end none is. The grammar says so, since it has
the two brackets of a pair in one rule. So a unit that was read as a whole does not ask for
another line.
-/

namespace Lox

/-- What a token does to the brackets that are still to be closed, the innermost first. -/
def TokenKind.bracket (kind : TokenKind) (due : List TokenKind) : Option (List TokenKind) :=
  match kind with
  | .leftParen => some (.rightParen :: due)
  | .leftBrace => some (.rightBrace :: due)
  | .leftBracket => some (.rightBracket :: due)
  | .rightParen | .rightBrace | .rightBracket =>
      if due.head? = some kind then some due.tail else none
  | _ => some due

/-- What some tokens do to them, if each one that closes is due. -/
def bracketing (due : List TokenKind) : List Token → Option (List TokenKind)
  | [] => some due
  | t :: ts => (t.kind.bracket due).bind (bracketing · ts)

/-- The brackets are closed each by its like, in the order in which that has to be done. -/
def Nested (ts : List Token) : Prop :=
  bracketing [] ts = some []

instance (ts : List Token) : Decidable (Nested ts) :=
  inferInstanceAs (Decidable (bracketing [] ts = some []))

section

variable {due due' : List TokenKind} {ts us : List Token}

@[simp]
theorem bracketing_nil : bracketing due [] = some due :=
  rfl

@[simp]
theorem bracketing_cons {t : Token} :
    bracketing due (t :: ts) = (t.kind.bracket due).bind (bracketing · ts) :=
  rfl

@[simp]
theorem bracketing_append :
    bracketing due (ts ++ us) = (bracketing due ts).bind (bracketing · us) := by
  induction ts generalizing due with
  | nil => rfl
  | cons t ts ih =>
      rw [List.cons_append, bracketing_cons, bracketing_cons, Option.bind_assoc]
      exact congrArg _ (funext fun _ => ih)

theorem TokenKind.bracket_count {kind : TokenKind} (h : kind.bracket due = some due') :
    due'.length + (if kind.closes then 1 else 0) = due.length + (if kind.opens then 1 else 0) := by
  cases kind
  case rightParen | rightBrace | rightBracket =>
    cases due with
    | nil => cases h
    | cons top rest =>
        simp only [bracket] at h
        split at h <;> cases h
        rfl
  all_goals
    cases h
    rfl

/-- Every bracket that is still to be closed has been opened. -/
theorem bracketing_count (h : bracketing due ts = .some due') :
    due'.length + ts.countP (·.kind.closes) = due.length + ts.countP (·.kind.opens) := by
  induction ts generalizing due with
  | nil =>
      cases h
      rfl
  | cons t ts ih =>
      obtain ⟨due₁, ht, hts⟩ := Option.bind_eq_some_iff.mp h
      have hstep := TokenKind.bracket_count ht
      have hrest := ih hts
      rw [List.countP_cons, List.countP_cons]
      omega

theorem Nested.count_eq (h : Nested ts) :
    ts.countP (·.kind.opens) = ts.countP (·.kind.closes) := by
  simpa using (bracketing_count h).symm

end

/-- The depth that a text ends at. -/
theorem depth_eq (ts : List Token) (depth : Int) :
    ts.foldl (fun (depth : Int) t =>
      if t.kind.opens then depth + 1 else if t.kind.closes then depth - 1 else depth) depth =
      depth + ts.countP (·.kind.opens) - ts.countP (·.kind.closes) := by
  induction ts generalizing depth with
  | nil => simp
  | cons t ts ih =>
      have hone : ¬ (t.kind.opens = true ∧ t.kind.closes = true) := by
        cases t.kind <;> decide
      rw [List.foldl_cons, ih, List.countP_cons, List.countP_cons]
      cases ho : t.kind.opens <;> cases hc : t.kind.closes
      case true.true => exact absurd ⟨ho, hc⟩ hone
      all_goals
        simp
        try omega

theorem needsMore_eq (source : List Char) :
    needsMore source = decide ((scan source).tokens.countP (·.kind.closes) <
      (scan source).tokens.countP (·.kind.opens)) := by
  simp only [needsMore, depth_eq, decide_eq_decide]
  omega

/-! ## The grammar -/

namespace Grammar

theorem bracket_of_operators {level : Chain} {kind : TokenKind}
    (h : level.operators kind = true) (due : List TokenKind) : kind.bracket due = some due := by
  cases level <;> cases kind <;> first | rfl | cases h

mutual

theorem Assignment.bracketing {ts : List Token} {e : Expr Unit} (h : Assignment ts e)
    (due : List TokenKind) : bracketing due ts = .some due := by
  match h with
  | .var hn he hv => simp [hn, he, hv.bracketing, TokenKind.bracket]
  | .property ho hd hn he hv =>
      simp [ho.bracketing, hd, hn, he, hv.bracketing, TokenKind.bracket]
  | .level h => exact h.bracketing due

theorem Level.bracketing {level : Chain} {ts : List Token} {e : Expr Unit}
    (h : Level level ts e) (due : List TokenKind) : bracketing due ts = .some due := by
  match h with
  | .operand h => exact h.bracketing due
  | .step hl ho hr => simp [hl.bracketing, bracket_of_operators ho, hr.bracketing]

theorem Operand.bracketing {level : Chain} {ts : List Token} {e : Expr Unit}
    (h : Operand level ts e) (due : List TokenKind) : bracketing due ts = .some due := by
  match h with
  | .or h => exact h.bracketing due
  | .and h => exact h.bracketing due
  | .equality h => exact h.bracketing due
  | .comparison h => exact h.bracketing due
  | .term h => exact h.bracketing due
  | .factor h => exact h.bracketing due

theorem Conditional.bracketing {ts : List Token} {e : Expr Unit} (h : Conditional ts e)
    (due : List TokenKind) : bracketing due ts = .some due := by
  match h with
  | .plain h => exact h.bracketing due
  | .choice hc hq ha hk hb =>
      simp [hc.bracketing, hq, ha.bracketing, hk, hb.bracketing, TokenKind.bracket]

theorem Unary.bracketing {ts : List Token} {e : Expr Unit} (h : Unary ts e)
    (due : List TokenKind) : bracketing due ts = .some due := by
  match h with
  | .operator (.inl ho) h => simp [ho, h.bracketing, TokenKind.bracket]
  | .operator (.inr ho) h => simp [ho, h.bracketing, TokenKind.bracket]
  | .call h => exact h.bracketing due

theorem Call.bracketing {ts : List Token} {e : Expr Unit} (h : Call ts e)
    (due : List TokenKind) : bracketing due ts = .some due := by
  match h with
  | .primary h => exact h.bracketing due
  | .call hc hb ha hk => simp [hc.bracketing, hb, ha.bracketing, hk, TokenKind.bracket]
  | .property ho hd hn => simp [ho.bracketing, hd, hn, TokenKind.bracket]

theorem Arguments.bracketing {ts : List Token} {es : List (Expr Unit)} (h : Arguments ts es)
    (due : List TokenKind) : bracketing due ts = .some due := by
  match h with
  | .none => rfl
  | .some h _ => exact h.bracketing due

theorem Items.bracketing {ts : List Token} {es : List (Expr Unit)} (h : Items ts es)
    (due : List TokenKind) : bracketing due ts = .some due := by
  match h with
  | .last h => exact h.bracketing due
  | .more h hk hrest => simp [h.bracketing, hk, hrest.bracketing, TokenKind.bracket]

theorem Primary.bracketing {ts : List Token} {e : Expr Unit} (h : Primary ts e)
    (due : List TokenKind) : bracketing due ts = .some due := by
  match h with
  | .number hk | .string hk | .true hk | .false hk | .nil hk | .this hk | .identifier hk =>
      simp [hk, TokenKind.bracket]
  | .grouping hb h hk => simp [hb, h.bracketing, hk, TokenKind.bracket]
  | .super hw hd hm => simp [hw, hd, hm, TokenKind.bracket]
  | .vector hb h hk => simp [hb, h.bracketing, hk, TokenKind.bracket]

end

section

variable {due : List TokenKind} {ts : List Token}

theorem Names.bracketing {names : List Token} (h : Names ts names) :
    bracketing due ts = .some due := by
  induction h with
  | last hn => simp [hn, TokenKind.bracket]
  | more hn hk _ ih => simp [hn, hk, ih, TokenKind.bracket]

theorem Params.bracketing {names : List Token} (h : Params ts names) :
    bracketing due ts = .some due := by
  cases h with
  | none => rfl
  | some h _ => exact h.bracketing

theorem Optional.bracketing {e : Option (Expr Unit)} (h : Optional ts e) :
    bracketing due ts = .some due := by
  cases h with
  | none => rfl
  | some h => exact h.bracketing due

theorem VarDecl.bracketing {s : Stmt Unit} (h : VarDecl ts s) : bracketing due ts = .some due := by
  cases h with
  | plain hw hn hk => simp [hw, hn, hk, TokenKind.bracket]
  | initialized hw hn he h hk => simp [hw, hn, he, h.bracketing, hk, TokenKind.bracket]

theorem ExpressionStatement.bracketing {s : Stmt Unit} (h : ExpressionStatement ts s) :
    bracketing due ts = .some due := by
  cases h with
  | mk h hk => simp [h.bracketing, hk, TokenKind.bracket]

theorem ForInitializer.bracketing {s : Option (Stmt Unit)} (h : ForInitializer ts s) :
    bracketing due ts = .some due := by
  cases h with
  | none hk => simp [hk, TokenKind.bracket]
  | var h => exact h.bracketing
  | expression h => exact h.bracketing

theorem Superclass.bracketing {r : Option (Reference Unit)} (h : Superclass ts r) :
    bracketing due ts = .some due := by
  cases h with
  | none => rfl
  | some hl hn => simp [hl, hn, TokenKind.bracket]

end

variable {rule : ElseRule}

mutual

theorem Declaration.bracketing {isOpen : Bool} {ts : List Token} {s : Stmt Unit}
    (h : Declaration rule isOpen ts s) (due : List TokenKind) :
    bracketing due ts = .some due := by
  match h with
  | .classDecl hw hn hp hb hms hk =>
      simp [hw, hn, hp.bracketing, hb, hms.bracketing, hk, TokenKind.bracket]
  | .function hw hf => simp [hw, hf.bracketing, TokenKind.bracket]
  | .var h => exact h.bracketing
  | .statement h => exact h.bracketing due

theorem Function.bracketing {ts : List Token} {f : FunDecl Unit} (h : Function rule ts f)
    (due : List TokenKind) : bracketing due ts = .some due := by
  match h with
  | .mk hn hb hp hk hbody =>
      simp [hn, hb, hp.bracketing, hk, hbody.bracketing, TokenKind.bracket]

theorem Functions.bracketing {ts : List Token} {fs : List (FunDecl Unit)}
    (h : Functions rule ts fs) (due : List TokenKind) : bracketing due ts = .some due := by
  match h with
  | .nil => rfl
  | .cons hf hfs => simp [hf.bracketing, hfs.bracketing]

theorem Block.bracketing {ts : List Token} {body : List (Stmt Unit)} (h : Block rule ts body)
    (due : List TokenKind) : bracketing due ts = .some due := by
  match h with
  | .mk hb h hk => simp [hb, h.bracketing, hk, TokenKind.bracket]

theorem Declarations.bracketing {ts : List Token} {body : List (Stmt Unit)}
    (h : Declarations rule ts body) (due : List TokenKind) : bracketing due ts = .some due := by
  match h with
  | .nil => rfl
  | .cons h hs => simp [h.bracketing, hs.bracketing]

theorem Statement.bracketing {isOpen : Bool} {ts : List Token} {s : Stmt Unit}
    (h : Statement rule isOpen ts s) (due : List TokenKind) : bracketing due ts = .some due := by
  match h with
  | .expression h => exact h.bracketing
  | .print hw he hk => simp [hw, he.bracketing, hk, TokenKind.bracket]
  | .ret hw hv hk => simp [hw, hv.bracketing, hk, TokenKind.bracket]
  | .block h => exact h.bracketing due
  | .whileLoop hw hb hc hk h =>
      simp [hw, hb, hc.bracketing, hk, h.bracketing, TokenKind.bracket]
  | .forLoop hw hb hi hc hsemi hinc hk h =>
      simp [hw, hb, hi.bracketing, hc.bracketing, hsemi, hinc.bracketing, hk, h.bracketing,
        TokenKind.bracket]
  | .ifThen hw hb hc hk h =>
      simp [hw, hb, hc.bracketing, hk, h.bracketing, TokenKind.bracket]
  | .ifElse hw hb hc hk hthen _ ho helse =>
      simp [hw, hb, hc.bracketing, hk, hthen.bracketing, ho, helse.bracketing, TokenKind.bracket]

end

theorem Program.nested {ts : List Token} {p : List (Stmt Unit)} (h : Program rule ts p) :
    Nested ts := by
  unfold Nested
  induction h with
  | finish hk => simp [hk, TokenKind.bracket]
  | semicolon hk _ ih => simp [hk, ih, TokenKind.bracket]
  | declaration h _ ih => simp [h.bracketing, ih]

end Grammar

/-! ## Units -/

open Grammar ParseState Parse

theorem bracketing_semicolons {due : List TokenKind} {ts : List Token}
    (h : ∀ t ∈ ts, t.kind = .semicolon) : bracketing due ts = some due := by
  induction ts with
  | nil => rfl
  | cons t ts ih =>
      obtain ⟨ht, hts⟩ := List.forall_mem_cons.mp h
      simp [ht, ih hts, TokenKind.bracket]

section

variable {im : Importer} {limit : ErrorLimit} {name : Option String} {ts : List Token} {eof : Token}

/-- Under a limit that lets no fault through, a parse that reads all reads semicolons. -/
theorem semicolons_of_unread (hlimit : limit.reachedBy 0 ≠ some false)
    (hts : ∀ t ∈ ts, t.kind ≠ .eof) (hk : eof.kind = .eof)
    (hahead : (parseProgram im limit (ts ++ [eof]) name).state.ahead = []) :
    ∀ t ∈ ts, t.kind = .semicolon := by
  obtain ⟨_, hstate, _⟩ := parseProgram_state im limit (ts ++ [eof]) name
  obtain ⟨_, hunread, _⟩ := program_unread im limit hlimit (im.supply (ts ++ [eof]))
    (rfl : (ofTokens (ts ++ [eof])).faults = [])
  rw [hstate, hunread] at hahead
  have hdrop : ts.dropWhile (·.kind == .semicolon) = [] := by
    rw [← (ofTokens_ended hts hk).1]
    exact hahead
  simpa using List.dropWhile_eq_nil_iff.mp hdrop

/-- The brackets of tokens are nested if a parse that finds no fault reads them all. -/
theorem nested_of_parse (hts : ∀ t ∈ ts, t.kind ≠ .eof) (hk : eof.kind = .eof)
    (hfree : ImportFree ts)
    (hfaults : (parseProgram im limit (ts ++ [eof]) name).faults = [])
    (hall : limit.reachedBy 0 = some false ∨
      (parseProgram im limit (ts ++ [eof]) name).state.ahead = []) :
    Nested (ts ++ [eof]) := by
  by_cases hlimit : limit.reachedBy 0 = some false
  · have hdecides := parseProgram_decides_ended im limit name hts hk
      (importFree_append.mpr ⟨hfree, by simp [hk]⟩) hlimit
    exact ((hdecides.tree hfaults _).mpr rfl).nested
  · have hsemicolons := semicolons_of_unread hlimit hts hk (hall.resolve_left hlimit)
    simp [Nested, bracketing_semicolons hsemicolons, hk, TokenKind.bracket]

end

/-- The brackets of a source without imports are nested if its tokens, or those and a supplied
semicolon, are parsed without a fault. Then as many are opened as are closed, and no more input
is asked for. The limit has to let a fault through, or the parse to have read all the same. -/
theorem parseProgram_nests (im : Importer) (limit : ErrorLimit) (name : Option String)
    (typed : Bool) (source : String) (hfree : ImportFree (scan source.toList).tokens)
    (hfaults : (parseProgram im limit (unitTokens typed source) name).faults = [])
    (hall : limit.reachedBy 0 = some false ∨
      (parseProgram im limit (unitTokens typed source) name).state.ahead = []) :
    Nested (scan source.toList).tokens ∧
      (scan source.toList).tokens.countP (·.kind.opens) =
        (scan source.toList).tokens.countP (·.kind.closes) ∧
      needsMore source.toList = false := by
  obtain ⟨ts, eof, htokens, hk, hlex⟩ := scan_tokens source.toList
  obtain ⟨us, hus, hunit⟩ := unitTokens_eq typed htokens
  rw [hunit] at hfaults hall
  rw [htokens, importFree_append] at hfree
  have hended : ∀ t ∈ ts ++ us, t.kind ≠ .eof := List.forall_mem_append.mpr
    ⟨fun t ht => (hlex t ht).ne_eof, fun t ht => by simp [hus t ht]⟩
  have hnested : Nested (ts ++ us ++ [eof]) := nested_of_parse hended hk
    (importFree_append.mpr ⟨hfree.1, importFree_semicolons hus⟩) hfaults hall
  have hown : Nested (scan source.toList).tokens := by
    have hsupplied : ∀ due, bracketing due us = some due := fun _ => bracketing_semicolons hus
    simpa [Nested, htokens, hsupplied] using hnested
  have hcount := hown.count_eq
  exact ⟨hown, hcount, by simp [needsMore_eq, hcount]⟩

/-- A class with a method and a call with a vector, typed in without the last semicolon. -/
theorem parseProgram_nests_class :
    let source := "class A { f(x) { return [x, (1)]; } } A().f([2])"
    ImportFree (scan source.toList).tokens ∧
      (parseProgram ⟨⟨[], false⟩, {}⟩ (.count 20) (unitTokens true source) none).faults = [] ∧
      (ErrorLimit.count 20).reachedBy 0 = some false ∧
      Nested (scan source.toList).tokens ∧ needsMore source.toList = false := by
  intro source
  have hfree : ImportFree (scan source.toList).tokens := by
    unfold ImportFree
    decide +kernel
  have hfaults : (parseProgram ⟨⟨[], false⟩, {}⟩ (.count 20) (unitTokens true source)
      none).faults = [] := List.isEmpty_iff.mp (by decide +kernel)
  obtain ⟨hnested, _, hmore⟩ := parseProgram_nests ⟨⟨[], false⟩, {}⟩ (.count 20) none true source
    hfree hfaults (.inl (by decide))
  exact ⟨hfree, hfaults, by decide, hnested, hmore⟩

end Lox
