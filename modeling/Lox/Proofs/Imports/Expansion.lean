import Lox.Proofs.Imports.Progress

/-!
# A program with imports is a program without them

Replace every import in a list of tokens by the tokens of its file the first time its path is
met, and by nothing on every later meeting. What was put in is read in the same way before what
follows it. If a parse finds nothing wrong, its program is that of the tokens without imports
that come out, and the files it imported are those whose tokens were put in.
-/

namespace Lox

open ParseState Parse Grammar

/-- From tokens to tokens without imports, and from the paths met before to those met then. -/
inductive Expands (im : Importer) :
    List AbsPath → List Token → List Token → List AbsPath → Prop
  | nil {seen : List AbsPath} : Expands im seen [] [] seen
  | token {seen seen' : List AbsPath} {t : Token} {ts out : List Token} :
      t.kind ≠ .importWord → Expands im seen ts out seen' →
      Expands im seen (t :: ts) (t :: out) seen'
  | again {seen seen' : List AbsPath} {word path semicolon : Token} {name : String}
      {ts out : List Token} :
      ImportWords word path semicolon → path.literal = .text name →
      im.base.follow name ∈ seen → Expands im seen ts out seen' →
      Expands im seen (word :: path :: semicolon :: ts) out seen'
  | first {seen seen' : List AbsPath} {word path semicolon : Token} {name : String}
      {us ts out : List Token} :
      ImportWords word path semicolon → path.literal = .text name →
      im.base.follow name ∉ seen → im.tokens? (im.base.follow name) = some us →
      Expands im (seen ++ [im.base.follow name]) (us ++ ts) out seen' →
      Expands im seen (word :: path :: semicolon :: ts) out seen'

namespace Expands

variable {im : Importer} {seen seen' seen'' : List AbsPath} {ts us out out' : List Token}

/-- There is one way to expand a list of tokens. -/
theorem unique (h : Expands im seen ts out seen') (h' : Expands im seen ts out' seen'') :
    out' = out ∧ seen'' = seen' := by
  induction h generalizing out' seen'' with
  | nil =>
      cases h'
      exact ⟨rfl, rfl⟩
  | token hk _ ih =>
      cases h' with
      | token _ h' =>
          obtain ⟨rfl, rfl⟩ := ih h'
          exact ⟨rfl, rfl⟩
      | again hwords | first hwords => exact absurd hwords.word hk
  | again hwords hname hseen _ ih =>
      cases h' with
      | token hk => exact absurd hwords.word hk
      | again _ hname' _ h' => exact ih h'
      | first _ hname' hseen' =>
          rw [hname, Constant.text.injEq] at hname'
          exact absurd (hname' ▸ hseen) hseen'
  | first hwords hname hseen htokens _ ih =>
      cases h' with
      | token hk => exact absurd hwords.word hk
      | again _ hname' hseen' =>
          rw [hname, Constant.text.injEq] at hname'
          exact absurd (hname' ▸ hseen') hseen
      | first _ hname' _ htokens' h' =>
          rw [hname, Constant.text.injEq] at hname'
          subst hname'
          rw [htokens, Option.some.injEq] at htokens'
          subst htokens'
          exact ih h'

theorem importFree (h : Expands im seen ts out seen') : ImportFree out := by
  induction h with
  | nil => exact fun t ht => nomatch ht
  | token hk _ ih => exact List.forall_mem_cons.mpr ⟨hk, ih⟩
  | again _ _ _ _ ih | first _ _ _ _ _ ih => exact ih

/-- Tokens that ask for no import stay as they are. -/
theorem append (hts : ImportFree ts) (h : Expands im seen us out seen') :
    Expands im seen (ts ++ us) (ts ++ out) seen' := by
  induction ts with
  | nil => exact h
  | cons t ts ih =>
      exact .token (hts t List.mem_cons_self) (ih fun u hu => hts u (List.mem_cons_of_mem t hu))

theorem ne_eof (h : Expands im seen ts out seen') (hts : ∀ t ∈ ts, t.kind ≠ .eof) :
    ∀ t ∈ out, t.kind ≠ .eof := by
  induction h with
  | nil => exact hts
  | token _ _ ih =>
      obtain ⟨ht, hts⟩ := List.forall_mem_cons.mp hts
      exact List.forall_mem_cons.mpr ⟨ht, ih hts⟩
  | again _ _ _ _ ih => exact ih fun t ht => hts t (by simp [ht])
  | first _ _ _ htokens _ ih =>
      exact ih (List.forall_mem_append.mpr
        ⟨Importer.tokens?_ne_eof htokens, fun t ht => hts t (by simp [ht])⟩)

end Expands

/-! ## No import stands inside a declaration -/

@[simp]
theorem importFree_nil : ImportFree [] :=
  fun _ h => nomatch h

@[simp]
theorem importFree_cons {t : Token} {ts : List Token} :
    ImportFree (t :: ts) ↔ t.kind ≠ .importWord ∧ ImportFree ts :=
  List.forall_mem_cons

@[simp]
theorem importFree_append {ts us : List Token} :
    ImportFree (ts ++ us) ↔ ImportFree ts ∧ ImportFree us :=
  List.forall_mem_append

namespace Grammar

theorem ne_import_of_operators {level : Chain} {kind : TokenKind}
    (h : level.operators kind = true) : kind ≠ .importWord := by
  rintro rfl
  cases level <;> cases h

mutual

theorem Assignment.importFree {ts : List Token} {e : Expr Unit} (h : Assignment ts e) :
    ImportFree ts := by
  match h with
  | .var hn he hv => simp [hn, he, hv.importFree]
  | .property ho hd hn he hv => simp [ho.importFree, hd, hn, he, hv.importFree]
  | .level h => exact h.importFree

theorem Level.importFree {level : Chain} {ts : List Token} {e : Expr Unit}
    (h : Level level ts e) : ImportFree ts := by
  match h with
  | .operand h => exact h.importFree
  | .step hl ho hr => simp [hl.importFree, ne_import_of_operators ho, hr.importFree]

theorem Operand.importFree {level : Chain} {ts : List Token} {e : Expr Unit}
    (h : Operand level ts e) : ImportFree ts := by
  match h with
  | .or h => exact h.importFree
  | .and h => exact h.importFree
  | .equality h => exact h.importFree
  | .comparison h => exact h.importFree
  | .term h => exact h.importFree
  | .factor h => exact h.importFree

theorem Conditional.importFree {ts : List Token} {e : Expr Unit} (h : Conditional ts e) :
    ImportFree ts := by
  match h with
  | .plain h => exact h.importFree
  | .choice hc hq ha hk hb => simp [hc.importFree, hq, ha.importFree, hk, hb.importFree]

theorem Unary.importFree {ts : List Token} {e : Expr Unit} (h : Unary ts e) : ImportFree ts := by
  match h with
  | .operator (.inl ho) h => simp [ho, h.importFree]
  | .operator (.inr ho) h => simp [ho, h.importFree]
  | .call h => exact h.importFree

theorem Call.importFree {ts : List Token} {e : Expr Unit} (h : Call ts e) : ImportFree ts := by
  match h with
  | .primary h => exact h.importFree
  | .call hc hb ha hk => simp [hc.importFree, hb, ha.importFree, hk]
  | .property ho hd hn => simp [ho.importFree, hd, hn]

theorem Arguments.importFree {ts : List Token} {es : List (Expr Unit)} (h : Arguments ts es) :
    ImportFree ts := by
  match h with
  | .none => exact importFree_nil
  | .some h _ => exact h.importFree

theorem Items.importFree {ts : List Token} {es : List (Expr Unit)} (h : Items ts es) :
    ImportFree ts := by
  match h with
  | .last h => exact h.importFree
  | .more h hk hrest => simp [h.importFree, hk, hrest.importFree]

theorem Primary.importFree {ts : List Token} {e : Expr Unit} (h : Primary ts e) :
    ImportFree ts := by
  match h with
  | .number hk | .string hk | .true hk | .false hk | .nil hk | .this hk | .identifier hk =>
      simp [hk]
  | .grouping hb h hk => simp [hb, h.importFree, hk]
  | .super hw hd hm => simp [hw, hd, hm]
  | .vector hb h hk => simp [hb, h.importFree, hk]

end

theorem Names.importFree {ts names : List Token} (h : Names ts names) : ImportFree ts := by
  induction h with
  | last hn => simp [hn]
  | more hn hk _ ih => simp [hn, hk, ih]

theorem Params.importFree {ts names : List Token} (h : Params ts names) : ImportFree ts := by
  cases h with
  | none => exact importFree_nil
  | some h _ => exact h.importFree

theorem Optional.importFree {ts : List Token} {e : Option (Expr Unit)} (h : Optional ts e) :
    ImportFree ts := by
  cases h with
  | none => exact importFree_nil
  | some h => exact h.importFree

theorem VarDecl.importFree {ts : List Token} {s : Stmt Unit} (h : VarDecl ts s) :
    ImportFree ts := by
  cases h with
  | plain hw hn hk => simp [hw, hn, hk]
  | initialized hw hn he h hk => simp [hw, hn, he, h.importFree, hk]

theorem ExpressionStatement.importFree {ts : List Token} {s : Stmt Unit}
    (h : ExpressionStatement ts s) : ImportFree ts := by
  cases h with
  | mk h hk => simp [h.importFree, hk]

theorem ForInitializer.importFree {ts : List Token} {s : Option (Stmt Unit)}
    (h : ForInitializer ts s) : ImportFree ts := by
  cases h with
  | none hk => simp [hk]
  | var h => exact h.importFree
  | expression h => exact h.importFree

theorem Superclass.importFree {ts : List Token} {r : Option (Reference Unit)}
    (h : Superclass ts r) : ImportFree ts := by
  cases h with
  | none => exact importFree_nil
  | some hl hn => simp [hl, hn]

variable {rule : ElseRule}

mutual

theorem Declaration.importFree {isOpen : Bool} {ts : List Token} {s : Stmt Unit}
    (h : Declaration rule isOpen ts s) : ImportFree ts := by
  match h with
  | .classDecl hw hn hp hb hms hk => simp [hw, hn, hp.importFree, hb, hms.importFree, hk]
  | .function hw hf => simp [hw, hf.importFree]
  | .var h => exact h.importFree
  | .statement h => exact h.importFree

theorem Function.importFree {ts : List Token} {f : FunDecl Unit} (h : Function rule ts f) :
    ImportFree ts := by
  match h with
  | .mk hn hb hp hk hbody => simp [hn, hb, hp.importFree, hk, hbody.importFree]

theorem Functions.importFree {ts : List Token} {fs : List (FunDecl Unit)}
    (h : Functions rule ts fs) : ImportFree ts := by
  match h with
  | .nil => exact importFree_nil
  | .cons hf hfs => simp [hf.importFree, hfs.importFree]

theorem Block.importFree {ts : List Token} {body : List (Stmt Unit)} (h : Block rule ts body) :
    ImportFree ts := by
  match h with
  | .mk hb h hk => simp [hb, h.importFree, hk]

theorem Declarations.importFree {ts : List Token} {body : List (Stmt Unit)}
    (h : Declarations rule ts body) : ImportFree ts := by
  match h with
  | .nil => exact importFree_nil
  | .cons h hs => simp [h.importFree, hs.importFree]

theorem Statement.importFree {isOpen : Bool} {ts : List Token} {s : Stmt Unit}
    (h : Statement rule isOpen ts s) : ImportFree ts := by
  match h with
  | .expression h => exact h.importFree
  | .print hw he hk => simp [hw, he.importFree, hk]
  | .ret hw hv hk => simp [hw, hv.importFree, hk]
  | .block h => exact h.importFree
  | .whileLoop hw hb hc hk h => simp [hw, hb, hc.importFree, hk, h.importFree]
  | .forLoop hw hb hi hc hsemi hinc hk h =>
      simp [hw, hb, hi.importFree, hc.importFree, hsemi, hinc.importFree, hk, h.importFree]
  | .ifThen hw hb hc hk h => simp [hw, hb, hc.importFree, hk, h.importFree]
  | .ifElse hw hb hc hk hthen _ ho helse =>
      simp [hw, hb, hc.importFree, hk, hthen.importFree, ho, helse.importFree]

end

end Grammar

/-! ## Parsing the expansion -/

/-- An import that left no fault was skipped, or its file was put in. -/
theorem Importer.Outcome.expands {path word semicolon : Token} {name : String} {s₁ s₂ : ParseState}
    {seen seen₂ paths : List AbsPath} {out : List Token} {im : Importer}
    (h : im.Outcome path (im.base.follow name) seen s₁ (.ok (s₂, seen₂)))
    (hwords : ImportWords word path semicolon) (hname : path.literal = .text name)
    (hclean : s₂.faults = []) (hout : Expands im seen₂ s₂.ahead out paths) :
    Expands im seen (word :: path :: semicolon :: s₁.ahead) out paths := by
  cases h with
  | skipped hseen hm _ =>
      rw [← List.nil_append s₂.ahead, ← hm.ahead] at hout
      exact .again hwords hname hseen hout
  | spliced hseen htokens hm _ =>
      rw [← List.nil_append s₂.ahead, ← hm.ahead] at hout
      exact .first hwords hname hseen htokens hout
  | failed _ _ _ _ hreasons hfaults =>
      rw [hclean] at hfaults
      exact absurd (List.map_eq_nil_iff.mp (List.append_eq_nil_iff.mp hfaults.symm).2) hreasons

namespace Parse

variable {im : Importer} {limit : ErrorLimit} {seen : List AbsPath} {s : ParseState}

/-- What a parse without a fault has done: it has read the expansion of its tokens. -/
structure ReadsExpansion (im : Importer) (seen : List AbsPath) (s : ParseState) (eof : Token)
    (r : ParseResult) (out : List Token) : Prop where
  expands : Expands im seen s.ahead out r.imported
  derives : Program .nearest (out ++ [eof]) r.program

theorem importFree_semicolons {ts : List Token} (h : ∀ t ∈ ts, t.kind = .semicolon) :
    ImportFree ts := fun t ht => by simp [h t ht]

theorem program_expands (hlimit : limit.reachedBy 0 = some false) {eof : Token}
    (heof : eof.kind = .eof) (n : Nat) (hs : s.finish.kind = .eof)
    (hhalt : (program im limit n seen s).halt = none)
    (hfaults : (program im limit n seen s).state.faults = []) :
    ∃ out, ReadsExpansion im seen s eof (program im limit n seen s) out := by
  induction n generalizing seen s with
  | zero => cases hhalt
  | succ n ih =>
      obtain ⟨r, hround, hr⟩ := program_round im limit seen hs
      rw [hr n] at hhalt hfaults ⊢
      -- The end without a fault is one of every round before.
      have hclean : ∀ {seen₂ s₂}, s₂.finish.kind = .eof →
          (program im limit n seen₂ s₂).state.faults = [] → s₂.faults = [] :=
        fun hs₂ h => List.prefix_nil.mp (h ▸ program_faults im limit n _ hs₂)
      cases hround with
      | unordered | halts => cases hhalt
      | @ends ts s₁ hsemi hm hend =>
          refine ⟨ts, ?_, Program.semicolons hsemi (.finish heof)⟩
          have hexpands : Expands im seen (ts ++ []) (ts ++ []) seen :=
            Expands.append (importFree_semicolons hsemi) .nil
          rw [List.append_nil] at hexpands
          rwa [hm.ahead, hend, List.append_nil]
      | stops _ _ hreached =>
          simp only at hfaults
          rw [hfaults, List.length_nil, hlimit] at hreached
          cases hreached
      | broken _ _ hm hlt =>
          rw [hclean (hm.finish ▸ hs) hfaults] at hlt
          exact absurd hlt (Nat.not_lt_zero _)
      | @imports ts word path semicolon s₁ s₂ seen₂ hsemi hwords hm hf hrun =>
          obtain ⟨name, hname, houtcome⟩ := Importer.run_eq_ok hrun
          have hfinish : s₂.finish = s.finish := houtcome.kept.1.trans hm.finish
          obtain ⟨out, hexpands, hderives⟩ := ih (hfinish ▸ hs) hhalt hfaults
          refine ⟨ts ++ out, ?_, ?_⟩
          · rw [hm.ahead, List.append_assoc]
            exact Expands.append (importFree_semicolons hsemi)
              (houtcome.expands hwords hname (hclean (hfinish ▸ hs) hfaults) hexpands)
          · rw [List.append_assoc]
            exact Program.semicolons hsemi hderives
      | @declares ts s₁ s₂ stmt hsemi hm _ hf hd =>
          have hs₁ : s₁.finish.kind = .eof := hm.finish ▸ hs
          obtain ⟨us, hm₂, _, hderive⟩ := readsAt_ok hd (topDeclaration_reads s₁ hs₁)
          have hs₂ : s₂.finish.kind = .eof := hm₂.finish ▸ hs₁
          have hc₂ := hclean hs₂ hfaults
          obtain ⟨stmt, rfl, isOpen, hstmt, _⟩ := hderive (hc₂.trans (hm₂.faults_nil hc₂).symm)
          obtain ⟨out, hexpands, hderives⟩ := ih hs₂ hhalt hfaults
          refine ⟨ts ++ (us ++ out), ?_, ?_⟩
          · rw [hm.ahead, hm₂.ahead]
            exact Expands.append (importFree_semicolons hsemi)
              (Expands.append hstmt.importFree hexpands)
          · rw [List.append_assoc, List.append_assoc]
            exact Program.semicolons hsemi (.declaration hstmt hderives)

end Parse

/-- A parse that finds nothing wrong reads the one expansion of its tokens: its program is that
of the tokens without imports that come out, and the files that it imported are those whose
tokens were put in, in that order. -/
theorem parseProgram_expands (im : Importer) (limit : ErrorLimit) (tokens : List Token)
    (name : Option String) (hlimit : limit.reachedBy 0 = some false)
    (hhalt : (parseProgram im limit tokens name).halt = none)
    (hfaults : (parseProgram im limit tokens name).faults = []) :
    ∃ out,
      (∀ out' paths, Expands im [] (tokens.takeWhile (·.kind != .eof)) out' paths ↔
        out' = out ∧ paths = (parseProgram im limit tokens name).imported) ∧
      ImportFree out ∧
      ∀ eof : Token, eof.kind = .eof →
        (parseProgram im limit (out ++ [eof]) name).halt = none ∧
        (parseProgram im limit (out ++ [eof]) name).faults = [] ∧
        (parseProgram im limit (out ++ [eof]) name).program =
          (parseProgram im limit tokens name).program := by
  obtain ⟨_, _, hsame⟩ := parseProgram_state im limit tokens name
  generalize hr : program im limit (im.supply tokens + 1) [] (ofTokens tokens) = r at hsame
  have hhalt' : r.halt = none := hsame.symm.trans hhalt
  obtain ⟨_, hprogram, hfaults', _⟩ := parseProgram_of_halt_none name hr hhalt'
  have himported : (parseProgram im limit tokens name).imported = r.imported := by
    simp only [parseProgram, hr, hhalt']
  rw [hfaults'] at hfaults
  have hreads : ∀ eof : Token, eof.kind = .eof →
      ∃ out, ReadsExpansion im [] (ofTokens tokens) eof r out := fun eof hk => by
    subst hr
    exact program_expands hlimit hk _ (ofTokens_finish tokens) hhalt' hfaults
  obtain ⟨out, hexpands, _⟩ := hreads _ (ofTokens_finish tokens)
  refine ⟨out, fun out' paths => ⟨fun h => ?_, ?_⟩, hexpands.importFree, fun eof hk => ?_⟩
  · rw [himported]
    exact hexpands.unique h
  · rintro ⟨rfl, rfl⟩
    rw [himported]
    exact hexpands
  · obtain ⟨out', hexpands', hderives⟩ := hreads eof hk
    obtain ⟨rfl, _⟩ := hexpands.unique hexpands'
    have hfree : ImportFree (out' ++ [eof]) := by simp [hexpands.importFree, hk]
    have hdecides := parseProgram_decides_ended im limit name
      (hexpands.ne_eof (ended_ofTokens tokens).ahead) hk hfree hlimit
    have hclean := hdecides.accepts.mpr ⟨_, hderives.free⟩
    rw [hprogram]
    exact ⟨hdecides.ends, hclean, ((hdecides.tree hclean _).mp hderives).symm⟩

/-- Two files that import each other and themselves, one of them reached twice. -/
theorem parseProgram_expands_mutual :
    let im : Importer := ⟨⟨["d"], false⟩, { contents :=
      [(["d", "a"], "print \"a\"; import \"b\"; import \"a\";".toList.map Char.toUInt8),
        (["d", "b"], "import \"../d/a\"; ; print \"b\";".toList.map Char.toUInt8)] }⟩
    let tokens := (scan "import \"a\"; print \"c\"; import \"./b\";".toList).tokens
    (ErrorLimit.count 20).reachedBy 0 = some false ∧
      (parseProgram im (.count 20) tokens).halt = none ∧
      (parseProgram im (.count 20) tokens).faults = [] ∧
      ∃ out,
        (∀ out' paths, Expands im [] (tokens.takeWhile (·.kind != .eof)) out' paths ↔
          out' = out ∧ paths = (parseProgram im (.count 20) tokens).imported) ∧
        ImportFree out ∧
        ∀ eof : Token, eof.kind = .eof →
          (parseProgram im (.count 20) (out ++ [eof])).halt = none ∧
          (parseProgram im (.count 20) (out ++ [eof])).faults = [] ∧
          (parseProgram im (.count 20) (out ++ [eof])).program =
            (parseProgram im (.count 20) tokens).program := by
  intro im tokens
  have hlimit : (ErrorLimit.count 20).reachedBy 0 = some false := by decide
  have hhalt : (parseProgram im (.count 20) tokens).halt = none :=
    Option.isNone_iff_eq_none.mp (by decide +kernel)
  have hfaults : (parseProgram im (.count 20) tokens).faults = [] :=
    List.isEmpty_iff.mp (by decide +kernel)
  exact ⟨hlimit, hhalt, hfaults, parseProgram_expands im _ tokens none hlimit hhalt hfaults⟩

end Lox
