import Lox.Proofs.Joining.Units
import Lox.Proofs.Numbering.Blocks
import Mathlib.Data.List.TakeWhile

/-!
# Sources with their functions in another order

A block of functions at the top level of a source may be written down in any order. The
new source is accepted like the old one, prints the same and ends alike, whatever the
session has done before, and also if the functions call each other: a name that is not
declared in a scope is looked up when it is used, and by then all of them are declared.
-/

namespace Lox

open Grammar Parse

namespace Grammar

/-- Does parsing find a program in tokens that end a source? -/
def parsesAsProgram (ts : List Token) : Bool :=
  let r := parseProgram ⟨⟨[], false⟩, {}⟩ (.count 1) ts
  ts.dropLast.all (fun t => t.kind ≠ .eof && t.kind ≠ .importWord) &&
    ts.getLast?.any (·.kind = .eof) && r.faults.isEmpty

/-- Does parsing find one function of the name in the tokens? -/
def parsesAsFunction (ts : List Token) (name : String) : Bool :=
  let r := parseProgram ⟨⟨[], false⟩, {}⟩ (.count 1) (ts ++ [.endOfInput 1 1])
  ts.all (fun t => t.kind ≠ .eof && t.kind ≠ .importWord) && r.faults.isEmpty &&
    match r.program with
    | [.function f] => decide (f.name.lexeme = name)
    | _ => false

theorem program_of_parse {ts : List Token} (h : parsesAsProgram ts = true) :
    Program .nearest ts (parseProgram ⟨⟨[], false⟩, {}⟩ (.count 1) ts).program := by
  simp only [parsesAsProgram, Bool.and_eq_true, List.isEmpty_iff, Option.any_eq_true,
    decide_eq_true_iff, List.all_eq_true] at h
  obtain ⟨⟨hall, eof, hlast, hk⟩, hfaults⟩ := h
  obtain ⟨us, rfl⟩ := List.getLast?_eq_some_iff.mp hlast
  rw [List.dropLast_concat] at hall
  have hfree : ImportFree (us ++ [eof]) := by
    intro t ht
    rcases List.mem_append.mp ht with ht | ht
    · exact (hall t ht).2
    · rw [List.mem_singleton.mp ht, hk]
      decide
  have hdecides := parseProgram_decides_ended ⟨⟨[], false⟩, {}⟩ (.count 1) none
    (fun t ht => (hall t ht).1) hk hfree (by decide)
  exact (hdecides.tree hfaults _).mpr rfl

theorem exists_function_of_parse {ts : List Token} {name : String}
    (h : parsesAsFunction ts name = true) :
    ∃ f : FunDecl Unit, f.name.lexeme = name ∧ Stretch ts [.function f] := by
  rw [parsesAsFunction, Bool.and_eq_true, Bool.and_eq_true] at h
  have hprogram : Program .nearest (ts ++ [.endOfInput 1 1]) _ := program_of_parse (by
    rw [parsesAsProgram, List.dropLast_concat, List.getLast?_concat]
    simp only [Bool.and_eq_true]
    exact ⟨⟨h.1.1, rfl⟩, h.1.2⟩)
  have hname := h.2
  split at hname
  · next f hf =>
      rw [hf] at hprogram
      exact ⟨f, of_decide_eq_true hname, .endOfInput 1 1, rfl, hprogram⟩
  · cases hname

/-- A block can be given by where the tokens are cut, with the name of the function that
each piece declares. -/
theorem exists_functionBlock_of_cuts {tokens before after : List Token}
    {cuts : List (List Token × String)}
    (htokens : tokens = before ++ (cuts.flatMap (·.1) ++ after))
    (hbefore : ∃ p, Stretch before p)
    (hcuts : ∀ cut ∈ cuts, ∃ f : FunDecl Unit, f.name.lexeme = cut.2 ∧ Stretch cut.1 [.function f])
    (hafter : ∃ q, Program .nearest after q) (hnames : (cuts.map (·.2)).Nodup) (hne : cuts ≠ []) :
    ∃ b : FunctionBlock tokens, ∀ cuts' : List (List Token × String), cuts'.Perm cuts →
      ∃ parts : List Part, parts.Perm b.parts ∧
        b.arranged parts = before ++ (cuts'.flatMap (·.1) ++ after) := by
  have hfunctions : Nonempty (FunDecl Unit) := ⟨.mk (.endOfInput 1 1) [] []⟩
  choose! f hf hpart using hcuts
  let part (cut : List Token × String) : Part := (cut.1, [f cut])
  have hall : ∀ cuts : List (List Token × String),
      tokensOf (cuts.map part) = cuts.flatMap (·.1) ∧ functionsOf (cuts.map part) = cuts.map f := by
    intro cuts
    rw [tokensOf, functionsOf, List.flatMap_map, List.flatMap_map]
    exact ⟨rfl, List.map_eq_flatMap.symm⟩
  refine ⟨⟨before, cuts.map part, after, by rw [(hall cuts).1, htokens], hbefore, ?_, hafter, ?_,
    ?_⟩, fun cuts' hperm => ⟨cuts'.map part, hperm.map part, ?_⟩⟩
  · intro p hp
    obtain ⟨cut, hcut, rfl⟩ := List.mem_map.mp hp
    exact hpart cut hcut
  · rw [(hall cuts).2, List.map_map]
    have hsame : cuts.map ((fun f : FunDecl Unit => f.name.lexeme) ∘ f) = cuts.map (·.2) :=
      List.map_congr_left hf
    rwa [hsame]
  · rw [(hall cuts).2]
    exact fun h => hne (List.map_eq_nil_iff.mp h)
  · rw [FunctionBlock.arranged, (hall cuts').1]

end Grammar

/-! ## Programs without declarations -/

/-- Semicolons alone make the empty program. -/
theorem Grammar.Program.eq_nil_of_semicolons {rule : ElseRule} {ts : List Token}
    {p : List (Stmt Unit)} (h : Program rule ts p)
    (hts : ∀ t ∈ ts, t.kind = .semicolon ∨ t.kind = .eof) : p = [] := by
  induction h with
  | finish _ => rfl
  | semicolon _ _ ih => exact ih fun t ht => hts t (List.mem_cons_of_mem _ ht)
  | @declaration _ vs us _ _ hs _ _ =>
      have hbegin := hs.begins.headKind us
      have hhead : headKind (vs ++ us) = .semicolon ∨ headKind (vs ++ us) = .eof := by
        cases hall : vs ++ us with
        | nil => exact .inr rfl
        | cons t rest => exact hts t (hall ▸ List.mem_cons_self)
      rcases hhead with hhead | hhead
      all_goals
        rw [hhead] at hbegin
        exact absurd hbegin (by decide)

/-- With a limit that nothing can be compared with, a source without declarations may be
accepted, and no other. -/
theorem accepted?_unordered {im : Importer} {limit : ErrorLimit} {name : Option String}
    {source : String} {program : List (Stmt Slot)} (hlimit : limit.reachedBy 0 = none)
    (h : (UnitReading.ofSource im limit name false source).accepted? = some program) :
    ∀ t ∈ (scan source.toList).tokens, t.kind = .semicolon ∨ t.kind = .eof := by
  obtain ⟨ts, eof, htokens, hk, hlex⟩ := scan_tokens source.toList
  obtain ⟨hahead, _⟩ := ofTokens_ended (fun t ht => (hlex t ht).ne_eof) hk
  rw [← htokens] at hahead
  have hhalt : (parseProgram im limit (scan source.toList).tokens name).halt = none := by
    rw [UnitReading.accepted?] at h
    split at h
    · next hclean =>
        rw [Bool.and_eq_true, Option.isNone_iff_eq_none] at hclean
        have hnone := hclean.2
        simp only [UnitReading.ofSource, UnitReading.ofTokens, Bool.false_eq_true, if_false]
          at hnone
        cases hparsed : (parseProgram im limit (scan source.toList).tokens name).halt with
        | none => rfl
        | some halt =>
            rw [hparsed] at hnone
            cases hnone
    · cases h
  cases hleft : (skipSemicolons (ParseState.ofTokens (scan source.toList).tokens)).ahead with
  | cons t rest =>
      have hprogram : (Parse.program im limit (im.supply (scan source.toList).tokens + 1) []
          (ParseState.ofTokens (scan source.toList).tokens)).halt = some .unorderedLimit := by
        rw [Parse.program]
        dsimp only
        rw [hleft]
        have hfaults : (skipSemicolons
          (ParseState.ofTokens (scan source.toList).tokens)).faults.length = 0 := rfl
        simp only [hfaults, hlimit]
      rw [parseProgram] at hhalt
      simp only [hprogram] at hhalt
      cases hhalt
  | nil =>
      intro t ht
      rw [htokens] at ht
      rcases List.mem_append.mp ht with ht | ht
      · rw [skipSemicolons, hahead] at hleft
        have hall := List.dropWhile_eq_nil_iff.mp hleft t ht
        exact .inl (by simpa using hall)
      · exact .inr (List.mem_singleton.mp ht ▸ hk)

/-- The source with the parts of a block in another order reads as the program with its
functions in that order, with other positions. -/
theorem readsAs_arranged {source source' : String} {p q : List (Stmt Unit)}
    (hfree : ImportFree (scan source.toList).tokens)
    (b : FunctionBlock (scan source.toList).tokens) {parts : List Part}
    (hperm : parts.Perm b.parts) (hp : Stretch b.before p) (hq : Program .nearest b.after q)
    (hread : ReadsAs source.toList (p ++ ((functionsOf b.parts).map .function ++ q)))
    (hsource : HasTokens source' (b.arranged parts)) :
    ImportFree (scan source'.toList).tokens ∧
      ∃ f, KeepsTexts f ∧ ReadsAs source'.toList (Stmt.mapAll f (fun _ => id) 0
        (p ++ ((functionsOf parts).map .function ++ q))) := by
  obtain ⟨f, hkinds, htexts, htokens⟩ := hsource.exists_map (b.arranged_perm hperm)
  refine ⟨?_, f, htexts, hsource.scanned, ?_, ?_⟩
  · rw [htokens]
    intro t ht
    obtain ⟨u, hu, rfl⟩ := List.mem_map.mp ht
    exact (hkinds u).1 ▸ hfree u ((b.arranged_perm hperm).mem_iff.mp hu)
  · rw [htokens]
    exact (b.arranged_program hperm hp hq).map hkinds
  · have hfunctions : (functionsOf parts).Perm (functionsOf b.parts) := hperm.flatMap_right _
    rw [Stmt.scopeFaultsAll_map htexts, Stmt.scopeFaultsAll_perm hfunctions hread.resolved]
    rfl

namespace Session

variable {s : Session} {source source' : String} {name name' : Option String}

/-- Programs whose functions have another order do the same, wherever their tokens
stand. -/
theorem run_arranged (hs : s.machine.Numbered) {before after : List (Stmt Slot)}
    {fs fs' : List (FunDecl Slot)} (hperm : fs.Perm fs') (hnames : (fs.map (·.name.lexeme)).Nodup)
    {f : Token → Token} (hf : KeepsTexts f)
    (h : (UnitReading.ofSource s.importer s.settings.errorLimit name false source).accepted? =
      some (before ++ (fs.map .function ++ after)))
    (h' : (UnitReading.ofSource s.importer s.settings.errorLimit name' false
      source').accepted? =
        some (Stmt.mapAll f (fun _ => id) 0 (before ++ (fs'.map .function ++ after)))) :
    (s.run source name).1.outcome.Alike (s.run source' name').1.outcome ∧
      (s.run source name).1.printed = (s.run source' name').1.printed := by
  obtain ⟨houtcome, hprinted, _⟩ := s.run_accepted h
  obtain ⟨houtcome', hprinted', _⟩ := s.run_accepted h'
  have hself : (relocation #[]).MachineRel () s.machine.fresh s.machine.fresh :=
    Relocation.machineRel_frames s.machine.fresh rfl fun _ _ => rfl
  obtain ⟨halike, houtput⟩ :=
    (execUnit_perm hperm hnames before after stepBudget hs.fresh).trans
      (execUnit_relocated stepBudget hself rfl
        (Relocation.stmtsRel_map hf 0 (before ++ (fs'.map .function ++ after))))
  rw [houtcome, houtcome', hprinted, hprinted']
  exact ⟨halike, congrArg Array.toList houtput⟩

/-- The source with the parts of a block in another order is accepted, and does the
same. -/
theorem arranged_agrees (hs : s.machine.Numbered)
    (hfree : ImportFree (scan source.toList).tokens) {program : List (Stmt Slot)}
    (haccepted : (UnitReading.ofSource s.importer s.settings.errorLimit name false
      source).accepted? = some program)
    (b : FunctionBlock (scan source.toList).tokens) {parts : List Part}
    (hperm : parts.Perm b.parts) (hsource : HasTokens source' (b.arranged parts)) :
    (∃ program', (UnitReading.ofSource s.importer s.settings.errorLimit name' false
        source').accepted? = some program') ∧
      (s.run source name).1.outcome.Alike (s.run source' name').1.outcome ∧
      (s.run source name).1.printed = (s.run source' name').1.printed := by
  obtain ⟨p, hp⟩ := b.leads
  obtain ⟨q, hq⟩ := b.follows
  have hprogram := b.arranged_program (.refl _) hp hq
  rw [FunctionBlock.arranged, ← b.tokens_eq] at hprogram
  cases hreached : s.settings.errorLimit.reachedBy 0 with
  | none =>
      have hempty := hprogram.eq_nil_of_semicolons (accepted?_unordered hreached haccepted)
      have hfunctions := (List.append_eq_nil_iff.mp (List.append_eq_nil_iff.mp hempty).2).1
      exact absurd (List.map_eq_nil_iff.mp hfunctions) b.nonempty
  | some reached =>
      cases reached with
      | true =>
          -- Nothing is read, in whatever order.
          obtain ⟨_, rfl⟩ := (accepted?_stopped _ _ name hreached).mp haccepted
          have haccepted' := (accepted?_stopped s.importer _ name' hreached).mpr
            ⟨hsource.scanned, rfl⟩
          obtain ⟨houtcome, hprinted, _⟩ := s.run_accepted haccepted
          obtain ⟨houtcome', hprinted', _⟩ := s.run_accepted haccepted'
          rw [houtcome, houtcome', hprinted, hprinted']
          exact ⟨⟨_, haccepted'⟩, UnitEnd.outcome_alike _, rfl⟩
      | false =>
          obtain ⟨r, hread, rfl⟩ := (accepted?_eq_some _ _ name hfree hreached).mp haccepted
          obtain rfl := program_unique hfree hread.parsed hprogram
          obtain ⟨hfree', f, htexts, hread'⟩ :=
            readsAs_arranged hfree b hperm hp hq hread hsource
          have haccepted' := (accepted?_eq_some s.importer _ name' hfree' hreached).mpr
            ⟨_, hread', rfl⟩
          refine ⟨⟨_, haccepted'⟩, ?_⟩
          rw [Stmt.resolveAll_append, Stmt.resolveAll_append, Stmt.resolveAll_functions]
            at haccepted
          rw [Stmt.resolveAll_map htexts, Stmt.resolveAll_append, Stmt.resolveAll_append,
            Stmt.resolveAll_functions] at haccepted'
          have hfunctions : (functionsOf b.parts).Perm (functionsOf parts) :=
            hperm.symm.flatMap_right _
          refine run_arranged hs (hfunctions.map _) ?_ htexts haccepted haccepted'
          have hnames : (fun f : FunDecl Slot => f.name.lexeme) ∘ FunDecl.resolve .none [] =
              fun f => f.name.lexeme := funext fun f => by cases f; rfl
          rw [List.map_map, hnames]
          exact b.distinct

variable {settings : Settings} {files : Files} {base : AbsPath} {readings : Nat → Float}
  {log : List LogEntry} {s₀ : Session}

/-- The order of functions does not matter. Whatever a session has done since its start, take
a source that it accepts, and functions with different names that are declared one after the
other at the top level: they make a block, with a part of the tokens for each of them. The
parts can be written down in any order, and then the source is accepted too, prints the
same, and ends alike. -/
theorem function_order_agrees (hstart : Session.start settings files base readings = (log, .ok s₀))
    {steps : List SessionStep} (hsteps : (s₀.performAll steps).2 = s) (source : String)
    (name : Option String) (hfree : ImportFree (scan source.toList).tokens)
    {program : List (Stmt Slot)}
    (haccepted : (UnitReading.ofSource s.importer s.settings.errorLimit name false
      source).accepted? = some program) :
    (∀ p fs q, Program .nearest (scan source.toList).tokens (p ++ (fs.map .function ++ q)) →
      fs ≠ [] → (fs.map (·.name.lexeme)).Nodup →
      ∃ b : FunctionBlock (scan source.toList).tokens, b.parts.map (·.2) = fs.map ([·])) ∧
    ∀ (b : FunctionBlock (scan source.toList).tokens) (parts : List Part), parts.Perm b.parts →
      (∃ source', HasTokens source' (b.arranged parts)) ∧
      ∀ source' name', HasTokens source' (b.arranged parts) →
        (∃ program', (UnitReading.ofSource s.importer s.settings.errorLimit name' false
            source').accepted? = some program') ∧
          (s.run source name).1.outcome.Alike (s.run source' name').1.outcome ∧
          (s.run source name).1.printed = (s.run source' name').1.printed := by
  have hs : s.machine.Numbered := hsteps ▸ performAll_numbered (start_numbered hstart) steps
  refine ⟨fun p fs q h hfs hnames => h.exists_functionBlock hfs hnames, fun b parts hperm => ?_⟩
  refine ⟨?_, fun source' name' hsource => arranged_agrees hs hfree haccepted b hperm hsource⟩
  obtain ⟨q, hq⟩ := b.follows
  obtain ⟨ts, eof, hafter, hk⟩ := hq.ends
  have harranged := b.arranged_perm hperm
  rw [FunctionBlock.arranged, hafter, ← List.append_assoc, ← List.append_assoc] at harranged
  obtain ⟨source', hsource⟩ := exists_hasTokens harranged hk
  refine ⟨source', ?_⟩
  rwa [FunctionBlock.arranged, hafter, ← List.append_assoc, ← List.append_assoc]

/-- Functions that call each other and are compared, in the opposite order, after one of them
was declared in an earlier unit. -/
theorem function_order_agrees_mutual :
    let ping := "fun ping(a, b) \x7b print a; if (a) pong(b, nil); \x7d "
    let pong := "fun pong(a, b) \x7b print b; if (a) ping(a, b); \x7d "
    let same := "fun same() \x7b return ping == pong; \x7d "
    let rest := "print same(); ping(true, true); pong();"
    let s := ((bare { prelude := .bool false } {} ⟨[], false⟩ (fun _ => 0)).performAll
      [.run pong none false]).2
    let source := ping ++ pong ++ same ++ rest
    let source' := same ++ pong ++ ping ++ rest
    (∃ program', (UnitReading.ofSource s.importer s.settings.errorLimit none false
        source').accepted? = some program') ∧
      (s.run source none).1.outcome.Alike (s.run source' none).1.outcome ∧
      (s.run source none).1.printed = (s.run source' none).1.printed := by
  intro ping pong same rest s source source'
  have hstart : start { prelude := .bool false } {} ⟨[], false⟩ (fun _ => 0) =
      ([.note (installedNote NativeTable.standard)],
        .ok (bare { prelude := .bool false } {} ⟨[], false⟩ (fun _ => 0))) := rfl
  let tokens := (scan source.toList).tokens
  let cuts := [(tokens.take 23, "ping"), ((tokens.drop 23).take 23, "pong"),
    ((tokens.drop 46).take 11, "same")]
  -- all that has to be computed of the two sources, at once
  have hcomputed : (tokens.all (·.kind ≠ .importWord) &&
      (UnitReading.ofSource s.importer s.settings.errorLimit none false source).accepted?.isSome &&
      cuts.all (fun cut => parsesAsFunction cut.1 cut.2) && parsesAsProgram (tokens.drop 57) &&
      (scan source'.toList).faults.isEmpty &&
      (scan source'.toList).tokens.map Token.written ==
        (cuts.reverse.flatMap (·.1) ++ tokens.drop 57).map Token.written) = true := by
    decide +kernel
  simp only [Bool.and_eq_true, List.all_eq_true, List.isEmpty_iff, beq_iff_eq,
    decide_eq_true_iff] at hcomputed
  obtain ⟨⟨⟨⟨⟨hfree, haccepted⟩, hfunctions⟩, hafter⟩, hfaults⟩, hwritten⟩ := hcomputed
  obtain ⟨program, hprogram⟩ := Option.isSome_iff_exists.mp haccepted
  have htokens : tokens = [] ++ (cuts.flatMap (·.1) ++ tokens.drop 57) := by
    have hcut (n k : Nat) : tokens.drop n = (tokens.drop n).take k ++ tokens.drop (n + k) := by
      rw [← List.drop_drop, List.take_append_drop]
    rw [List.nil_append, List.flatMap_cons, List.flatMap_cons, List.flatMap_cons,
      List.flatMap_nil, List.append_nil, List.append_assoc, List.append_assoc, ← hcut 46 11,
      ← hcut 23 23, List.take_append_drop]
  have hcuts : ∀ cut ∈ cuts, ∃ f : FunDecl Unit, f.name.lexeme = cut.2 ∧
      Stretch cut.1 [.function f] :=
    fun cut hcut => exists_function_of_parse (hfunctions cut hcut)
  obtain ⟨b, hb⟩ := exists_functionBlock_of_cuts htokens ⟨[], .endOfInput 1 1, rfl, .finish rfl⟩
    hcuts ⟨_, program_of_parse hafter⟩ (by decide) (List.cons_ne_nil _ _)
  obtain ⟨parts, hparts, harranged⟩ := hb cuts.reverse cuts.reverse_perm
  have hagrees := (function_order_agrees hstart (rfl : _ = s) source none hfree
    hprogram).2 b parts hparts
  refine hagrees.2 source' none ?_
  rw [harranged, List.nil_append]
  exact ⟨hfaults, hwritten⟩

end Session
end Lox
