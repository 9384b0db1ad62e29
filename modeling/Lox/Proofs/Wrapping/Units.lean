import Lox.Proofs.Completion
import Lox.Proofs.FreshSessions
import Lox.Proofs.Joining.Reading
import Lox.Proofs.Joining.Units
import Lox.Proofs.Natives.Reports
import Lox.Proofs.Wrapping.Resolving

/-!
# A program and its block

A source of declarations, with no empty statements between them, can be put into braces
and is then read as one block.

A program does the same in a session of its own whether it stands in braces or not: what
it declares is found by name among the globals in one run, and by distance in the frame
of the block in the other.
-/

namespace Lox

/-! ## Reading a source in braces -/

section

open Grammar Parse Piece

/-- The source is a list of declarations. Empty statements are none. -/
def DeclarationsOnly (source : List Char) : Prop :=
  ∃ p, Declarations .nearest (scan source).tokens.dropLast p

/-- Parsing up to a closing brace finds out. -/
theorem declarationsOnly_of_parse {source : List Char} (n : Nat)
    (h : (match declarations n (ParseState.ofTokens (scan source).tokens) with
      | .ok _ s => s.ahead.isEmpty && s.faults.isEmpty
      | _ => false) = true) : DeclarationsOnly source := by
  obtain ⟨ts, eof, htokens, hk, hlex⟩ := scan_tokens source
  obtain ⟨hahead, hfinish⟩ := ofTokens_ended (fun t ht => (hlex t ht).ne_eof) hk
  rw [← htokens] at hahead hfinish
  have hread := (statementReads n).declarations (ParseState.ofTokens (scan source).tokens)
    (hfinish ▸ hk)
  split at h
  · next body s hp =>
      rw [Bool.and_eq_true, List.isEmpty_iff, List.isEmpty_iff] at h
      obtain ⟨us, hm, _, hderive⟩ := readsAt_ok hp hread
      have hall := hm.ahead
      rw [h.1, List.append_nil, hahead] at hall
      refine ⟨body, ?_⟩
      rw [htokens, List.dropLast_concat, hall]
      exact hderive h.2
  · cases h

theorem Declarations.program {rule : ElseRule} {ts : List Token} {p : List (Stmt Unit)}
    (h : Declarations rule ts p) {eof : Token} (hk : eof.kind = .eof) :
    Program rule (ts ++ [eof]) p := by
  cases h with
  | nil => exact .finish hk
  | cons hd hds =>
      rw [List.append_assoc]
      exact .declaration hd (Declarations.program hds hk)

/-- There is one tree for the tokens of a source. -/
theorem program_unique {source : List Char} (hfree : ImportFree (scan source).tokens)
    {p q : List (Stmt Unit)} (hp : Program .nearest (scan source).tokens p)
    (hq : Program .nearest (scan source).tokens q) : p = q := by
  obtain ⟨ts, eof, htokens, hk, hlex⟩ := scan_tokens source
  rw [htokens] at hfree hp hq
  have hdecides := parseProgram_decides_ended ⟨⟨[], false⟩, {}⟩ (.count 1) none
    (fun t ht => (hlex t ht).ne_eof) hk hfree (by decide)
  have hclean := hdecides.accepts.mpr ⟨p, hp.free⟩
  exact ((hdecides.tree hclean p).mp hp).trans ((hdecides.tree hclean q).mp hq).symm

variable {source : List Char}

theorem pieces_enclosed (h : (scan source).faults = []) :
    pieces ('\x7b' :: (source ++ ['\n', '\x7d'])) = ⟨.lexeme .leftBrace, ['\x7b']⟩ ::
      (pieces source ++ [⟨.blank, ['\n']⟩, ⟨.lexeme .rightBrace, ['\x7d']⟩]) := by
  obtain ⟨htiled, htext⟩ := pieces_eq_iff.mp (rfl : pieces source = _)
  have hopen : ∀ piece ∈ pieces source, piece.isOpen = false :=
    fun piece hpiece => isOpen_of_fault? (scan_faults_eq_nil.mp h piece hpiece)
  have hsame : List.Forall₂ Replaces (pieces source) (pieces source) :=
    List.forall₂_same.mpr fun _ _ => .inl rfl
  have hclose : Tiled [⟨.blank, ['\n']⟩, ⟨.lexeme .rightBrace, ['\x7d']⟩] :=
    ⟨⟨'\n', [], rfl, rfl⟩, ⟨'\x7d', [], rfl, rfl⟩, trivial⟩
  refine pieces_eq_iff.mpr ⟨⟨⟨'\x7b', [], rfl, rfl⟩,
    tiled_replaces hsame htiled hopen (.finish _) hclose⟩, ?_⟩
  rw [textOf_cons, textOf_append, htext]
  rfl

/-- The tokens of a source in braces. -/
theorem scan_enclosed (h : (scan source).faults = []) :
    ∃ g first last eof, first.kind = .leftBrace ∧ last.kind = .rightBrace ∧ eof.kind = .eof ∧
      (scan ('\x7b' :: (source ++ ['\n', '\x7d']))).tokens =
        first :: (scan source).tokens.dropLast.map (Token.moved g) ++ [last, eof] := by
  let g : Position → Position := fun p => if p.line = 1 then ⟨1, p.column + 1⟩ else p
  have hg : Position.Shift g := Position.shift_column
  have hstart : Position.after {} ['\x7b'] = g {} := rfl
  rw [scan_tokens_eq, scan_tokens_eq, pieces_enclosed h, tokensFrom_cons, hstart,
    tokensFrom_append, tokensFrom_moved hg (Nat.le_refl 1), List.dropLast_concat]
  exact ⟨g, _, _, _, rfl, rfl, rfl, by simp [tokensFrom_cons, token?]; exact ⟨rfl, rfl, rfl⟩⟩

theorem scan_enclosed_faults (h : (scan source).faults = []) :
    (scan ('\x7b' :: (source ++ ['\n', '\x7d']))).faults = [] := by
  rw [scan_faults_eq_nil, pieces_enclosed h]
  have hpieces := scan_faults_eq_nil.mp h
  simp only [List.forall_mem_cons, List.forall_mem_append]
  exact ⟨rfl, hpieces, rfl, rfl, fun _ hmem => absurd hmem List.not_mem_nil⟩

theorem importFree_enclosed (hscanned : (scan source).faults = [])
    (h : ImportFree (scan source).tokens) :
    ImportFree (scan ('\x7b' :: (source ++ ['\n', '\x7d']))).tokens := by
  obtain ⟨g, first, last, eof, hfirst, hlast, heof, htokens⟩ := scan_enclosed hscanned
  rw [htokens]
  intro t ht
  simp only [List.mem_cons, List.mem_append, List.mem_map, List.not_mem_nil, or_false] at ht
  rcases ht with (rfl | ⟨u, hu, rfl⟩) | rfl | rfl
  · simp [hfirst]
  · exact h u (List.dropLast_subset _ hu)
  · simp [hlast]
  · simp [heof]

namespace Wrapping

/-- The scope of a block before anything is declared in it. -/
theorem keeps_nil : Keeps [] { label := "block" } :=
  ⟨fun n => by simp [Scope.isDeclared, Bindings.contains], fun n => by simp [Scope.isDefined]⟩

/-- In braces the program is read as a block, in which its tokens are elsewhere. -/
theorem readsAs_enclosed {names : List String} {p : List (Stmt Unit)}
    (hfree : ImportFree (scan source).tokens) (hread : ReadsAs source p)
    (hdeclarations : DeclarationsOnly source) (harranged : Arranged names [] p) :
    ∃ f, KeepsTexts f ∧ ReadsAs ('\x7b' :: (source ++ ['\n', '\x7d']))
      [.block (Stmt.mapAll f (fun _ => id) 1 p)] := by
  obtain ⟨q, hq⟩ := hdeclarations
  obtain ⟨ts, eof, htokens, hk, _⟩ := scan_tokens source
  have hprogram := Declarations.program hq hk
  rw [htokens, List.dropLast_concat, ← htokens] at hprogram
  obtain rfl := program_unique hfree hread.parsed hprogram
  obtain ⟨g, first, last, eof', hfirst, hlast, heof, htokens'⟩ := scan_enclosed hread.scanned
  refine ⟨Token.moved g, Token.moved_keepsTexts g, scan_enclosed_faults hread.scanned, ?_, ?_⟩
  · have hblock := Block.mk hfirst (hq.map (Token.moved_keepsKinds g) 1) hlast
    have hall := Program.declaration (.statement (.block hblock)) (.finish heof)
    rw [htokens']
    simpa using hall
  · have hinner := harranged.scopeFaults keeps_nil
    rw [Stmt.scopeFaultsAll, Stmt.scopeFaults, Scopes.block,
      Stmt.scopeFaultsAll_map (Token.moved_keepsTexts g), hinner]
    rfl

end Wrapping

end

/-! ## Names and braces -/

open Grammar Parse

/-- The names that a session begins with, its prelude included. -/
def predefinedNames : List String :=
  ["clock", "type", "vec", "pow"]

/-- The source in braces, the last one on a line of its own. -/
def inBraces (source : String) : String :=
  "\x7b" ++ source ++ "\n\x7d"

theorem toList_inBraces (source : String) :
    (inBraces source).toList = '\x7b' :: (source.toList ++ ['\n', '\x7d']) := by
  simp [inBraces, String.toList_append]

namespace Wrapping

variable {names : List String}

/-! ## The start -/

theorem globals_names : NativeTable.standard.globals.map (·.1) = ["clock", "type", "vec"] := by
  decide

/-- Only native functions are bound before anything has run. -/
theorem find?_globalFrame {n : String} (h : n ∉ predefinedNames) :
    (Machine.globalFrame NativeTable.standard).bindings.find? n = none := by
  rw [Option.eq_none_iff_forall_ne_some]
  intro v hv
  have hmem := List.mem_map_of_mem (f := (·.1)) (Machine.mem_globals hv)
  rw [globals_names] at hmem
  exact h (List.mem_append_left ["pow"] hmem)

theorem store_start (hnames : ∀ n ∈ names, n ∉ predefinedNames) {V : ValueRelation}
    (hV : ∀ n, Option.Rel V ((Machine.globalFrame NativeTable.standard).bindings.find? n)
      ((Machine.globalFrame NativeTable.standard).bindings.find? n)) :
    Store names ⟨1, none, []⟩ V #[Machine.globalFrame NativeTable.standard]
      #[Machine.globalFrame NativeTable.standard] where
  relates := by
    intro k n
    have hplace : (placement names none).place k n = (k, n) := by
      simp only [placement]
      split
      · next hk => rw [hk.1]; rfl
      · rfl
    rw [hplace]
    cases k with
    | zero => exact hV n
    | succ k => exact .none
  size := rfl
  size' := rfl
  global := Nat.one_pos
  opened _ h := by cases h
  unopened _ n hn := find?_globalFrame (hnames n hn)
  bound _ h := by cases h

/-- The prelude declares and uses one function, its own. -/
theorem prelude_names :
    (topLevelNames preludeProgram ++
      Stmt.globalsAll (Stmt.resolveAll .none [] preludeProgram)).all (· = "pow") = true := by
  decide +kernel

/-- Before the block is opened, a fresh session is related to itself. -/
theorem start_related {settings : Settings} {files : Files} {base : AbsPath}
    {readings : Nat → Float} {log : List LogEntry} {s : Session}
    (h : Session.start settings files base readings = (log, .ok s))
    (hlimit : settings.errorLimit.reachedBy 0 ≠ none)
    (hnames : ∀ n ∈ names, n ∉ predefinedNames) (hthis : thisName ∉ names)
    (hsuper : superName ∉ names) :
    s.machine.env = globalEnv ∧
      ∃ w : World, w.block = none ∧ (wrapping names).MachineRel w s.machine s.machine := by
  have hprelude : ∀ n ∈ topLevelNames preludeProgram ++
      Stmt.globalsAll (Stmt.resolveAll .none [] preludeProgram), n ∉ names := by
    intro n hn hmem
    have hpow := List.all_eq_true.mp prelude_names n hn
    rw [decide_eq_true_iff] at hpow
    refine hnames n hmem ?_
    rw [hpow]
    decide
  have hstart : (wrapping names).MachineRel ⟨1, none, []⟩
      (Machine.start NativeTable.standard readings) (Machine.start NativeTable.standard readings) :=
    Comparison.start_self ⟨_, rfl⟩ readings rfl
      (store_start hnames fun n => Comparison.globalFrame_self ⟨_, rfl⟩ n)
  have henv : (wrapping names).Env ⟨1, none, []⟩ ⟨0, none⟩ globalEnv globalEnv :=
    .mk (E := []) rfl (fun _ hk => by cases hk) .outside
  obtain ⟨hdeclared, hused⟩ := List.forall_mem_append.mp hprelude
  have hrelated := stmtsRel_outside hthis hsuper readsAs_prelude.wellFormed
    readsAs_prelude.resolved hdeclared hused
  obtain ⟨henv', w, _, hm⟩ := Session.start_related h hlimit rfl hstart henv hrelated
  refine ⟨henv', w, ?_, hm⟩
  -- With a block there would be one more frame in the second run.
  cases hblock : w.block with
  | none => rfl
  | some b =>
      have hsize := hm.frames.size.symm.trans hm.frames.size'
      rw [hblock, shift, if_neg (Nat.not_lt.mpr (hm.frames.opened b hblock).2)] at hsize
      exact absurd hsize (Nat.ne_of_lt (Nat.lt_succ_self _))

/-! ## Programs -/

variable {w : World} {m : Machine}

/-- Before and after the brace the machines are related. -/
theorem machineRel_inBlock (henv : m.env = globalEnv) (hm : (wrapping names).MachineRel w m m)
    (hblock : w.block = none) :
    (wrapping names).MachineRel { w with block := some w.size } m m.inBlock ∧
      (wrapping names).Env { w with block := some w.size } ⟨0, some []⟩ m.env m.inBlock.env := by
  have hlater : (wrapping names).Later w { w with block := some w.size } := by
    refine ⟨Nat.le_refl _, fun b hb => ?_, fun b _ hb => ?_, fun n hn => hn⟩
    · rw [hblock] at hb
      cases hb
    · cases hb
      exact Nat.le_refl _
  constructor
  · have hstore := (hm.frames.imp (Comparison.extends_later hlater)).openBlock hblock "block"
    rw [← henv] at hstore
    exact (hm.later hlater hstore).at_env m.env _
  · rw [Machine.inBlock, Frames.env_enter, hm.frames.size, henv]
    exact .mk (E := []) rfl (fun _ hk => by cases hk) (.inside rfl fun _ hn => by cases hn)

theorem finish_block (n : Nat) {body : List (Stmt Slot)} (h : Stmt.returnsAny body = false)
    (m : Machine) :
    let enclosed := (Eval.execUnit (n + 2) [.block body] m).finish
    let inside := (Eval.execUnit n body m.inBlock).finish
    enclosed.1 = inside.1 ∧ enclosed.2.output = inside.2.output := by
  rw [execUnit_block n h]
  exact Result.finish_within m.inBlock.env _ _

/-- A program does the same in a block, which takes two steps of the budget. -/
theorem interpretWith_block (n : Nat) {ss body : List (Stmt Slot)} (henv : m.env = globalEnv)
    (hm : (wrapping names).MachineRel w m m) (hblock : w.block = none)
    (hrelated : (wrapping names).StmtsRel ⟨0, some []⟩ ss body)
    (hreturns : Stmt.returnsAny body = false) :
    (m.interpretWith n ss).1.outcome.Alike (m.interpretWith (n + 2) [.block body]).1.outcome ∧
      (m.interpretWith (n + 2) [.block body]).2.output = (m.interpretWith n ss).2.output := by
  obtain ⟨hend, houtput⟩ := finish_block n hreturns m.fresh
  obtain ⟨hmachine, he⟩ := machineRel_inBlock (m := m.fresh) henv (hm.fresh rfl) hblock
  obtain ⟨halike, _, _, _, _, hlast⟩ := Comparison.execUnit_finish n hmachine he hrelated
  rw [Machine.interpretWith_eq, Machine.interpretWith_eq, houtput, hend]
  exact ⟨halike, hlast.output.trans Array.empty_append⟩

end Wrapping

theorem topLevelNames_resolveAll (c : ClassKind) (s : Scopes) (ys : List (Stmt Unit)) :
    topLevelNames (Stmt.resolveAll c s ys) = topLevelNames ys := by
  induction ys generalizing s with
  | nil => rfl
  | cons y ys ih =>
      rw [Stmt.resolveAll, topLevelNames_cons, topLevelNames_cons, Stmt.declared?_resolve, ih]

/-- No keyword is declared. -/
theorem ne_keyword_of_topLevelNames {ys : List (Stmt Unit)} (h : Stmt.WellFormedAll ys) :
    ∀ n ∈ topLevelNames ys, n ≠ thisName ∧ n ≠ superName := by
  induction ys with
  | nil => exact fun _ hn => absurd hn List.not_mem_nil
  | cons y ys ih =>
      rw [topLevelNames_cons, List.forall_mem_append]
      refine ⟨fun n hn => ?_, ih h.2⟩
      obtain ⟨t, ht, rfl⟩ := Option.map_eq_some_iff.mp (Option.mem_toList.mp hn)
      have hname := h.1.declared _ ht
      exact ⟨hname.ne_this, hname.ne_super⟩

namespace Session

variable {settings : Settings} {files : Files} {base : AbsPath} {readings : Nat → Float}
  {log : List LogEntry} {s : Session}

/-- A program that is read does the same in braces, for which it needs two steps more. -/
theorem run_inBraces (name name' : Option String) {source : String} {w : Wrapping.World}
    {p : List (Stmt Unit)} (hlimit : s.settings.errorLimit.reachedBy 0 = some false)
    (hfree : ImportFree (scan source.toList).tokens)
    (hdeclarations : DeclarationsOnly source.toList) (hread : ReadsAs source.toList p)
    (harranged : Wrapping.Arranged (topLevelNames p) [] p) (henv : s.machine.env = globalEnv)
    (hm : (Wrapping.wrapping (topLevelNames p)).MachineRel w s.machine s.machine)
    (hblock : w.block = none) :
    (∃ body, (UnitReading.ofSource s.importer s.settings.errorLimit name' false
        (inBraces source)).accepted? = some body) ∧
      ∀ n, (s.run source name false n).1.Alike (s.run (inBraces source) name' false (n + 2)).1 := by
  obtain ⟨f, hf, hread'⟩ := Wrapping.readsAs_enclosed hfree hread hdeclarations harranged
  have hplain := (accepted?_eq_some s.importer _ name hfree hlimit).mpr ⟨p, hread, rfl⟩
  have henclosed := (accepted?_eq_some s.importer _ name'
    (by rw [toList_inBraces]; exact importFree_enclosed hread.scanned hfree) hlimit).mpr
    ⟨_, by rw [toList_inBraces]; exact hread', rfl⟩
  refine ⟨⟨_, henclosed⟩, fun n => ?_⟩
  obtain ⟨houtcome, hprinted, _⟩ := s.run_accepted hplain n
  obtain ⟨houtcome', hprinted', _⟩ := s.run_accepted henclosed (n + 2)
  have hbody := (List.append_eq_nil_iff.mp hread'.resolved).1
  rw [Stmt.scopeFaults] at hbody
  have hreturns : Stmt.returnsAny (Stmt.resolveAll .none (Scopes.block [])
      (Stmt.mapAll f (fun _ => id) 1 p)) = false :=
    Stmt.returnsAny_resolve rfl .none _ hbody
  have hkeyword := ne_keyword_of_topLevelNames hread.wellFormed
  have hrelated := harranged.stmtsRel hf (fun h => (hkeyword _ h).1 rfl)
    (fun h => (hkeyword _ h).2 rfl) (fun n hn => absurd hn List.not_mem_nil) Wrapping.keeps_nil 1
  rw [← Stmt.resolveAll_map hf] at hrelated
  obtain ⟨halike, houtput⟩ := Wrapping.interpretWith_block n henv hm hblock hrelated hreturns
  refine ⟨?_, ?_⟩
  · rw [houtcome, houtcome']
    exact halike
  · rw [hprinted, hprinted']
    exact congrArg Array.toList houtput

/-- A program and its block agree. In a fresh session a source does the same with braces
around it, if it is a list of declarations whose names are new, declared once, and
declared before their uses: it is accepted too, prints the same and ends alike. Each of the two
runs ends if the other does, with at most two steps more of a budget. -/
theorem block_agrees (hstart : Session.start settings files base readings = (log, .ok s))
    (hlimit : settings.errorLimit.reachedBy 0 ≠ none) (source : String)
    (name name' : Option String) (hfree : ImportFree (scan source.toList).tokens)
    (hdeclarations : DeclarationsOnly source.toList) {program : List (Stmt Slot)}
    (haccepted : (UnitReading.ofSource s.importer s.settings.errorLimit name false
      source).accepted? = some program)
    (honce : (topLevelNames program).Nodup)
    (hnew : ∀ n ∈ topLevelNames program, n ∉ predefinedNames)
    (huses : UsesDeclared (topLevelNames program) [] program) :
    (∃ body, (UnitReading.ofSource s.importer s.settings.errorLimit name' false
        (inBraces source)).accepted? = some body) ∧
      RunsAlike 2 (fun _ _ => True) (s.runs source name false)
        (s.runs (inBraces source) name' false) := by
  have hsettles := s.runs_settle source name false
  have hsettles' := s.runs_settle (inBraces source) name' false
  have hsettings := start_settings hstart
  rw [← hsettings] at hlimit
  cases hreached : s.settings.errorLimit.reachedBy 0 with
  | none => exact absurd hreached hlimit
  | some reached =>
      cases reached with
      | true =>
          -- Nothing is read, with the braces or without.
          obtain ⟨hscanned, rfl⟩ := (accepted?_stopped _ _ name hreached).mp haccepted
          have henclosed := (accepted?_stopped s.importer _ name' hreached).mpr
            ⟨by rw [toList_inBraces]; exact scan_enclosed_faults hscanned, rfl⟩
          refine ⟨⟨_, henclosed⟩, .of_exact 2 0 hsettles hsettles' fun n _ => ?_⟩
          obtain ⟨houtcome, hprinted, _⟩ := s.run_accepted haccepted n
          obtain ⟨houtcome', hprinted', _⟩ := s.run_accepted henclosed n
          refine ⟨⟨?_, hprinted'.trans hprinted.symm⟩, trivial⟩
          rw [runs, runs, Nat.add_zero, houtcome, houtcome']
          exact UnitEnd.outcome_alike _
      | false =>
          obtain ⟨p, hread, rfl⟩ := (accepted?_eq_some _ _ name hfree hreached).mp haccepted
          rw [topLevelNames_resolveAll] at honce hnew huses
          have hkeyword := ne_keyword_of_topLevelNames hread.wellFormed
          obtain ⟨henv, w, hblock, hm⟩ := Wrapping.start_related hstart (hsettings ▸ hlimit) hnew
            (fun h => (hkeyword _ h).1 rfl) fun h => (hkeyword _ h).2 rfl
          obtain ⟨hbody, halike⟩ := run_inBraces name name' hreached hfree
            hdeclarations hread ⟨hread.wellFormed, hread.resolved, fun n hn => hn,
              fun _ _ => List.not_mem_nil, honce, huses⟩ henv hm hblock
          exact ⟨hbody, .of_exact 0 2 hsettles hsettles'
            fun n _ => ⟨halike n, trivial⟩⟩

/-- Functions and methods that use what the top level declares, and an error at the
end. -/
theorem block_agrees_classes :
    let s := bare { prelude := .bool false } {} ⟨[], false⟩ (fun _ => 0)
    let source := "var a = [nil]; fun f(b) \x7b print a; if (b) f(nil); else a = nil; \x7d " ++
      "class C \x7b m() \x7b f(this); return C; \x7d \x7d class D < C \x7b \x7d " ++
      "print D().m(); print a; a();"
    (∃ body, (UnitReading.ofSource s.importer s.settings.errorLimit none false
        (inBraces source)).accepted? = some body) ∧
      (s.runs source none false 50).1.printed = ["[nil]", "[nil]", "C", "nil"] ∧
      (s.runs source none false 50).1.Alike (s.runs (inBraces source) none false 52).1 := by
  intro s source
  have hstart : start { prelude := .bool false } {} ⟨[], false⟩ (fun _ => 0) =
      ([.note (installedNote NativeTable.standard)], .ok s) := rfl
  have hfree : ImportFree (scan source.toList).tokens := by
    unfold ImportFree
    decide +kernel
  have hdeclarations : DeclarationsOnly source.toList :=
    declarationsOnly_of_parse 100 (by decide +kernel)
  have haccepted : ((UnitReading.ofSource s.importer s.settings.errorLimit none false
      source).accepted?.any fun program => (topLevelNames program).Nodup &&
        (topLevelNames program).all (· ∉ predefinedNames) &&
        UsesDeclared (topLevelNames program) [] program) = true := by
    decide +kernel
  have hfailed : (s.runs source none false 50).1.outcome.error?.isSome = true := by
    decide +kernel
  rw [Option.any_eq_true] at haccepted
  obtain ⟨program, hprogram, harranged⟩ := haccepted
  simp only [Bool.and_eq_true, decide_eq_true_iff, List.all_eq_true] at harranged
  obtain ⟨hbody, halike⟩ := block_agrees hstart (by decide) source none none hfree hdeclarations
    hprogram harranged.1.1 harranged.1.2 harranged.2
  have hends : (s.runs source none false 50).1.Ends := by
    intro hspent
    rw [hspent] at hfailed
    cases hfailed
  exact ⟨hbody, by decide +kernel, (halike.ends 50 52 (by decide) hends).1⟩

end Session

end Lox
