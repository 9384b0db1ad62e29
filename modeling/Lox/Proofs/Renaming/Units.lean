import Lox.Proofs.FreshSessions
import Lox.Proofs.Joining.Units
import Lox.Proofs.Renaming.Locals
import Lox.Proofs.Renaming.Programs
import Lox.Proofs.Renaming.Sources
import Mathlib.Data.List.Perm.Subperm

/-!
# Another name for a local variable

A program in which the occurrences of a local variable get a new name is accepted too,
has the same distances, and does the same in a session of its own. The new name is any
that occurs nowhere in the program.
-/

namespace Lox

open Grammar Parse

/-- The tokens `os` get the lexeme `name`. All others may have another position. -/
structure Respells (os : List Token) (name : String) (f : Token → Token) : Prop where
  keeps : KeepsKinds f
  renamed : ∀ t ∈ os, (f t).lexeme = name
  kept : ∀ t, t ∉ os → (f t).lexeme = t.lexeme

/-- The tree of a program has no more tokens than its source. -/
theorem Grammar.Program.tokens_subperm {rule : ElseRule} {ts : List Token}
    {p : List (Stmt Unit)} (h : Program rule ts p) : (Stmt.tokensAll p).Subperm ts := by
  classical
  exact List.subperm_ext_iff.mpr fun _ _ => h.tokens

namespace Renaming

/-! ## The source -/

section

variable {source other : String} {p : List (Stmt Unit)} {decl : Token}

/-- All occurrences of a local variable are names of the source. -/
theorem areNames (h : Program .nearest (scan source.toList).tokens p)
    (hdecl : decl ∈ Stmt.localsAll p) :
    AreNames source (Stmt.occurrencesAll decl [] (Stmt.resolveAll .none [] p)) := by
  intro t ht
  obtain ⟨htree, hname⟩ := Stmt.within_occurrencesAll [] _ t ht
  rw [(Stmt.namesAll_resolve .none [] p).1] at htree
  have hmem := h.tokens_subperm.subset htree
  obtain ⟨hdecl, hkind⟩ := h.locals decl hdecl
  exact ⟨hmem, kind_of_lexeme hmem hdecl hkind hname⟩

/-- The tokens of the tree are different, so the occurrences are told from all others. -/
theorem marked (h : Program .nearest (scan source.toList).tokens p)
    (hfresh : ∀ t ∈ (scan source.toList).tokens, t.lexeme ≠ other) (os : List Token) :
    Marked (· ∈ os) other (Stmt.tokensAll (Stmt.resolveAll .none [] p)) os := by
  rw [(Stmt.namesAll_resolve .none [] p).1]
  obtain ⟨ts, hperm, hsub⟩ := h.tokens_subperm
  exact ⟨hperm.nodup_iff.mp ((scan_nodup source.toList).sublist hsub),
    fun t ht => hfresh t (h.tokens_subperm.subset ht), fun _ _ => Iff.rfl⟩

/-- What the program declares in no scope is kept. -/
theorem declaredAs_global {replaced : Token → Prop}
    (h : Marked replaced other (Stmt.tokensAll (Stmt.resolveAll .none [] p))
      (Stmt.occurrencesAll decl [] (Stmt.resolveAll .none [] p))) :
    DeclaredAs decl other replaced false (p.filterMap Stmt.declared?) := by
  rw [← Stmt.declaredAll_resolve .none []]
  intro t ht
  obtain ⟨s, hs, ht⟩ := List.mem_filterMap.mp ht
  have hm := h.statement hs
  obtain ⟨htokens, hreplaced⟩ := hm.declared ht
  exact ⟨hm.fresh t htokens, iff_of_false
    (fun hr => Bool.false_ne_true (hreplaced.mp hr).1) fun hr => Bool.false_ne_true hr.2⟩

/-- The other source is read as the program with the other name in it. -/
theorem readsAs_replaceTokens (hread : ReadsAs source.toList p)
    (hdecl : decl ∈ Stmt.localsAll p) (hother : IsIdentifier other)
    (hfresh : ∀ t ∈ (scan source.toList).tokens, t.lexeme ≠ other) :
    let program := Stmt.resolveAll .none [] p
    let os := Stmt.occurrencesAll decl [] program
    ∃ f, Respells os other f ∧
      (scan (replaceTokens os other source).toList).tokens = (scan source.toList).tokens.map f ∧
      ReadsAs (replaceTokens os other source).toList (Stmt.mapAll f (fun _ => id) 0 p) ∧
      SameStmts decl.lexeme other f [] [] [] 0 {} p := by
  intro program os
  have hnames := areNames hread.parsed hdecl
  obtain ⟨f, htokens, hkeeps, hrenamed, hkept⟩ := exists_rewording hread.scanned hother hnames
  obtain ⟨hmem, hkind⟩ := hread.parsed.locals decl hdecl
  obtain ⟨word, _, hlexeme, hold, _⟩ := exists_word_of_mem_scan hmem hkind
  have hrenames : Renames decl other (· ∈ os) f :=
    ⟨fun t => (hkeeps t).1, hrenamed, hkept, hlexeme ▸ hold, hother.name⟩
  have hmarked := marked hread.parsed hfresh os
  have hsame := hrenames.stmts .nil 0 {} p hread.wellFormed hread.resolved
    (declaredAs_global hmarked) hmarked
  refine ⟨f, ⟨hkeeps, hrenamed, hkept⟩, htokens, ⟨?_, ?_, hsame.faultless⟩, hsame⟩
  · exact (scan_replaceTokens hread.scanned hother hnames).1
  · rw [htokens]
    exact hread.parsed.map hkeeps

end

/-! ## The start -/

section

variable {x y : String}

/-- Before anything has run there is one frame, and no scope of the variable. -/
theorem store_start {V : ValueRelation}
    (hV : ∀ n, Option.Rel V ((Machine.globalFrame NativeTable.standard).bindings.find? n)
      ((Machine.globalFrame NativeTable.standard).bindings.find? n)) :
    Store x y ⟨1, []⟩ V #[Machine.globalFrame NativeTable.standard]
      #[Machine.globalFrame NativeTable.standard] where
  relates := by
    intro k n
    cases k with
    | zero => exact hV n
    | succ k => exact .none
  size := rfl
  size' := rfl
  global := Nat.one_pos
  made _ hk := absurd hk List.not_mem_nil

theorem around_globalEnv : Around ⟨1, []⟩ [] globalEnv globalEnv where
  same := rfl
  made _ hk := List.mem_singleton.mp hk ▸ Nat.one_pos
  levels _ _ _ := iff_of_false List.not_mem_nil Bool.false_ne_true

/-- A fresh session is related to itself. -/
theorem start_related {settings : Settings} {files : Files} {base : AbsPath}
    {readings : Nat → Float} {log : List LogEntry} {s : Session}
    (h : Session.start settings files base readings = (log, .ok s))
    (hlimit : settings.errorLimit.reachedBy 0 ≠ none) :
    ∃ w, (otherName x y).MachineRel w s.machine s.machine ∧
      Around w [] s.machine.env s.machine.env := by
  have hstart : (otherName x y).MachineRel ⟨1, []⟩
      (Machine.start NativeTable.standard readings) (Machine.start NativeTable.standard readings) :=
    Comparison.start_self ⟨_, rfl⟩ readings rfl
      (store_start fun n => Comparison.globalFrame_self ⟨_, rfl⟩ n)
  have hprelude : (otherName x y).StmtsRel [] (Stmt.resolveAll .none [] preludeProgram)
      (Stmt.resolveAll .none [] preludeProgram) :=
    plainSpots.stmtsRel_self (fun _ hb => absurd hb List.not_mem_nil) _
  obtain ⟨henv, w, hlater, hm⟩ :=
    Session.start_related h hlimit rfl hstart around_globalEnv hprelude
  exact ⟨w, hm, henv ▸ around_globalEnv.later hlater⟩

end

/-- Programs that are related do the same. -/
theorem interpret_related {x y : String} {w : World} {m : Machine} {ss ss' : List (Stmt Slot)}
    (hm : (otherName x y).MachineRel w m m) (he : Around w [] m.env m.env)
    (h : (otherName x y).StmtsRel [] ss ss') :
    (m.interpret ss).1.outcome.Alike (m.interpret ss').1.outcome ∧
      (m.interpret ss).2.output = (m.interpret ss').2.output := by
  obtain ⟨halike, _, _, _, _, hlast⟩ :=
    Comparison.execUnit_finish stepBudget (hm.fresh rfl) he h
  exact ⟨halike, (hlast.output.trans Array.empty_append).symm⟩

end Renaming

namespace Session

variable {settings : Settings} {files : Files} {base : AbsPath} {readings : Nat → Float}
  {log : List LogEntry} {s : Session}

/-- The name of a local variable does not matter. In a fresh session, a source that is
accepted is accepted as well with a new name for a variable or parameter that it declares in
a scope, in the place of that declaration and of all references that lead to it. It has
the same slots, prints the same and ends alike. -/
theorem rename_agrees (hstart : Session.start settings files base readings = (log, .ok s))
    (source : String) (name name' : Option String) (hfree : ImportFree (scan source.toList).tokens)
    {program : List (Stmt Slot)}
    (haccepted : (UnitReading.ofSource s.importer s.settings.errorLimit name false
      source).accepted? = some program)
    {decl : Token} (hdecl : decl ∈ Stmt.localsAll program) {other : String}
    (hother : IsIdentifier other)
    (hfresh : ∀ t ∈ (scan source.toList).tokens, t.lexeme ≠ other) :
    let os := Stmt.occurrencesAll decl [] program
    let renamed := replaceTokens os other source
    decl ∈ os ∧
      (∃ f, Respells os other f ∧
        (scan renamed.toList).tokens = (scan source.toList).tokens.map f ∧
        (UnitReading.ofSource s.importer s.settings.errorLimit name' false
          renamed).accepted? = some (Stmt.mapAll f (fun _ => id) 0 program)) ∧
      (s.run source name).1.outcome.Alike (s.run renamed name').1.outcome ∧
      (s.run source name).1.printed = (s.run renamed name').1.printed := by
  intro os renamed
  refine ⟨Stmt.mem_occurrencesAll [] program hdecl, ?_⟩
  have hreached : s.settings.errorLimit.reachedBy 0 = some false := by
    by_contra hreached
    rw [accepted?_eq_nil _ _ name hreached haccepted] at hdecl
    exact List.not_mem_nil hdecl
  have hlimit : settings.errorLimit.reachedBy 0 ≠ none := by
    rw [← start_settings hstart, hreached]
    exact Option.some_ne_none false
  obtain ⟨p, hread, rfl⟩ := (accepted?_eq_some _ _ name hfree hreached).mp haccepted
  rw [(Stmt.namesAll_resolve .none [] p).2] at hdecl
  obtain ⟨f, hf, htokens, hread', hsame⟩ :=
    Renaming.readsAs_replaceTokens hread hdecl hother hfresh
  have hfree' : ImportFree (scan renamed.toList).tokens := by
    rw [htokens]
    intro t ht
    obtain ⟨u, hu, rfl⟩ := List.mem_map.mp ht
    exact (hf.keeps u).1 ▸ hfree u hu
  have haccepted' := (accepted?_eq_some s.importer _ name' hfree' hreached).mpr
    ⟨_, hread', hsame.slots.symm⟩
  obtain ⟨houtcome, hprinted, _⟩ := s.run_accepted haccepted
  obtain ⟨houtcome', hprinted', _⟩ := s.run_accepted haccepted'
  obtain ⟨w, hm, he⟩ := Renaming.start_related hstart hlimit
  obtain ⟨halike, houtput⟩ := Renaming.interpret_related hm he hsame.related
  rw [houtcome, houtcome', hprinted, hprinted']
  exact ⟨⟨f, hf, htokens, haccepted'⟩, halike, congrArg Array.toList houtput⟩

/-- A parameter that a closure reads and changes, next to another variable of its name. -/
theorem rename_agrees_closure :
    let s := bare { prelude := .bool false } {} ⟨[], false⟩ (fun _ => 0)
    let source := "fun f(a) \x7b fun g(b) \x7b print a; \x7b var a = b; print a; \x7d " ++
      "a = b; \x7d return g; \x7d var g = f(nil); g(true); g(f); print a;"
    let renamed := "fun f(c) \x7b fun g(b) \x7b print c; \x7b var a = b; print a; \x7d " ++
      "c = b; \x7d return g; \x7d var g = f(nil); g(true); g(f); print a;"
    ∃ program decl os, os = Stmt.occurrencesAll decl [] program ∧
      renamed = replaceTokens os "c" source ∧ decl ∈ os ∧
      (∃ f, Respells os "c" f ∧
        (scan renamed.toList).tokens = (scan source.toList).tokens.map f ∧
        (UnitReading.ofSource s.importer s.settings.errorLimit none false
          renamed).accepted? = some (Stmt.mapAll f (fun _ => id) 0 program)) ∧
      (s.run source none).1.outcome.Alike (s.run renamed none).1.outcome ∧
      (s.run source none).1.printed = (s.run renamed none).1.printed := by
  intro s source renamed
  have hstart : start { prelude := .bool false } {} ⟨[], false⟩ (fun _ => 0) =
      ([.note (installedNote NativeTable.standard)], .ok s) := rfl
  have hfree : ImportFree (scan source.toList).tokens := by
    unfold ImportFree
    decide +kernel
  have hfresh : ∀ t ∈ (scan source.toList).tokens, t.lexeme ≠ "c" := by decide +kernel
  have hother : IsIdentifier "c" :=
    ⟨⟨'c', [], rfl, rfl, fun _ hd => absurd hd List.not_mem_nil⟩, rfl⟩
  have haccepted : ((UnitReading.ofSource s.importer s.settings.errorLimit none false
      source).accepted?.any fun program => (Stmt.localsAll program).any fun t =>
        t.lexeme = "a" &&
          renamed = replaceTokens (Stmt.occurrencesAll t [] program) "c" source) = true := by
    decide +kernel
  rw [Option.any_eq_true] at haccepted
  obtain ⟨program, hprogram, hdeclared⟩ := haccepted
  obtain ⟨decl, hdecl, hrenamed⟩ := List.any_eq_true.mp hdeclared
  simp only [Bool.and_eq_true, decide_eq_true_iff] at hrenamed
  refine ⟨program, decl, _, rfl, hrenamed.2, ?_⟩
  have hagrees := rename_agrees hstart source none none hfree hprogram hdecl hother hfresh
  simp only [← hrenamed.2] at hagrees
  exact hagrees

end Session
end Lox
