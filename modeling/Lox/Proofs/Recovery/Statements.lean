import Lox.Proofs.Imports.Whole
import Lox.Proofs.Recovery.Past
import Lox.Proofs.Recovery.Sequels
import Mathlib.Data.List.TakeWhile

/-!
# A broken statement does not damage what follows

A simple statement, whole or broken, stands between two points that its errors do not reach
over. What precedes it does not matter to what follows its semicolon, and what follows does
not matter to it. So a program that begins with such a statement is parsed as the statement
and the rest are parsed apart from each other: `parseProgram_recovers`.
-/

namespace Lox

open ParseState Parse

/-- What could have become one simple statement: no semicolon, no braces, and no word that
begins a statement, except that the first may begin a simple one. -/
structure OneStatement (ts : List Token) : Prop where
  ne_nil : ts ≠ []
  inside : ∀ t ∈ ts, t.kind ∉ [.semicolon, .leftBrace, .rightBrace, .eof]
  first : ∀ t ∈ ts.head?, t.kind.startsStatement → t.kind ∈ [.printWord, .varWord, .returnWord]
  later : ∀ t ∈ ts.tail, ¬ t.kind.startsStatement

namespace OneStatement

variable {ts : List Token}

theorem ne_eof (h : OneStatement ts) : ∀ t ∈ ts, t.kind ≠ .eof :=
  fun t ht hk => h.inside t ht (by rw [hk]; decide)

theorem simple (h : OneStatement ts) : ∀ t ∈ ts, t.kind ∉ statementBoundaries := by
  intro t ht hb
  have hinside := h.inside t ht
  have hstart : t.kind.startsStatement → t.kind ∈ [.printWord, .varWord, .returnWord] := by
    obtain ⟨u, us, rfl⟩ := List.exists_cons_of_ne_nil h.ne_nil
    rcases List.mem_cons.mp ht with rfl | ht
    · exact h.first t rfl
    · exact fun hs => absurd hs (h.later t ht)
  revert hb hinside hstart
  generalize t.kind = k
  cases k <;> decide

/-- The statement with two things that could stand behind its semicolon. -/
def sequels (h : OneStatement ts) {semicolon : Token} (hk : semicolon.kind = .semicolon)
    (first second : List Token) : Sequels :=
  ⟨ts, semicolon, first, second, hk, h.simple⟩

end OneStatement

/-- Tokens in front of those that a state was made of. -/
theorem ofTokens_append {front tokens : List Token} (hfront : ∀ t ∈ front, t.kind ≠ .eof)
    (hend : ∃ t ∈ tokens, t.kind = .eof) :
    ofTokens (front ++ tokens) =
      { ofTokens tokens with ahead := front ++ (ofTokens tokens).ahead } := by
  have hall : ∀ t ∈ front, (t.kind != .eof) = true := fun t ht => bne_iff_ne.mpr (hfront t ht)
  have hne : tokens.dropWhile (·.kind != .eof) ≠ [] := by
    obtain ⟨t, ht, hk⟩ := hend
    intro hnil
    exact bne_iff_ne.mp (List.dropWhile_eq_nil_iff.mp hnil t ht) hk
  obtain ⟨t, rest, hrest⟩ := List.exists_cons_of_ne_nil hne
  simp only [ofTokens, List.takeWhile_append_of_pos hall, List.dropWhile_append_of_pos hall, hrest]

/-- A state that has the tokens ahead that another began with. -/
theorem eq_ofTokens_after {tokens : List Token} {s : ParseState}
    (hahead : s.ahead = (ofTokens tokens).ahead) (hfinish : s.finish = (ofTokens tokens).finish) :
    s = (ofTokens tokens).after ⟨s.taken, s.faults, s.notes⟩ := by
  have htaken : s.taken = (ofTokens tokens).taken ++ s.taken := rfl
  have hfaults : s.faults = s.faults ++ (ofTokens tokens).faults := (List.append_nil _).symm
  have hnotes : s.notes = s.notes ++ (ofTokens tokens).notes := (List.append_nil _).symm
  rw [ParseState.after, ← hahead, ← hfinish, ← htaken, ← hfaults, ← hnotes]

namespace Parse

variable {im : Importer} {limit : ErrorLimit} {s : ParseState}

variable (im) in
/-- A first round that reads a simple statement. -/
theorem program_declares {ts tokens : List Token} {stmt : Option (Stmt Unit)} (n : Nat)
    (hts : OneStatement ts) (hlimit : limit.reachedBy 0 = some false)
    (hd : topDeclaration (ofTokens (ts ++ tokens)) = .ok stmt s) :
    program im limit (n + 1) [] (ofTokens (ts ++ tokens)) =
      { program im limit n [] s with
        program := stmt.toList ++ (program im limit n [] s).program } := by
  obtain ⟨t, us, rfl⟩ := List.exists_cons_of_ne_nil hts.ne_nil
  have hkind : ∀ kind ∈ statementBoundaries, t.kind ≠ kind :=
    fun kind hk heq => hts.simple t List.mem_cons_self (heq ▸ hk)
  have ha : (ofTokens (t :: us ++ tokens)).ahead =
      t :: (us ++ tokens).takeWhile (·.kind != .eof) := by
    rw [ofTokens, List.cons_append, List.takeWhile_cons_of_pos]
    exact bne_iff_ne.mpr (hkind .eof (by decide))
  have hskip : skipSemicolons (ofTokens (t :: us ++ tokens)) = ofTokens (t :: us ++ tokens) :=
    skipSemicolons_of_ne (by rw [ha]; exact hkind .semicolon (by decide))
  have hzero : limit.reachedBy (ofTokens (t :: us ++ tokens)).faults.length = some false := hlimit
  simp only [program, hskip, ha, hzero, if_neg (hkind .importWord (by decide)), hd]

/-- A parse with nothing ahead. -/
theorem program_of_end (n : Nat) (seen : List AbsPath) (ha : s.ahead = []) :
    program im limit (n + 1) seen s = ⟨[], seen, s, none⟩ := by
  have hskip : skipSemicolons s = s := skipSemicolons_of_ne (by rw [ha]; decide)
  simp only [program, hskip, ha]

end Parse

/-- The results are the same, up to where the parses stand and to their notes. -/
structure ParseResult.Same (r r' : ParseResult) : Prop where
  program : r.program = r'.program
  faults : r.faults = r'.faults
  imported : r.imported = r'.imported
  halt : r.halt = r'.halt

theorem parseProgram_same (im : Importer) (limit : ErrorLimit) (tokens : List Token)
    (name : Option String) :
    (parseProgram im limit tokens name).Same
      (program im limit (im.supply tokens + 1) [] (ofTokens tokens)) := by
  rw [parseProgram]
  split
  · exact ⟨rfl, rfl, rfl, rfl⟩
  · exact ⟨rfl, rfl, rfl, rfl⟩

/-- A statement that is broken, or whole, and what follows its semicolon. -/
structure ParseResult.Splits (whole statement rest : ParseResult) : Prop where
  program : whole.program = statement.program ++ rest.program
  faults : whole.faults = statement.faults ++ rest.faults
  imported : whole.imported = rest.imported
  halt : whole.halt = rest.halt
  returns : statement.halt = none
  one : statement.program.length ≤ 1
  once : statement.diagnostics.countP (·.code = "E101") ≤ 1

theorem ParseResult.Splits.of_same {w w' x x' y y' : ParseResult} (h : w'.Splits x' y')
    (hw : w.Same w') (hx : x.Same x') (hy : y.Same y') : w.Splits x y where
  program := by rw [hw.program, hx.program, hy.program, h.program]
  faults := by rw [hw.faults, hx.faults, hy.faults, h.faults]
  imported := by rw [hw.imported, hy.imported, h.imported]
  halt := by rw [hw.halt, hy.halt, h.halt]
  returns := by rw [hx.halt, h.returns]
  one := by rw [hx.program]; exact h.one
  once := by rw [ParseResult.diagnostics, hx.faults]; exact h.once

/-- A simple statement is read, or skipped, up to its semicolon. It is the same before other
tokens and before none, and a parse goes on behind it as it would begin. -/
theorem topDeclaration_settles {ts tokens : List Token} {semicolon eof : Token}
    (hts : OneStatement ts) (hsemicolon : semicolon.kind = .semicolon) (heof : eof.kind = .eof)
    (htokens : ∃ t ∈ tokens, t.kind = .eof) :
    ∃ (stmt : Option (Stmt Unit)) (past : Past) (s : ParseState),
      topDeclaration (ofTokens (ts ++ semicolon :: tokens)) =
        .ok stmt ((ofTokens tokens).after past) ∧
      topDeclaration (ofTokens (ts ++ [semicolon, eof])) = .ok stmt s ∧
      s.ahead = [] ∧ s.faults = past.faults ∧ past.faults.countP (·.code = "E101") ≤ 1 := by
  have hfront : ∀ t ∈ ts ++ [semicolon], t.kind ≠ .eof := by
    refine List.forall_mem_append.mpr ⟨hts.ne_eof, List.forall_mem_singleton.mpr ?_⟩
    rw [hsemicolon]
    decide
  have hstart := ofTokens_append hfront htokens
  have hstart' := ofTokens_ended hfront heof
  rw [List.append_assoc, List.singleton_append] at hstart hstart'
  have hended := ended_ofTokens (ts ++ semicolon :: tokens)
  have hended' := ended_ofTokens (ts ++ [semicolon, eof])
  have hbefore : (hts.sequels hsemicolon (ofTokens tokens).ahead []).Before
      (ofTokens (ts ++ semicolon :: tokens)) (ofTokens (ts ++ [semicolon, eof])) := by
    refine ⟨ts, ⟨rfl, rfl, rfl⟩, List.suffix_rfl, ?_, hstart'.1⟩
    rw [hstart, List.append_assoc]
    rfl
  obtain ⟨stmt, s, s', hd, hd', hbehind, gs, hgs, hcount⟩ :=
    Sequels.settled_topDeclaration hbefore (fun t ht => Bool.eq_false_iff.mpr (hts.later t ht))
      (not_isSpent_topDeclaration hended) (not_isSpent_topDeclaration hended')
  obtain ⟨us, hm⟩ := composed_topDeclaration.moves (ofTokens (ts ++ semicolon :: tokens))
  have hfinish : s.finish = (ofTokens tokens).finish := by
    have h := hm.finish
    rw [hd, hstart] at h
    exact h
  have hs := eq_ofTokens_after hbehind.ahead hfinish
  have hfaults : s.faults = gs := hgs
  rw [hs] at hd
  exact ⟨stmt, _, s', hd, hd', hbehind.ahead', hbehind.faults, hfaults ▸ hcount⟩

/-- The parse of a simple statement with the semicolon behind it, before any other tokens. -/
theorem program_splits {im : Importer} {limit : ErrorLimit} {ts tokens : List Token}
    {semicolon eof : Token} {n m : Nat} (hts : OneStatement ts)
    (hsemicolon : semicolon.kind = .semicolon) (heof : eof.kind = .eof)
    (htokens : ∃ t ∈ tokens, t.kind = .eof) (hn : im.supply tokens + 1 ≤ n)
    (hlimit : limit.Above
      (program im limit (n + 1) [] (ofTokens (ts ++ semicolon :: tokens))).faults.length) :
    (program im limit (n + 1) [] (ofTokens (ts ++ semicolon :: tokens))).Splits
      (program im limit (m + 2) [] (ofTokens (ts ++ [semicolon, eof])))
      (program im limit (im.supply tokens + 1) [] (ofTokens tokens)) := by
  obtain ⟨stmt, past, s, hd, hd', hahead, hfaults, hcount⟩ :=
    topDeclaration_settles hts hsemicolon heof htokens
  have hzero : limit.reachedBy 0 = some false := hlimit 0 (Nat.zero_le _)
  have hwhole := program_declares im n hts hzero hd
  have hstatement := program_declares im (m + 1) hts hzero hd'
  rw [program_of_end m [] hahead] at hstatement
  rw [hwhole] at hlimit
  have hrest := program_after n (ended_ofTokens tokens) hlimit
  rw [program_supply limit tokens hn] at hrest
  rw [hwhole, hstatement, hrest]
  exact {
    program := by rw [List.append_nil]; rfl
    faults := congrArg (· ++ _) hfaults.symm
    imported := rfl
    halt := rfl
    returns := rfl
    one := by
      rw [List.append_nil]
      cases stmt with
      | none => exact Nat.zero_le 1
      | some y => exact Nat.le_refl 1
    once := by
      have hsame : (past.faults.map SyntaxFault.toDiagnostic).countP (·.code = "E101") ≤ 1 := by
        rw [List.countP_map]
        exact hcount
      rw [← hfaults] at hsame
      exact hsame }

/-- A broken simple statement does not damage what follows. The tokens `ts` may be anything that
could have become one simple statement, those behind its semicolon anything that ends the
input. If the limit of faults is not reached, the whole is parsed as the statement alone and
then what follows alone: at most one statement of the program and one fault of an unexpected
token come from the first, all others from the second. -/
theorem parseProgram_recovers (im : Importer) (limit : ErrorLimit)
    (name name' name'' : Option String) {ts tokens : List Token} {semicolon eof : Token}
    (hts : OneStatement ts) (hsemicolon : semicolon.kind = .semicolon) (heof : eof.kind = .eof)
    (htokens : ∃ before last, tokens = before ++ [last] ∧ last.kind = .eof)
    (hlimit : limit.Above (parseProgram im limit (ts ++ semicolon :: tokens) name).faults.length) :
    (parseProgram im limit (ts ++ semicolon :: tokens) name).Splits
      (parseProgram im limit (ts ++ [semicolon, eof]) name')
      (parseProgram im limit tokens name'') := by
  obtain ⟨before, last, rfl, hlast⟩ := htokens
  have hend : ∃ t ∈ before ++ [last], t.kind = .eof := ⟨last, by simp, hlast⟩
  have hwhole := parseProgram_same im limit (ts ++ semicolon :: (before ++ [last])) name
  have hstatement := parseProgram_same im limit (ts ++ [semicolon, eof]) name'
  have hrest := parseProgram_same im limit (before ++ [last]) name''
  have hsupply : im.supply (before ++ [last]) + 1 ≤
      im.supply (ts ++ semicolon :: (before ++ [last])) := by
    simp only [Importer.supply, List.length_append, List.length_cons]
    omega
  obtain ⟨m, hm⟩ : ∃ m, im.supply (ts ++ [semicolon, eof]) = m + 1 := by
    refine ⟨im.supply (ts ++ [semicolon, eof]) - 1, ?_⟩
    simp only [Importer.supply, List.length_append, List.length_cons]
    omega
  rw [hm] at hstatement
  rw [hwhole.faults] at hlimit
  exact (program_splits hts hsemicolon heof hend hsupply hlimit).of_same hwhole hstatement hrest

/-- A semicolon, and the end of the input. -/
def semicolonToken : Token := { kind := .semicolon, lexeme := ";", line := 1 }
def endToken : Token := { kind := .eof, lexeme := "", line := 1 }

/-- A statement with a fault that it goes on after and one that ends it. What follows imports a
file, and is broken as well. -/
theorem parseProgram_recovers_group :
    let im : Importer := ⟨⟨[], false⟩, { contents := [(["a"], "var y;".toList.map Char.toUInt8)] }⟩
    let ts := (scan "print (1 = 2".toList).tokens.dropLast
    let tokens := (scan "import \"a\"; ) ; return x;".toList).tokens
    OneStatement ts ∧ (∃ before last, tokens = before ++ [last] ∧ last.kind = .eof) ∧
      (ErrorLimit.count 4).Above
        (parseProgram im (.count 4) (ts ++ semicolonToken :: tokens)).faults.length ∧
      (parseProgram im (.count 4) (ts ++ semicolonToken :: tokens)).Splits
        (parseProgram im (.count 4) (ts ++ [semicolonToken, endToken]))
        (parseProgram im (.count 4) tokens) := by
  intro im ts tokens
  have hts : OneStatement ts :=
    ⟨by decide +kernel, by decide +kernel, by decide +kernel, by decide +kernel⟩
  have htokens : ∃ before last, tokens = before ++ [last] ∧ last.kind = .eof :=
    ⟨tokens.dropLast, tokens.getLast (by decide +kernel), (List.dropLast_concat_getLast _).symm,
      by decide +kernel⟩
  have hfaults :
      (parseProgram im (.count 4) (ts ++ semicolonToken :: tokens)).faults.length = 3 := by
    decide +kernel
  have hlimit : (ErrorLimit.count 4).Above
      (parseProgram im (.count 4) (ts ++ semicolonToken :: tokens)).faults.length := by
    intro k hk
    rw [hfaults] at hk
    exact reachedBy_count_eq_false.mpr (by omega)
  exact ⟨hts, htokens, hlimit,
    parseProgram_recovers im (.count 4) none none none hts rfl rfl htokens hlimit⟩

end Lox
