import Lox.Proofs.Numbering.Orders
import Lox.Proofs.Renaming.Sources
import Lox.Proofs.Scanning.Respelling
import Lox.Proofs.Wrapping.Units

/-!
# Blocks of functions in a source

Functions that are declared one after the other at the top level of a source make a block.
The tokens of the block fall into parts, one for each declaration, and the parts may be
written down in another order: what comes out is a program again, with the same functions
in that order, and it does the same.
-/

namespace Lox

open Grammar Parse

namespace Grammar

/-! ## Parts of a program -/

/-- Tokens of a program, from the start of one declaration to the end of another, that are
read as these declarations. -/
def Stretch (ts : List Token) (p : List (Stmt Unit)) : Prop :=
  ∃ eof : Token, eof.kind = .eof ∧ Program .nearest (ts ++ [eof]) p

variable {ts us : List Token} {p q : List (Stmt Unit)}

theorem Stretch.append (h : Stretch ts p) (h' : Program .nearest us q) :
    Program .nearest (ts ++ us) (p ++ q) := by
  obtain ⟨eof, _, h⟩ := h
  have happend := h.append h'
  rwa [List.dropLast_concat] at happend

/-- A program can be cut between any two of its declarations. -/
theorem Program.split (h : Program .nearest ts (p ++ q)) :
    ∃ us vs, ts = us ++ vs ∧ Stretch us p ∧ Program .nearest vs q := by
  have hnone : ∀ {vs r}, Program .nearest vs r → ∃ us ws, vs = us ++ ws ∧ Stretch us [] ∧
      Program .nearest ws r :=
    fun h => ⟨[], _, rfl, ⟨.endOfInput 1 1, rfl, .finish rfl⟩, h⟩
  generalize hall : p ++ q = r at h
  induction h generalizing p with
  | finish hk =>
      obtain ⟨rfl, rfl⟩ := List.append_eq_nil_iff.mp hall
      exact hnone (.finish hk)
  | @semicolon t _ _ hk _ ih =>
      obtain ⟨us, vs, rfl, ⟨eof, heof, hus⟩, hvs⟩ := ih hall
      exact ⟨t :: us, vs, rfl, ⟨eof, heof, .semicolon hk hus⟩, hvs⟩
  | @declaration _ ts _ s r hs hr ih =>
      cases p with
      | nil =>
          cases hall
          exact hnone (.declaration hs hr)
      | cons s' p =>
          obtain ⟨rfl, hrest⟩ := List.cons.inj hall
          obtain ⟨us, vs, rfl, ⟨eof, heof, hus⟩, hvs⟩ := ih hrest
          refine ⟨ts ++ us, vs, (List.append_assoc _ _ _).symm, ⟨eof, heof, ?_⟩, hvs⟩
          rw [List.append_assoc]
          exact .declaration hs hus

/-- Some functions with the tokens of their declarations. -/
abbrev Part := List Token × List (FunDecl Unit)

/-- The tokens of the parts. -/
def tokensOf (parts : List Part) : List Token :=
  parts.flatMap (·.1)

/-- The functions of the parts. -/
def functionsOf (parts : List Part) : List (FunDecl Unit) :=
  parts.flatMap (·.2)

@[simp]
theorem tokensOf_cons (part : Part) (parts : List Part) :
    tokensOf (part :: parts) = part.1 ++ tokensOf parts :=
  List.flatMap_cons

@[simp]
theorem functionsOf_cons (part : Part) (parts : List Part) :
    functionsOf (part :: parts) = part.2 ++ functionsOf parts :=
  List.flatMap_cons

/-- A block of functions with different names among the declarations of a program. Its
tokens fall into parts, each of which declares functions and nothing else. -/
structure FunctionBlock (tokens : List Token) where
  before : List Token
  parts : List Part
  after : List Token
  tokens_eq : tokens = before ++ (tokensOf parts ++ after)
  leads : ∃ p, Stretch before p
  declares : ∀ part ∈ parts, Stretch part.1 (part.2.map .function)
  follows : ∃ q, Program .nearest after q
  distinct : ((functionsOf parts).map (·.name.lexeme)).Nodup
  nonempty : functionsOf parts ≠ []

/-- The tokens of a program with the parts of a block written down in another order. -/
def FunctionBlock.arranged {tokens : List Token} (b : FunctionBlock tokens)
    (parts : List Part) : List Token :=
  b.before ++ (tokensOf parts ++ b.after)

theorem Program.parts {parts : List Part}
    (hparts : ∀ part ∈ parts, Stretch part.1 (part.2.map .function))
    (h : Program .nearest us q) :
    Program .nearest (tokensOf parts ++ us) ((functionsOf parts).map .function ++ q) := by
  induction parts with
  | nil => exact h
  | cons part parts ih =>
      obtain ⟨hpart, hparts⟩ := List.forall_mem_cons.mp hparts
      have hprogram := hpart.append (ih hparts)
      simpa only [tokensOf_cons, functionsOf_cons, List.map_append, List.append_assoc]
        using hprogram

/-- Each function that is declared among others has a part of its own. -/
theorem Program.exists_parts {fs : List (FunDecl Unit)}
    (h : Program .nearest ts (fs.map .function ++ q)) :
    ∃ parts us, ts = tokensOf parts ++ us ∧ parts.map (·.2) = fs.map ([·]) ∧
      (∀ part ∈ parts, Stretch part.1 (part.2.map .function)) ∧ Program .nearest us q := by
  induction fs generalizing ts with
  | nil => exact ⟨[], ts, rfl, rfl, fun _ h => absurd h List.not_mem_nil, h⟩
  | cons f fs ih =>
      obtain ⟨us, vs, rfl, hf, hvs⟩ := Program.split (p := [.function f]) h
      obtain ⟨parts, ws, rfl, hfunctions, hparts, hws⟩ := ih hvs
      refine ⟨(us, [f]) :: parts, ws, ?_, ?_, List.forall_mem_cons.mpr ⟨hf, hparts⟩, hws⟩
      · rw [tokensOf_cons, List.append_assoc]
      · rw [List.map_cons, List.map_cons, hfunctions]

/-- All functions that are declared one after the other are a block, with a part for each of
them. -/
theorem Program.exists_functionBlock {fs : List (FunDecl Unit)}
    (h : Program .nearest ts (p ++ (fs.map .function ++ q))) (hfs : fs ≠ [])
    (hnames : (fs.map (·.name.lexeme)).Nodup) :
    ∃ b : FunctionBlock ts, b.parts.map (·.2) = fs.map ([·]) := by
  obtain ⟨us, vs, rfl, hp, hvs⟩ := h.split
  obtain ⟨parts, ws, rfl, hfunctions, hparts, hws⟩ := hvs.exists_parts
  have hall : functionsOf parts = fs := by
    rw [functionsOf, List.flatMap_def, hfunctions, ← List.flatMap_def]
    exact List.flatMap_singleton' fs
  exact ⟨⟨us, parts, ws, rfl, ⟨p, hp⟩, hparts, ⟨q, hws⟩, hall ▸ hnames, hall ▸ hfs⟩, hfunctions⟩

/-- The program with the functions of the block in another order. -/
theorem FunctionBlock.arranged_program {tokens : List Token} (b : FunctionBlock tokens)
    {parts : List Part} (hperm : parts.Perm b.parts) (hp : Stretch b.before p)
    (hq : Program .nearest b.after q) :
    Program .nearest (b.arranged parts) (p ++ ((functionsOf parts).map .function ++ q)) :=
  hp.append (hq.parts fun part hpart => b.declares part (hperm.mem_iff.mp hpart))

theorem FunctionBlock.arranged_perm {tokens : List Token} (b : FunctionBlock tokens)
    {parts : List Part} (hperm : parts.Perm b.parts) : (b.arranged parts).Perm tokens := by
  have htokens : (tokensOf parts).Perm (tokensOf b.parts) := hperm.flatMap_right _
  have happend := (htokens.append_right b.after).append_left b.before
  rwa [← b.tokens_eq] at happend

end Grammar

/-! ## Sources of given tokens -/

/-- How a token is written, wherever it stands. -/
def Token.written (t : Token) : TokenKind × String :=
  (t.kind, t.lexeme)

/-- The source has the tokens, at places of its own, and nothing wrong between them. -/
structure HasTokens (source : String) (ts : List Token) : Prop where
  scanned : (scan source.toList).faults = []
  tokens : (scan source.toList).tokens.map Token.written = ts.map Token.written

/-- What a token stands for can be told from how it is written. -/
theorem literal_of_mem_scan {source : List Char} {t : Token} (h : t ∈ (scan source).tokens) :
    t.literal = Piece.literal t.kind t.lexeme.toList := by
  obtain ⟨ts, eof, htokens, _, hlexemes⟩ := scan_tokens source
  have hlast := htokens.symm.trans (scan_tokens_eq source)
  obtain ⟨rfl, hend⟩ := List.append_inj' hlast rfl
  rw [htokens] at h
  rcases List.mem_append.mp h with h | h
  · obtain ⟨c, rest, _, hlexeme, hliteral⟩ := (hlexemes t h).piece
    rw [hliteral, hlexeme, String.toList_ofList]
  · rw [hend] at h
    rw [List.mem_singleton.mp h]
    rfl

/-- The tokens of a source in another order can be written down. -/
theorem exists_hasTokens {source : List Char} {ts : List Token} {eof : Token}
    (hperm : (ts ++ [eof]).Perm (scan source).tokens) (hk : eof.kind = .eof) :
    ∃ source', HasTokens source' (ts ++ [eof]) := by
  have hmem : ∀ t ∈ ts ++ [eof], t ∈ (scan source).tokens := fun t ht => hperm.mem_iff.mp ht
  obtain ⟨us, last, htokens, hlast, hlexemes⟩ := scan_tokens source
  have hends : last.written = (.eof, "") := by
    have hsame := htokens.symm.trans (scan_tokens_eq source)
    obtain ⟨_, hend⟩ := List.append_inj' hsame rfl
    cases hend
    rfl
  have heof : eof = last := by
    have heof := hmem eof (List.mem_append_right _ List.mem_cons_self)
    rw [htokens] at heof
    rcases List.mem_append.mp heof with heof | heof
    · exact absurd hk (hlexemes eof heof).ne_eof
    · exact List.mem_singleton.mp heof
  rw [htokens, heof] at hperm
  obtain ⟨ss, _, hcontents⟩ := exists_spellings fun t ht =>
    hlexemes t ((List.perm_append_right_iff _).mp hperm |>.mem_iff.mp ht)
  obtain ⟨hfaults, hscan⟩ := scan_spaced ss
  refine ⟨String.ofList (spaced (ss.map Spelling.text)), ?_, ?_⟩
  · rwa [String.toList_ofList]
  · have hwritten := congrArg (List.map fun c : TokenKind × String × Constant => (c.1, c.2.1))
      (hscan.trans (congrArg (· ++ _) hcontents))
    rw [List.map_map, List.map_append, List.map_map] at hwritten
    rw [String.toList_ofList, List.map_append, heof, List.map_singleton, hends]
    exact hwritten

/-- A source of the tokens of another one, in whatever order, has their images under a map
that keeps what they stand for. -/
theorem HasTokens.exists_map {source source' : String} {ts : List Token} (h : HasTokens source' ts)
    (hperm : ts.Perm (scan source.toList).tokens) :
    ∃ f, KeepsKinds f ∧ KeepsTexts f ∧ (scan source'.toList).tokens = ts.map f := by
  have hrel : List.Forall₂
      (fun t t' => t ∈ (scan source.toList).tokens ∧ t' ∈ (scan source'.toList).tokens ∧
        t'.written = t.written) ts (scan source'.toList).tokens := by
    refine List.forall₂_iff_get.mpr ⟨?_, fun i hi hi' => ?_⟩
    · have hlength := congrArg List.length h.tokens
      rw [List.length_map, List.length_map] at hlength
      exact hlength.symm
    · refine ⟨hperm.mem_iff.mp (List.get_mem _ _), List.get_mem _ _, ?_⟩
      have hget := congrArg (·[i]?) h.tokens
      simpa [List.getElem?_eq_getElem, hi, hi'] using hget
  obtain ⟨f, hmap, hf, hkept⟩ :=
    exists_map_of_forall₂ hrel (hperm.nodup_iff.mpr (scan_nodup source.toList))
  have hwritten : ∀ t, (f t).written = t.written ∧ (f t).literal = t.literal := by
    intro t
    by_cases ht : t ∈ ts
    · obtain ⟨hmem, hmem', hsame⟩ := hf t ht
      refine ⟨hsame, ?_⟩
      obtain ⟨hkind, hlexeme⟩ := Prod.mk.inj hsame
      rw [literal_of_mem_scan hmem', literal_of_mem_scan hmem, hkind, hlexeme]
    · rw [hkept t ht]
      exact ⟨rfl, rfl⟩
  refine ⟨f, fun t => ⟨congrArg Prod.fst (hwritten t).1, (hwritten t).2⟩, fun t => ?_, hmap⟩
  exact ⟨(congrArg Prod.fst (hwritten t).1).symm, (congrArg Prod.snd (hwritten t).1).symm⟩

/-! ## Functions outside of all scopes -/

theorem Stmt.resolveAll_functions (c : ClassKind) (fs : List (FunDecl Unit)) :
    Stmt.resolveAll c [] (fs.map .function) = (fs.map (FunDecl.resolve c [])).map .function := by
  induction fs with
  | nil => rfl
  | cons f fs ih => exact congrArg (Stmt.function (f.resolve c []) :: ·) ih

theorem Stmt.scopeFaultsAll_functions (around : Surroundings) (fs : List (FunDecl Unit)) :
    Stmt.scopeFaultsAll around [] (fs.map .function) =
      fs.flatMap fun f => Stmt.scopeFaults around [] (.function f) := by
  induction fs with
  | nil => rfl
  | cons f fs ih =>
      rw [List.map_cons, scopeFaultsAll, List.flatMap_cons, after_nil, ih]

/-- Whether functions are faultless does not depend on their order. -/
theorem Stmt.scopeFaultsAll_perm {p q : List (Stmt Unit)} {fs fs' : List (FunDecl Unit)}
    (hperm : fs'.Perm fs) (h : Stmt.scopeFaultsAll {} [] (p ++ (fs.map .function ++ q)) = []) :
    Stmt.scopeFaultsAll {} [] (p ++ (fs'.map .function ++ q)) = [] := by
  rw [Stmt.scopeFaultsAll_append, Stmt.scopeFaultsAll_append, scopeFaultsAll_functions,
    List.append_eq_nil_iff, List.append_eq_nil_iff] at h ⊢
  obtain ⟨hp, hfs, hq⟩ := h
  refine ⟨hp, List.flatMap_eq_nil_iff.mpr fun f hf => ?_, hq⟩
  exact List.flatMap_eq_nil_iff.mp hfs f (hperm.mem_iff.mp hf)

end Lox
