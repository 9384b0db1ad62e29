import Lox.Proofs.Histories
import Lox.Proofs.Joining.Resolving
import Lox.Proofs.Mapping
import Lox.Proofs.Tiling

/-!
# Reading sources that are put together

A source without broken pieces can have more text behind it on a new line, and is still
cut into the same pieces. What comes behind is cut as it would be by itself; only its
positions are others.

Without imports nothing but the source decides how it is read. Two sources that are
read as programs are also read as one, if the second follows on a new line.
-/

namespace Lox

/-! ## Other positions -/

/-- The positions of a source are given to the same source elsewhere. -/
def Position.Shift (g : Position → Position) : Prop :=
  ∀ p c, 1 ≤ p.line → g (p.next c) = (g p).next c

theorem Position.one_le_line_next {p : Position} (h : 1 ≤ p.line) (c : Char) :
    1 ≤ (p.next c).line := by
  rw [next]
  split
  · exact Nat.le_succ_of_le h
  · exact h

theorem Position.one_le_line_after {p : Position} (h : 1 ≤ p.line) (text : List Char) :
    1 ≤ (p.after text).line := by
  induction text generalizing p with
  | nil => exact h
  | cons c text ih => exact ih (one_le_line_next h c)

theorem Position.after_append (p : Position) (text text' : List Char) :
    p.after (text ++ text') = (p.after text).after text' :=
  List.foldl_append

theorem Position.Shift.after {g : Position → Position} (hg : Shift g) {p : Position}
    (h : 1 ≤ p.line) (text : List Char) : g (p.after text) = (g p).after text := by
  induction text generalizing p with
  | nil => rfl
  | cons c text ih =>
      have hnext := ih (one_le_line_next h c)
      rw [hg p c h] at hnext
      exact hnext

/-- Some lines further down. -/
theorem Position.shift_lines (k : Nat) : Shift fun p => ⟨p.line + k, p.column⟩ := by
  intro p c _
  simp only [next]
  split
  · rw [Nat.add_right_comm]
  · rfl

/-- One column to the right, on the first line. -/
theorem Position.shift_column : Shift fun p => if p.line = 1 then ⟨1, p.column + 1⟩ else p := by
  intro p c h
  simp only [next]
  by_cases hc : c = '\n'
  · simp only [if_pos hc]
    rw [if_neg (by omega)]
    split <;> simp_all
  · simp only [if_neg hc]
    split <;> simp_all

/-- The token at another position. -/
def Token.moved (g : Position → Position) (t : Token) : Token :=
  let p := g ⟨t.line.toNat, t.column.toNat⟩
  { t with line := p.line, column := p.column }

theorem Token.moved_keepsKinds (g : Position → Position) : KeepsKinds (Token.moved g) :=
  fun _ => ⟨rfl, rfl⟩

namespace Piece

/-- The tokens of pieces that lie side by side from `p` on. -/
def tokensFrom (p : Position) (ps : List Piece) : List Token :=
  (place p ps).filterMap fun (p, piece) => piece.token? p

theorem token?_moved (g : Position → Position) (p : Position) (piece : Piece) :
    piece.token? (g p) = (piece.token? p).map (Token.moved g) := by
  obtain ⟨form, text⟩ := piece
  cases form <;> simp [token?, Token.moved]

theorem tokensFrom_cons (p : Position) (piece : Piece) (ps : List Piece) :
    tokensFrom p (piece :: ps) =
      (piece.token? p).toList ++ tokensFrom (p.after piece.text) ps := by
  simp only [tokensFrom, place, List.filterMap_cons]
  cases piece.token? p <;> rfl

theorem tokensFrom_append (p : Position) (ps qs : List Piece) :
    tokensFrom p (ps ++ qs) = tokensFrom p ps ++ tokensFrom (p.after (textOf ps)) qs := by
  induction ps generalizing p with
  | nil => rfl
  | cons piece ps ih =>
      rw [List.cons_append, tokensFrom_cons, tokensFrom_cons, ih, textOf_cons,
        Position.after_append, List.append_assoc]

theorem tokensFrom_moved {g : Position → Position} (hg : Position.Shift g) {p : Position}
    (h : 1 ≤ p.line) (ps : List Piece) :
    tokensFrom (g p) ps = (tokensFrom p ps).map (Token.moved g) := by
  induction ps generalizing p with
  | nil => rfl
  | cons piece ps ih =>
      rw [tokensFrom_cons, tokensFrom_cons, List.map_append, token?_moved, ← hg.after h,
        ih (Position.one_le_line_after h piece.text)]
      cases piece.token? p <;> rfl

/-- A piece that is broken off is a fault. -/
theorem isOpen_of_fault? {piece : Piece} (h : piece.fault? = none) : piece.isOpen = false := by
  obtain ⟨form, text⟩ := piece
  cases form <;> first | rfl | cases h

end Piece

/-! ## Scans -/

section

open Piece

theorem scan_tokens_eq (source : List Char) :
    (scan source).tokens = tokensFrom {} (pieces source) ++
      [Token.endOfInput (Position.after {} source).line (Position.after {} source).column] :=
  rfl

/-- A source has faults exactly if it has broken pieces, wherever they stand. -/
theorem scan_faults_eq_nil {source : List Char} :
    (scan source).faults = [] ↔ ∀ piece ∈ pieces source, piece.fault? = none := by
  have hplace : ∀ (p : Position) (ps : List Piece), (place p ps).filterMap
      (fun x => x.2.fault?.map (·, x.1.line)) = [] ↔ ∀ piece ∈ ps, piece.fault? = none := by
    intro p ps
    induction ps generalizing p with
    | nil => simp [place]
    | cons piece ps ih =>
        rw [place, List.filterMap_cons, List.forall_mem_cons, ← ih (p.after piece.text)]
        cases piece.fault? <;> simp only [Option.map, reduceCtorEq, false_and, true_and]
  exact hplace {} (pieces source)

/-- The pieces of two sources, the second on a new line. -/
theorem pieces_joined {first second : List Char} (hfirst : (scan first).faults = []) :
    pieces (first ++ '\n' :: second) = pieces first ++ ⟨.blank, ['\n']⟩ :: pieces second := by
  obtain ⟨htiled, htext⟩ := pieces_eq_iff.mp (rfl : pieces first = _)
  obtain ⟨htiled', htext'⟩ := pieces_eq_iff.mp (rfl : pieces second = _)
  have hopen : ∀ piece ∈ pieces first, piece.isOpen = false :=
    fun piece hpiece => isOpen_of_fault? (scan_faults_eq_nil.mp hfirst piece hpiece)
  have hsame : List.Forall₂ Replaces (pieces first) (pieces first) :=
    List.forall₂_same.mpr fun _ _ => .inl rfl
  refine pieces_eq_iff.mpr
    ⟨tiled_replaces hsame htiled hopen (.finish _) ⟨⟨'\n', [], rfl, rfl⟩, htiled'⟩, ?_⟩
  rw [textOf_append, textOf_cons, htext, htext']
  rfl

/-- The tokens of two sources, the second on a new line. -/
theorem scan_joined {first : List Char} (second : List Char) (hfirst : (scan first).faults = []) :
    ∃ g, Position.Shift g ∧ (scan (first ++ '\n' :: second)).tokens =
      (scan first).tokens.dropLast ++ (scan second).tokens.map (Token.moved g) := by
  let g : Position → Position := fun p => ⟨p.line + (Position.after {} first).line, p.column⟩
  have hg : Position.Shift g := Position.shift_lines _
  refine ⟨g, hg, ?_⟩
  have hstart : (Position.after {} first).after ['\n'] = g {} := by
    simp only [Position.after, List.foldl_cons, List.foldl_nil, Position.next, if_pos]
    rw [Nat.add_comm]
    rfl
  have hend := hg.after (p := {}) (Nat.le_refl 1) second
  have htext := (pieces_eq_iff.mp (rfl : pieces first = _)).2
  rw [scan_tokens_eq, scan_tokens_eq, scan_tokens_eq, pieces_joined hfirst, tokensFrom_append,
    tokensFrom_cons, htext, hstart, tokensFrom_moved hg (Nat.le_refl 1), List.dropLast_concat,
    List.map_append, List.append_assoc]
  rw [List.append_cons first '\n' second, Position.after_append, Position.after_append, hstart,
    ← hend]
  simp [token?, Token.moved, Token.endOfInput]

theorem scan_joined_faults {first second : List Char} (hfirst : (scan first).faults = [])
    (hsecond : (scan second).faults = []) : (scan (first ++ '\n' :: second)).faults = [] := by
  rw [scan_faults_eq_nil] at *
  rw [pieces_joined (scan_faults_eq_nil.mpr hfirst)]
  intro piece hpiece
  rcases List.mem_append.mp hpiece with hpiece | hpiece
  · exact hfirst piece hpiece
  · rcases List.mem_cons.mp hpiece with rfl | hpiece
    · rfl
    · exact hsecond piece hpiece

end

/-! ## Programs -/

open Grammar Parse

/-- The source is read as the program, and nothing is wrong with it. -/
structure ReadsAs (source : List Char) (p : List (Stmt Unit)) : Prop where
  scanned : (scan source).faults = []
  parsed : Program .nearest (scan source).tokens p
  resolved : Stmt.scopeFaultsAll {} [] p = []

theorem ReadsAs.wellFormed {source : List Char} {p : List (Stmt Unit)} (h : ReadsAs source p) :
    Stmt.WellFormedAll p :=
  h.parsed.wellFormed (Parse.spelled_scan source)

section

variable (im : Importer) (limit : ErrorLimit) (name : Option String) {source : String}

/-- A source is accepted if it is read as some program, which then is run. -/
theorem accepted?_eq_some (hfree : ImportFree (scan source.toList).tokens)
    (hlimit : limit.reachedBy 0 = some false) {q : List (Stmt Slot)} :
    (UnitReading.ofSource im limit name false source).accepted? = some q ↔
      ∃ p, ReadsAs source.toList p ∧ q = Stmt.resolveAll .none [] p := by
  obtain ⟨ts, eof, htokens, hk, hlex⟩ := scan_tokens source.toList
  rw [htokens] at hfree
  have hdecides := parseProgram_decides_ended im limit name
    (fun t ht => (hlex t ht).ne_eof) hk hfree hlimit
  have hscanned : (scan source.toList).diagnostics (sourceLines source) = [] ↔
      (scan source.toList).faults = [] := List.map_eq_nil_iff
  have hdiagnostics : ∀ r : ParseResult, r.diagnostics = [] ↔ r.faults = [] :=
    fun r => List.map_eq_nil_iff
  rw [← htokens] at hdecides
  generalize hr : parseProgram im limit (scan source.toList).tokens name = r at hdecides
  have hreading : (UnitReading.ofSource im limit name false source).accepted? = some q ↔
      ((scan source.toList).faults = [] ∧ r.faults = []) ∧
        Stmt.scopeFaultsAll {} [] r.program = [] ∧ Stmt.resolveAll .none [] r.program = q := by
    rw [← hscanned, ← hdiagnostics, ← List.append_eq_nil_iff, ← List.isEmpty_iff]
    simp only [UnitReading.ofSource, UnitReading.ofTokens, UnitReading.accepted?, hr, hdecides.ends,
      Bool.false_eq_true, if_false]
    cases hempty : ((scan source.toList).diagnostics (sourceLines source) ++
      r.diagnostics).isEmpty with
    | false => simp [hempty]
    | true => simp [resolveProgram, Resolution.diagnostics]
  rw [hreading]
  constructor
  · rintro ⟨⟨hfaults, hparsed⟩, hresolved, rfl⟩
    exact ⟨_, ⟨hfaults, (hdecides.tree hparsed _).mpr rfl, hresolved⟩, rfl⟩
  · rintro ⟨p, h, rfl⟩
    have hparsed := hdecides.accepts.mpr ⟨p, h.parsed.free⟩
    obtain rfl := (hdecides.tree hparsed p).mp h.parsed
    exact ⟨⟨h.scanned, hparsed⟩, h.resolved, rfl⟩

/-- Unless a fault is allowed, a parse ends before the first declaration. -/
theorem program_unread (hlimit : limit.reachedBy 0 ≠ some false) (n : Nat) {s : ParseState}
    (hs : s.faults = []) :
    ∃ halt, Parse.program im limit (n + 1) [] s = ⟨[], [], skipSemicolons s, halt⟩ ∧
      (limit.reachedBy 0 = some true → halt = none) := by
  rw [Parse.program]
  dsimp only
  cases (skipSemicolons s).ahead with
  | nil => exact ⟨none, rfl, fun _ => rfl⟩
  | cons t rest =>
      rw [show (skipSemicolons s).faults = [] from hs, List.length_nil]
      cases hreached : limit.reachedBy 0 with
      | none => exact ⟨some .unorderedLimit, rfl, fun h => by cases h⟩
      | some reached =>
          cases reached with
          | true => exact ⟨none, rfl, fun _ => rfl⟩
          | false => exact absurd hreached hlimit

/-- If not even one fault is allowed, nothing is read of a unit but its tokens. -/
theorem accepted?_of_reached {typed : Bool} (hlimit : limit.reachedBy 0 = some true)
    {q : List (Stmt Slot)} :
    (UnitReading.ofSource im limit name typed source).accepted? = some q ↔
      (scan source.toList).faults = [] ∧ q = [] := by
  simp only [UnitReading.ofSource]
  generalize (if typed then closeUnit (scan source.toList).tokens
    else (scan source.toList).tokens) = tokens
  obtain ⟨_, heq, hnone⟩ := program_unread im limit (by simp [hlimit]) (im.supply tokens)
    (rfl : (ParseState.ofTokens tokens).faults = [])
  obtain rfl := hnone hlimit
  have hfaults : (skipSemicolons (ParseState.ofTokens tokens)).faults = [] := rfl
  have hscanned : (scan source.toList).diagnostics (sourceLines source) = [] ↔
      (scan source.toList).faults = [] := List.map_eq_nil_iff
  simp only [UnitReading.ofTokens, UnitReading.accepted?, parseProgram, heq,
    ParseResult.diagnostics, ParseResult.faults, ParseState.note, hfaults, List.map_nil,
    List.append_nil]
  rw [← hscanned]
  cases (scan source.toList).diagnostics (sourceLines source) with
  | nil =>
      simp [resolveProgram, Resolution.diagnostics, Stmt.scopeFaultsAll, Stmt.resolveAll, eq_comm]
  | cons d ds => simp

theorem accepted?_stopped (hlimit : limit.reachedBy 0 = some true) {q : List (Stmt Slot)} :
    (UnitReading.ofSource im limit name false source).accepted? = some q ↔
      (scan source.toList).faults = [] ∧ q = [] :=
  accepted?_of_reached im limit name hlimit

/-- Unless a fault is allowed, only an empty program is accepted. -/
theorem accepted?_eq_nil (hlimit : limit.reachedBy 0 ≠ some false) {q : List (Stmt Slot)}
    (h : (UnitReading.ofSource im limit name false source).accepted? = some q) : q = [] := by
  obtain ⟨halt, heq, _⟩ := program_unread im limit hlimit
    (im.supply (scan source.toList).tokens)
    (rfl : (ParseState.ofTokens (scan source.toList).tokens).faults = [])
  have hparsed : (parseProgram im limit (scan source.toList).tokens name).program = [] := by
    simp only [parseProgram, heq]
    cases halt <;> rfl
  rw [UnitReading.accepted?] at h
  split at h
  · cases h
    simp only [UnitReading.ofSource, UnitReading.ofTokens, Bool.false_eq_true, if_false]
    split
    · rfl
    · split
      · rw [hparsed]
        rfl
      · rfl
  · cases h

end

/-! ## One behind the other -/

theorem Token.moved_keepsTexts (g : Position → Position) : KeepsTexts (Token.moved g) :=
  fun _ => ⟨rfl, rfl⟩

variable {first second : List Char} {p q : List (Stmt Unit)}

/-- Two programs, the second on a new line, are one program. The tokens of the second
are elsewhere. -/
theorem ReadsAs.joined (h : ReadsAs first p) (h' : ReadsAs second q) :
    ∃ g, ReadsAs (first ++ '\n' :: second)
      (p ++ Stmt.mapAll (Token.moved g) (fun _ => id) 0 q) := by
  obtain ⟨g, -, htokens⟩ := scan_joined second h.scanned
  refine ⟨g, scan_joined_faults h.scanned h'.scanned, ?_, ?_⟩
  · rw [htokens]
    exact h.parsed.append (h'.parsed.map (Token.moved_keepsKinds g))
  · rw [Stmt.scopeFaultsAll_append, h.resolved, Stmt.scopeFaultsAll_map (Token.moved_keepsTexts g),
      h'.resolved]
    rfl

theorem importFree_joined (hscanned : (scan first).faults = [])
    (h : ImportFree (scan first).tokens) (h' : ImportFree (scan second).tokens) :
    ImportFree (scan (first ++ '\n' :: second)).tokens := by
  obtain ⟨g, -, htokens⟩ := scan_joined second hscanned
  rw [htokens]
  intro t ht
  rcases List.mem_append.mp ht with ht | ht
  · exact h t (List.dropLast_subset _ ht)
  · obtain ⟨u, hu, rfl⟩ := List.mem_map.mp ht
    exact h' u hu

end Lox
