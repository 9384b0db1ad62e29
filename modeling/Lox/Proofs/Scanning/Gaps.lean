import Lox.Proofs.Joining.Reading
import Lox.Proofs.Scanning.Comments
import Lox.Proofs.Spelling
import Mathlib.Data.List.Induction

/-!
# What stands between the tokens

Every character of a source belongs to one token, or is skipped for one of few reasons.
What may be skipped is said here without the lexer: by what is written in the source at
an offset, with lines and columns counted from the source as a whole. The scan of any
source is such an account of it from the first character to the last, and its faults are
those of the skipped characters, in order.
-/

namespace Lox

/-- The line that an offset lies on. -/
def lineAt (source : List Char) (offset : Nat) : Nat :=
  1 + (source.take offset).count '\n'

/-- The distance of an offset from the last newline before it. -/
def columnAt (source : List Char) (offset : Nat) : Nat :=
  ((source.take offset).reverse.takeWhile (· != '\n')).length + 1

/-- The characters, other than those of names, that a lexeme or a comment begins with. -/
def signs : List Char :=
  ['(', ')', '{', '}', '[', ']', ',', '.', '-', '+', ';', '*', '?', ':', '!', '=', '<', '>',
    '/', '"']

/-- The character has a use outside of strings and comments. -/
def isKnown (c : Char) : Bool :=
  Piece.isBlank c || Piece.isNameChar c || signs.contains c

/-- What is left out of the tokens between two offsets, and the fault that it is. -/
inductive Skipped (source : List Char) : Nat → Nat → Option LexicalFault → Prop
  | blank {start : Nat} {c : Char} {rest : List Char} :
      source.drop start = c :: rest → Piece.isBlank c = true →
      Skipped source start (start + 1) none
  | lineComment {start : Nat} {text rest : List Char} :
      source.drop start = '/' :: '/' :: text ++ rest → '\n' ∉ text →
      rest.head?.all (· == '\n') = true →
      Skipped source start (start + (text.length + 2)) none
  | blockComment {start : Nat} {text rest : List Char} :
      source.drop start = text ++ rest → BlockComment text →
      Skipped source start (start + text.length) none
  | badCharacter {start : Nat} {c : Char} {rest : List Char} :
      source.drop start = c :: rest → isKnown c = false →
      Skipped source start (start + 1) (some (.unexpectedCharacter c))
  | openString {start : Nat} {text : List Char} :
      source.drop start = '"' :: text → '"' ∉ text →
      Skipped source start source.length (some .unterminatedString)
  | openComment {start : Nat} {rest : List Char} :
      source.drop start = '/' :: '*' :: rest →
      (∀ text, text <+: source.drop start → ¬ BlockComment text) →
      Skipped source start source.length (some .unterminatedComment)

/-- A stretch of source without a token, with the faults in it and their lines. -/
inductive Gap (source : List Char) : Nat → Nat → List (LexicalFault × Nat) → Prop
  | nil (offset : Nat) : Gap source offset offset []
  | cons {start next stop : Nat} {fault : Option LexicalFault}
      {found : List (LexicalFault × Nat)} :
      Skipped source start next fault → Gap source next stop found →
      Gap source start stop ((fault.map (·, lineAt source start)).toList ++ found)

/-- The token is what the source has at an offset. -/
structure Token.StandsAt (source : List Char) (offset : Nat) (t : Token) : Prop where
  kind : t.kind ≠ .eof
  nonempty : t.lexeme ≠ ""
  lexeme : (source.drop offset).take t.lexeme.length = t.lexeme.toList
  line : t.line = lineAt source offset
  column : t.column = columnAt source offset
  literal : t.kind = .string → ∃ text, t.lexeme = "\"" ++ text ++ "\"" ∧ t.literal = .text text

/-- From where to where there is no token, when the tokens stand at the offsets and the
source is looked at from `start` to `stop`. -/
def gaps (start : Nat) (placed : List (Nat × Token)) (stop : Nat) : List (Nat × Nat) :=
  match placed with
  | [] => [(start, stop)]
  | (offset, t) :: rest => (start, offset) :: gaps (offset + t.lexeme.length) rest stop

/-- Tokens at offsets, and faults in the gaps around them, that make up a source from
an offset on. -/
structure Tiles (source : List Char) (start : Nat) (placed : List (Nat × Token))
    (found : List (List (LexicalFault × Nat))) : Prop where
  standsAt : ∀ x ∈ placed, x.2.StandsAt source x.1
  ordered : ∀ gap ∈ gaps start placed source.length, gap.1 ≤ gap.2
  gaps : List.Forall₂ (fun gap found => Gap source gap.1 gap.2 found)
    (gaps start placed source.length) found

/-! ## Offsets and positions -/

theorem Position.after_eq (text : List Char) :
    Position.after {} text =
      ⟨1 + text.count '\n', (text.reverse.takeWhile (· != '\n')).length + 1⟩ := by
  induction text using List.reverseRecOn with
  | nil => rfl
  | append_singleton text c ih =>
      rw [after_append, ih, List.reverse_append, List.count_append]
      simp only [after, List.foldl_cons, List.foldl_nil, next, List.reverse_singleton,
        List.singleton_append, List.takeWhile_cons, List.count_singleton]
      by_cases hc : c = '\n'
      · simp [hc]; omega
      · simp [hc]

/-- Counting characters gives the line and the column of an offset. -/
theorem Position.after_before {source before rest : List Char} (h : source = before ++ rest) :
    Position.after {} before = ⟨lineAt source before.length, columnAt source before.length⟩ := by
  have htake : source.take before.length = before := by
    rw [h, List.take_left]
  rw [after_eq, lineAt, columnAt, htake]

/-! ## Pieces -/

namespace Piece

variable {source before r : List Char} {c : Char} {cs : List Char} {piece : Piece}

/-- What no lexeme, comment or gap begins with is none of the known characters. -/
theorem isKnown_eq_false (hsingle : singleKind? c = none) (hequal : equalKinds? c = none)
    (hslash : c ≠ '/') (hblank : isBlank c = false) (hquote : c ≠ '"')
    (hdigit : isDigit c = false) (hletter : isLetter c = false) : isKnown c = false := by
  have hsigns : signs.all (fun d => (singleKind? d).isSome || (equalKinds? d).isSome ||
      d == '/' || d == '"') = true := by
    decide
  rw [isKnown, hblank, isNameChar, hdigit, hletter, Bool.false_or, Bool.false_or, Bool.false_or,
    Bool.eq_false_iff]
  intro hmem
  have hsign := List.all_eq_true.mp hsigns c (List.contains_iff_mem.mp hmem)
  simp [hsingle, hequal, hslash, hquote] at hsign

theorem head?_dropWhile_newline (text : List Char) :
    (text.dropWhile (· != '\n')).head?.all (· == '\n') = true := by
  have h := List.head?_dropWhile_not (· != '\n') text
  cases hd : (text.dropWhile (· != '\n')).head? with
  | none => rfl
  | some c =>
      rw [hd] at h
      simpa using h

theorem not_mem_takeWhile_bne (d : Char) (text : List Char) : d ∉ text.takeWhile (· != d) := by
  intro h
  have := List.all_eq_true.mp List.all_takeWhile d h
  simp at this

/-- What follows a slash is skipped, unless the slash is a lexeme. -/
theorem afterSlash_skipped (h : afterSlash (cs ++ r) = (piece, r)) {start : Nat}
    (hsource : source.drop start = '/' :: cs ++ r)
    (hlength : r = [] → source.length = start + piece.text.length) :
    piece.form = .lexeme .slash ∨
      Skipped source start (start + piece.text.length) piece.fault? := by
  generalize htext : cs ++ r = text at h
  rw [List.cons_append, htext] at hsource
  revert h
  fun_cases afterSlash text with
  | case1 rest =>
      intro h
      obtain ⟨rfl, rfl⟩ := Prod.mk.inj h
      have hdrop : source.drop start = '/' :: '/' :: rest.takeWhile (· != '\n') ++
          rest.dropWhile (· != '\n') := by
        rw [hsource, List.cons_append, List.cons_append, List.takeWhile_append_dropWhile]
      exact .inr (.lineComment hdrop (not_mem_takeWhile_bne _ _) (head?_dropWhile_newline rest))
  | case2 rest inner after hcomment =>
      intro h
      obtain ⟨rfl, rfl⟩ := Prod.mk.inj h
      have hrest := comment_text 1 rest
      rw [hcomment] at hrest
      have hdrop : source.drop start = '/' :: '*' :: inner ++ after := by
        rw [hsource, ← hrest]
        rfl
      exact .inr (.blockComment hdrop (blockComment_of_comment hcomment))
  | case3 rest inner hcomment =>
      intro h
      obtain ⟨rfl, rfl⟩ := Prod.mk.inj h
      rw [← hlength rfl]
      refine .inr (.openComment hsource fun text htext => ?_)
      rw [hsource] at htext
      exact not_blockComment_of_comment hcomment htext
  | case4 =>
      intro h
      cases h
      exact .inl rfl

/-- A quote that is not closed is the last piece. -/
theorem afterQuote_skipped (h : afterQuote (cs ++ r) = (piece, r)) {start : Nat}
    (hsource : source.drop start = '"' :: cs ++ r)
    (hlength : r = [] → source.length = start + piece.text.length) :
    piece.form = .lexeme .string ∨
      Skipped source start (start + piece.text.length) piece.fault? := by
  have hall := List.takeWhile_append_dropWhile (p := (· != '"')) (l := cs ++ r)
  rw [afterQuote] at h
  split at h
  · next hdrop =>
      obtain ⟨rfl, rfl⟩ := Prod.mk.inj h
      rw [← hlength rfl]
      refine .inr (.openString ?_ (not_mem_takeWhile_bne '"' (cs ++ [])))
      rw [hdrop, List.append_nil] at hall
      rw [hall, hsource]
      rfl
  · cases h
    exact .inl rfl

/-- Every piece of a source is a lexeme, or is skipped. -/
theorem first_skipped (h : first c (cs ++ r) = (piece, r)) (htext : piece.text = c :: cs)
    {start : Nat} (hsource : source.drop start = c :: cs ++ r) :
    (∃ kind, piece.form = .lexeme kind) ∨
      Skipped source start (start + piece.text.length) piece.fault? := by
  have hlength : r = [] → source.length = start + piece.text.length := by
    rintro rfl
    have := congrArg List.length hsource
    rw [List.length_drop, List.append_nil, ← htext] at this
    have hpos : 0 < piece.text.length := by
      rw [htext]
      exact Nat.zero_lt_succ _
    omega
  generalize hrest : cs ++ r = rest at h
  revert h
  fun_cases first c rest
  · exact fun h => .inl ⟨_, congrArg (·.1.form) h.symm⟩
  · exact fun h => .inl ⟨_, congrArg (·.1.form) h.symm⟩
  · exact fun h => .inl ⟨_, congrArg (·.1.form) h.symm⟩
  · next hslash =>
      intro h
      subst hslash hrest
      exact (afterSlash_skipped h hsource hlength).imp_left fun h => ⟨_, h⟩
  · next hblank =>
      intro h
      obtain ⟨rfl, rfl⟩ := Prod.mk.inj h
      exact .inr (.blank hsource hblank)
  · next hquote =>
      intro h
      subst hquote hrest
      exact (afterQuote_skipped h hsource hlength).imp_left fun h => ⟨_, h⟩
  · exact fun h => .inl ⟨_, congrArg (·.1.form) h.symm⟩
  · exact fun h => .inl ⟨_, congrArg (·.1.form) h.symm⟩
  · next hsingle hequal hslash hblank hquote hdigit hletter =>
      intro h
      obtain ⟨rfl, rfl⟩ := Prod.mk.inj h
      refine .inr (.badCharacter hsource ?_)
      exact isKnown_eq_false hsingle hequal hslash (Bool.eq_false_iff.mpr hblank) hquote
        (Bool.eq_false_iff.mpr hdigit) (Bool.eq_false_iff.mpr hletter)

/-- A lexeme that is cut where an offset is stands there. -/
theorem standsAt (h : first c (cs ++ r) = (piece, r)) (htext : piece.text = c :: cs)
    (hsource : source = before ++ (c :: cs ++ r)) {t : Token}
    (ht : piece.token? (Position.after {} before) = some t) :
    t.StandsAt source before.length := by
  have hpiece : (first c (cs ++ r)).1 = piece := congrArg Prod.fst h
  have hlexeme : t.IsLexeme := ⟨_, c, cs ++ r, hpiece ▸ ht⟩
  rw [Position.after_before hsource, token?] at ht
  split at ht
  · next kind hform =>
      injection ht with ht
      subst ht
      refine ⟨hlexeme.ne_eof, ?_, ?_, rfl, rfl, ?_⟩
      · simp [htext]
      · rw [hsource, List.drop_left, String.length_ofList, htext, List.take_left,
          String.toList_ofList]
      · rintro rfl
        obtain ⟨text, hquoted⟩ := first_string (hpiece ▸ hform)
        rw [hpiece] at hquoted
        refine ⟨String.ofList text, ?_, ?_⟩
        · apply String.toList_inj.mp
          simp [hquoted]
        · simp [literal, hquoted]
  · cases ht

theorem fault?_of_lexeme {kind : TokenKind} (h : piece.form = .lexeme kind) :
    piece.fault? = none := by
  rw [fault?, h]

theorem token?_of_not_lexeme {p : Position} (h : ¬ ∃ kind, piece.form = .lexeme kind) :
    piece.token? p = none := by
  rw [token?]
  split
  · next kind hform => exact absurd ⟨kind, hform⟩ h
  · rfl

/-- What is broken off is followed by nothing. -/
theorem first_of_isOpen {rest : List Char} (h : (first c rest).1.isOpen = true) :
    (first c rest).2 = [] := by
  have hopen : ∀ {p : Piece} {r : List Char}, p.isOpen = false → p.isOpen = true → r = [] :=
    fun hfalse htrue => absurd (hfalse.symm.trans htrue) Bool.false_ne_true
  revert h
  fun_cases first c rest
  · exact hopen rfl
  · exact hopen rfl
  · exact hopen rfl
  · fun_cases afterSlash rest with
    | case1 => exact hopen rfl
    | case2 => exact hopen rfl
    | case3 => exact fun _ => rfl
    | case4 => exact hopen rfl
  · exact hopen rfl
  · rw [afterQuote]
    split
    · exact fun _ => rfl
    · exact hopen rfl
  · exact hopen rfl
  · exact hopen rfl
  · exact hopen rfl

theorem eq_nil_of_isOpen {ps : List Piece} (h : Tiled (piece :: ps))
    (hopen : piece.isOpen = true) : ps = [] := by
  obtain ⟨⟨c, cs, _, hfirst⟩, htiled⟩ := h
  have hrest : (first c (cs ++ textOf ps)).2 = [] :=
    first_of_isOpen (by rw [hfirst]; exact hopen)
  rw [hfirst] at hrest
  cases ps with
  | nil => rfl
  | cons next ps =>
      obtain ⟨⟨d, ds, htext, _⟩, _⟩ := htiled
      rw [textOf_cons, htext] at hrest
      cases hrest

/-- A fault that is not a bad character is that of a piece broken off. -/
theorem isOpen_or_unexpectedCharacter {fault : LexicalFault} (h : piece.fault? = some fault) :
    piece.isOpen = true ∨ ∃ c, fault = .unexpectedCharacter c := by
  revert h
  rw [fault?]
  split <;> intro h
  · cases h
    exact .inr ⟨_, rfl⟩
  · next _ hform => exact .inl (decide_eq_true (.inl hform))
  · next _ hform => exact .inl (decide_eq_true (.inr hform))
  · cases h

/-- The faults of pieces that lie side by side from `p` on. -/
def faultsFrom (p : Position) (ps : List Piece) : List (LexicalFault × Nat) :=
  (place p ps).filterMap fun (p, piece) => piece.fault?.map (·, p.line)

theorem faultsFrom_cons (p : Position) (piece : Piece) (ps : List Piece) :
    faultsFrom p (piece :: ps) =
      (piece.fault?.map (·, p.line)).toList ++ faultsFrom (p.after piece.text) ps := by
  simp only [faultsFrom, place, List.filterMap_cons]
  cases piece.fault? <;> rfl

/-- Only the last fault can be that of a string or a comment. -/
theorem faultsFrom_dropLast (p : Position) {ps : List Piece} (h : Tiled ps) :
    ∀ f ∈ (faultsFrom p ps).dropLast, ∃ c, f.1 = .unexpectedCharacter c := by
  induction ps generalizing p with
  | nil => exact List.forall_mem_nil _
  | cons piece ps ih =>
      have hrest := ih (p.after piece.text) h.2
      rw [faultsFrom_cons]
      cases hfault : piece.fault? with
      | none => exact hrest
      | some fault =>
          rcases isOpen_or_unexpectedCharacter hfault with hopen | hbad
          · rw [eq_nil_of_isOpen h hopen]
            exact List.forall_mem_nil _
          · cases hfaults : faultsFrom (p.after piece.text) ps with
            | nil => exact List.forall_mem_nil _
            | cons next faults =>
                rw [hfaults] at hrest
                exact List.forall_mem_cons.mpr ⟨hbad, hrest⟩

end Piece

/-- The first gap begins where the text does. -/
theorem gaps_eq_cons (placed : List (Nat × Token)) (stop : Nat) :
    ∃ next rest, ∀ start, gaps start placed stop = (start, next) :: rest := by
  cases placed with
  | nil => exact ⟨stop, [], fun _ => rfl⟩
  | cons x placed => exact ⟨x.1, gaps (x.1 + x.2.lexeme.length) placed stop, fun _ => rfl⟩

namespace Tiles

variable {source : List Char} {start next : Nat} {placed : List (Nat × Token)}
  {found : List (List (LexicalFault × Nat))}

/-- Something skipped in front belongs to the first gap. -/
theorem skip {fault : Option LexicalFault} (hskip : Skipped source start next fault)
    (hle : start ≤ next) (h : Tiles source next placed found) :
    ∃ found', Tiles source start placed found' ∧
      found'.flatten = (fault.map (·, lineAt source start)).toList ++ found.flatten := by
  obtain ⟨stop, rest, hgaps⟩ := gaps_eq_cons placed source.length
  obtain ⟨hstands, hordered, hfound⟩ := h
  rw [hgaps] at hordered hfound
  obtain ⟨hfirst, hrest⟩ := List.forall_mem_cons.mp hordered
  cases hfound with
  | @cons _ first _ others hgap hothers =>
      refine ⟨((fault.map (·, lineAt source start)).toList ++ first) :: others,
        ⟨hstands, ?_, ?_⟩, ?_⟩
      · rw [hgaps]
        exact List.forall_mem_cons.mpr ⟨Nat.le_trans hle hfirst, hrest⟩
      · rw [hgaps]
        exact .cons (.cons hskip hgap) hothers
      · rw [List.flatten_cons, List.flatten_cons, List.append_assoc]

/-- A token in front leaves no gap before it. -/
theorem token {t : Token} (ht : t.StandsAt source start)
    (h : Tiles source (start + t.lexeme.length) placed found) :
    Tiles source start ((start, t) :: placed) ([] :: found) where
  standsAt := List.forall_mem_cons.mpr ⟨ht, h.standsAt⟩
  ordered := List.forall_mem_cons.mpr ⟨Nat.le_refl start, h.ordered⟩
  gaps := .cons (.nil start) h.gaps

/-- Gaps without faults. -/
theorem clean (h : Tiles source start placed found) (hnone : ∀ faults ∈ found, faults = []) :
    ∀ gap ∈ Lox.gaps start placed source.length, Gap source gap.1 gap.2 [] := by
  obtain ⟨-, -, hgaps⟩ := h
  generalize Lox.gaps start placed source.length = pairs at hgaps ⊢
  induction hgaps with
  | nil => exact List.forall_mem_nil _
  | cons hgap _ ih =>
      obtain ⟨rfl, hrest⟩ := List.forall_mem_cons.mp hnone
      exact List.forall_mem_cons.mpr ⟨hgap, ih hrest⟩

end Tiles

/-- Pieces that tile the rest of a source account for it. -/
theorem tiles_of_tiled {source before : List Char} {ps : List Piece} (h : Piece.Tiled ps)
    (hsource : source = before ++ Piece.textOf ps) :
    ∃ placed found, Tiles source before.length placed found ∧
      Piece.tokensFrom (Position.after {} before) ps = placed.map (·.2) ∧
      Piece.faultsFrom (Position.after {} before) ps = found.flatten := by
  induction ps generalizing before with
  | nil =>
      have hlength : before.length = source.length := by
        rw [hsource, Piece.textOf, List.flatMap_nil, List.append_nil]
      refine ⟨[], [[]], ⟨List.forall_mem_nil _, ?_, ?_⟩, rfl, rfl⟩
      · exact List.forall_mem_singleton.mpr (Nat.le_of_eq hlength)
      · exact .cons (hlength ▸ .nil _) .nil
  | cons piece ps ih =>
      obtain ⟨⟨c, cs, htext, hfirst⟩, htiled⟩ := h
      rw [Piece.textOf_cons] at hsource
      obtain ⟨placed, found, htiles, htokens, hfaults⟩ :=
        ih htiled (hsource.trans (List.append_assoc ..).symm)
      rw [List.length_append] at htiles
      rw [Position.after_append] at htokens hfaults
      rw [htext] at hsource
      have hdrop : source.drop before.length = c :: cs ++ Piece.textOf ps := by
        rw [hsource, List.drop_left]
      rw [Piece.tokensFrom_cons, Piece.faultsFrom_cons, htokens, hfaults]
      by_cases hlexeme : ∃ kind, piece.form = .lexeme kind
      · obtain ⟨kind, hform⟩ := hlexeme
        have ht : ∃ t, piece.token? (Position.after {} before) = some t ∧
            t.lexeme.length = piece.text.length := by
          rw [Piece.token?, hform]
          exact ⟨_, rfl, String.length_ofList⟩
        obtain ⟨t, ht, hlength⟩ := ht
        refine ⟨(before.length, t) :: placed, [] :: found,
          .token (Piece.standsAt hfirst htext hsource ht) (hlength ▸ htiles), ?_, ?_⟩
        · rw [ht]
          rfl
        · rw [Piece.fault?_of_lexeme hform]
          rfl
      · have hskip := (Piece.first_skipped hfirst htext hdrop).resolve_left hlexeme
        obtain ⟨found', htiles', hflatten⟩ := htiles.skip hskip (Nat.le_add_right _ _)
        refine ⟨placed, found', htiles', ?_, ?_⟩
        · rw [Piece.token?_of_not_lexeme hlexeme]
          rfl
        · rw [hflatten, Position.after_before hsource]

/-- **A scan accounts for every character of a source.** Its tokens end with the end of
the input, at the end of the source. The others stand in the source one after the other,
each at an offset where the source reads like its lexeme and with the line and the column
of that offset, and what lies between them is skipped text. Each fault is that of a
skipped bad character or of a string or comment without an end, which can only come last.
A scan without reports has skipped nothing but blanks and complete comments. -/
theorem scan_accounts (source : List Char) :
    ∃ placed found, Tiles source 0 placed found ∧
      (scan source).tokens = placed.map (·.2) ++
        [Token.endOfInput (lineAt source source.length) (columnAt source source.length)] ∧
      (scan source).faults = found.flatten ∧
      (∀ f ∈ (scan source).faults.dropLast, ∃ c, f.1 = .unexpectedCharacter c) ∧
      ∀ lines, ((scan source).diagnostics lines).map (fun d => (d.code, d.line)) =
          found.flatten.map (fun f => (f.1.code, (f.2 : Int))) ∧
        ((scan source).diagnostics lines = [] →
          ∀ gap ∈ gaps 0 placed source.length, Gap source gap.1 gap.2 []) := by
  obtain ⟨htiled, htext⟩ := Piece.pieces_eq_iff.mp (rfl : pieces source = _)
  have hsource : source = [] ++ Piece.textOf (pieces source) := htext.symm
  obtain ⟨placed, found, htiles, htokens, hfaults⟩ := tiles_of_tiled htiled hsource
  have hend := Position.after_before (List.append_nil source).symm
  have hscan : (scan source).faults = found.flatten := hfaults
  refine ⟨placed, found, htiles, ?_, hscan, Piece.faultsFrom_dropLast {} htiled, fun lines =>
    ⟨?_, fun hnone => ?_⟩⟩
  · rw [scan_tokens_eq, hend]
    exact congrArg (· ++ _) htokens
  · rw [Scan.diagnostics, hscan, List.map_map]
    rfl
  · rw [Scan.diagnostics, List.map_eq_nil_iff, hscan, List.flatten_eq_nil_iff] at hnone
    exact htiles.clean hnone

end Lox
