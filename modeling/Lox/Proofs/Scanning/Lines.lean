import Lox.Proofs.Histories
import Lox.Proofs.Scanning.Gaps

/-!
# The lines that are shown

The line that is shown under a diagnostic is looked up by its number in the text of the unit
that was run. Tokens and lexical faults are numbered by newlines, and the lines that are shown
end at other characters as well. Up to the first of these the two agree: there a fault is shown
with the text between its newlines, and a token of the unit with a line that its lexeme stands
in, at its column. A carriage return before a newline belongs to the end of the line for both.

Nothing more can be said. A token that comes from an imported file, from an earlier unit or
from the end of what was typed is looked up in the same text.
-/

namespace Lox

/-- What stands before a newline, without the carriage return that may belong to it. -/
def withoutReturn (line : List Char) : List Char :=
  if line.getLast? = some '\r' then line.dropLast else line

/-- A text, cut at its newlines. -/
def newlineLines (source : List Char) : List (List Char) :=
  let lines := source.splitOn '\n'
  lines.dropLast.map withoutReturn ++ lines.getLast?.toList

/-- No line with a number up to this one has an end of line inside. -/
def PlainUpTo (source : List Char) (number : Nat) : Prop :=
  ∀ line ∈ (newlineLines source).take number, ∀ c ∈ line, isLineBreak c = false

/-- The text between the last newline of one text and the first one of the next. -/
def lineAround (before after : List Char) : List Char :=
  let line := (before.reverse.takeWhile (· != '\n')).reverse ++ after.takeWhile (· != '\n')
  if '\n' ∈ after then withoutReturn line else line

/-- The text between the newlines around an offset. -/
def lineText (source : List Char) (offset : Nat) : List Char :=
  lineAround (source.take offset) (source.drop offset)

/-- A line has the lexeme of a token, up to the first newline in it, at the column of the
token. -/
structure Token.StandsIn (t : Token) (line : String) : Prop where
  column : 1 ≤ t.column ∧ (t.column - 1).toNat ≤ line.length
  lexeme : withoutReturn (t.lexeme.toList.takeWhile (· != '\n')) <+:
    line.toList.drop (t.column - 1).toNat

/-! ## Carriage returns -/

section

variable {line rest : List Char}

/-- A carriage return at the end is taken away, or nothing. -/
theorem withoutReturn_cases (line : List Char) :
    line = withoutReturn line ++ ['\r'] ∨ line = withoutReturn line := by
  rw [withoutReturn]
  split
  · next h => exact .inl (List.dropLast_append_getLast? _ h).symm
  · exact .inr rfl

theorem withoutReturn_isPrefix (line : List Char) : withoutReturn line <+: line := by
  rw [withoutReturn]
  split
  · exact List.dropLast_prefix line
  · exact List.prefix_rfl

theorem withoutReturn_append (before : List Char) (h : rest ≠ []) :
    withoutReturn (before ++ rest) = before ++ withoutReturn rest := by
  rw [withoutReturn, withoutReturn, List.getLast?_append_of_ne_nil before h,
    List.dropLast_append_of_ne_nil h]
  split <;> rfl

theorem withoutReturn_ne_nil {c : Char} (h : c ≠ '\r') : withoutReturn (c :: rest) ≠ [] := by
  intro hnil
  obtain hreturn | hplain := withoutReturn_cases (c :: rest)
  · rw [hnil, List.nil_append, List.cons.injEq] at hreturn
    exact h hreturn.1
  · rw [hnil] at hplain
    cases hplain

theorem withoutReturn_mono (h : line <+: rest) : withoutReturn line <+: withoutReturn rest := by
  obtain hreturn | hplain := withoutReturn_cases rest
  · rw [hreturn, List.prefix_concat_iff] at h
    obtain heq | hprefix := h
    · rw [heq, ← hreturn]
    · exact (withoutReturn_isPrefix line).trans hprefix
  · rw [← hplain]
    exact (withoutReturn_isPrefix line).trans h

end

/-! ## Two ways to cut a text into lines -/

section

variable {line rest before after source : List Char}

theorem isLineBreak_ne {c : Char} (h : isLineBreak c = false) : c ≠ '\n' ∧ c ≠ '\r' := by
  constructor <;> rintro rfl <;> cases h

theorem splitLines_cons {c : Char} (h : isLineBreak c = false) (rest : List Char) :
    splitLines (c :: rest) = consLine c (splitLines rest) := by
  rw [splitLines.eq_def]
  split
  · next heq => cases heq
  · next heq =>
      obtain ⟨rfl, _⟩ := List.cons.inj heq
      exact absurd rfl (isLineBreak_ne h).2
  · next heq =>
      obtain ⟨rfl, rfl⟩ := List.cons.inj heq
      rw [h]
      rfl

/-- A first line is cut off by what ends it, with or without a carriage return. -/
theorem splitLines_newline (h : ∀ c ∈ withoutReturn line, isLineBreak c = false)
    (rest : List Char) :
    splitLines (line ++ '\n' :: rest) = withoutReturn line :: splitLines rest := by
  have hcut (body finish : List Char) (hfinish : splitLines finish = [] :: splitLines rest)
      (hbody : ∀ c ∈ body, isLineBreak c = false) :
      splitLines (body ++ finish) = body :: splitLines rest := by
    induction body with
    | nil => exact hfinish
    | cons c body ih =>
        obtain ⟨hc, hbody⟩ := List.forall_mem_cons.mp hbody
        rw [List.cons_append, splitLines_cons hc, ih hbody]
        rfl
  obtain hreturn | hplain := withoutReturn_cases line
  · conv => lhs; rw [hreturn, List.append_assoc]
    exact hcut _ _ rfl h
  · conv => lhs; rw [hplain]
    exact hcut _ _ rfl h

theorem splitLines_plain (h : ∀ c ∈ line, isLineBreak c = false) (hne : line ≠ []) :
    splitLines line = [line] := by
  induction line with
  | nil => exact absurd rfl hne
  | cons c line ih =>
      obtain ⟨hc, hline⟩ := List.forall_mem_cons.mp h
      rw [splitLines_cons hc]
      cases line with
      | nil => rfl
      | cons d line =>
          rw [ih hline (List.cons_ne_nil d line)]
          rfl

theorem forall_ne_newline (h : '\n' ∉ line) : ∀ c ∈ line, (c != '\n') = true :=
  fun _ hc => bne_iff_ne.mpr (ne_of_mem_of_not_mem hc h)

theorem newlineLines_newline (h : '\n' ∉ line) (rest : List Char) :
    newlineLines (line ++ '\n' :: rest) = withoutReturn line :: newlineLines rest := by
  have hsplit : (line ++ '\n' :: rest).splitOn '\n' = line :: rest.splitOn '\n' :=
    List.splitOnP_append_cons_of_forall_mem
      (fun _ hc => beq_eq_false_iff_ne.mpr (ne_of_mem_of_not_mem hc h)) '\n' rfl rest
  have hne : rest.splitOn '\n' ≠ [] := List.splitOnP_ne_nil _ rest
  rw [newlineLines, newlineLines, hsplit, List.dropLast_cons_of_ne_nil hne, List.map_cons,
    List.getLast?_cons_of_ne_nil hne, List.cons_append]

theorem newlineLines_plain (h : '\n' ∉ line) : newlineLines line = [line] := by
  have hsplit : line.splitOn '\n' = [line] :=
    List.splitOnP_eq_singleton fun _ hc => beq_eq_false_iff_ne.mpr (ne_of_mem_of_not_mem hc h)
  rw [newlineLines, hsplit]
  rfl

theorem takeWhile_plain (h : '\n' ∉ line) : line.takeWhile (· != '\n') = line := by
  simpa using (Piece.takeWhile_append_stop (r := []) (forall_ne_newline h) rfl).1

/-- A text has a first line and goes on behind a newline, or it is one line. -/
theorem newline_or_plain (source : List Char) :
    (∃ line rest, source = line ++ '\n' :: rest ∧ '\n' ∉ line) ∨ '\n' ∉ source := by
  by_cases h : '\n' ∈ source
  · obtain ⟨line, rest, heq, hline⟩ := List.eq_append_cons_of_mem h
    exact .inl ⟨line, rest, heq, hline⟩
  · exact .inr h

/-- Where no line has an end inside, a line is shown as it is cut off by newlines. The exception
is an empty line at the end, which is not shown. -/
theorem getElem?_splitLines {i : Nat} (h : PlainUpTo source (i + 1)) :
    (splitLines source)[i]? = (newlineLines source)[i]? ∨
      (splitLines source)[i]? = none ∧ (newlineLines source)[i]? = some [] := by
  induction i generalizing source with
  | zero =>
      rcases newline_or_plain source with ⟨line, rest, rfl, hline⟩ | hsource
      · rw [PlainUpTo, newlineLines_newline hline] at h
        rw [newlineLines_newline hline, splitLines_newline (h _ List.mem_cons_self)]
        exact .inl rfl
      · rw [PlainUpTo, newlineLines_plain hsource] at h
        rw [newlineLines_plain hsource]
        cases source with
        | nil => exact .inr ⟨rfl, rfl⟩
        | cons c rest =>
            rw [splitLines_plain (h _ List.mem_cons_self) (List.cons_ne_nil c rest)]
            exact .inl rfl
  | succ i ih =>
      rcases newline_or_plain source with ⟨line, rest, rfl, hline⟩ | hsource
      · rw [PlainUpTo, newlineLines_newline hline, List.take_succ_cons] at h
        obtain ⟨hfirst, hrest⟩ := List.forall_mem_cons.mp h
        rw [newlineLines_newline hline, splitLines_newline hfirst, List.getElem?_cons_succ,
          List.getElem?_cons_succ]
        exact ih hrest
      · rw [PlainUpTo, newlineLines_plain hsource] at h
        rw [newlineLines_plain hsource]
        left
        cases source with
        | nil => rfl
        | cons c rest =>
            rw [splitLines_plain (h _ List.mem_cons_self) (List.cons_ne_nil c rest)]

/-! ## The line of an offset -/

theorem getElem?_newlineLines_zero (source : List Char) :
    (newlineLines source)[0]? = some (lineAround [] source) := by
  rcases newline_or_plain source with ⟨line, rest, rfl, hline⟩ | hsource
  · rw [newlineLines_newline hline, lineAround,
      if_pos (List.mem_append_right _ List.mem_cons_self),
      List.takeWhile_append_of_pos (forall_ne_newline hline)]
    simp
  · rw [newlineLines_plain hsource, lineAround, if_neg hsource, takeWhile_plain hsource]
    rfl

theorem getElem?_newlineLines_count (before after : List Char) :
    (newlineLines (before ++ after))[before.count '\n']? = some (lineAround before after) := by
  generalize hcount : before.count '\n' = n
  induction n generalizing before with
  | zero =>
      have hbefore : '\n' ∉ before := List.count_eq_zero.mp hcount
      have hreverse : '\n' ∉ before.reverse := fun h => hbefore (List.mem_reverse.mp h)
      simp only [getElem?_newlineLines_zero, lineAround,
        List.takeWhile_append_of_pos (forall_ne_newline hbefore), takeWhile_plain hreverse,
        List.reverse_reverse, List.mem_append, hbefore, false_or, List.reverse_nil,
        List.takeWhile_nil, List.nil_append]
  | succ n ih =>
      rcases newline_or_plain before with ⟨line, rest, rfl, hline⟩ | hbefore
      · have hrest : rest.count '\n' = n := by
          rw [List.count_append, List.count_eq_zero.mpr hline, List.count_cons_self] at hcount
          omega
        have hsame : (line ++ '\n' :: rest).reverse.takeWhile (· != '\n') =
            rest.reverse.takeWhile (· != '\n') := by
          rw [List.reverse_append, List.reverse_cons, List.append_assoc, List.singleton_append,
            List.takeWhile_append]
          split
          · next hlength =>
              have hself : rest.reverse.takeWhile (· != '\n') = rest.reverse :=
                (List.takeWhile_prefix _).eq_of_length hlength
              simp [hself]
          · rfl
        rw [List.append_assoc, List.cons_append, newlineLines_newline hline,
          List.getElem?_cons_succ, ih rest hrest, lineAround, lineAround, hsame]
      · rw [List.count_eq_zero.mpr hbefore] at hcount
        cases hcount

/-- The line of an offset is the one with its number. -/
theorem getElem?_newlineLines (source : List Char) (offset : Nat) :
    (newlineLines source)[lineAt source offset - 1]? = some (lineText source offset) := by
  have hline := getElem?_newlineLines_count (source.take offset) (source.drop offset)
  rw [List.take_append_drop] at hline
  rwa [lineAt, Nat.add_sub_cancel_left]

/-- What stands before something on its line is there, and what comes up to the newline. -/
theorem lineAround_eq (before : List Char)
    (h : after = [] ∨ ∃ c rest, after = c :: rest ∧ c ≠ '\n' ∧ c ≠ '\r') :
    ∃ tail, lineAround before after = (before.reverse.takeWhile (· != '\n')).reverse ++ tail ∧
      withoutReturn (after.takeWhile (· != '\n')) <+: tail ∧ (after ≠ [] → tail ≠ []) := by
  obtain rfl | ⟨c, rest, rfl, hnewline, hreturn⟩ := h
  · exact ⟨[], rfl, List.prefix_rfl, fun h => absurd rfl h⟩
  · have hhead : (c :: rest).takeWhile (· != '\n') = c :: rest.takeWhile (· != '\n') := by
      rw [List.takeWhile_cons, if_pos (bne_iff_ne.mpr hnewline)]
    rw [lineAround, hhead]
    split
    · exact ⟨_, withoutReturn_append _ (List.cons_ne_nil c _), List.prefix_rfl,
        fun _ => withoutReturn_ne_nil hreturn⟩
    · exact ⟨_, rfl, withoutReturn_isPrefix _, fun _ => List.cons_ne_nil c _⟩

end

/-! ## What is shown for an offset -/

section

variable {source : String} {offset : Nat}

theorem lineAt?_sourceLines (source : String) (i : Nat) :
    lineAt? (sourceLines source) ((i + 1 : Nat) : Int) =
      (splitLines source.toList)[i]?.map String.ofList := by
  rw [lineAt?, if_pos (by omega), sourceLines, List.getElem?_map]
  congr 2
  omega

/-- What is shown for an offset is the text between the newlines around it. An empty text may
not be shown. -/
theorem shown_of_offset (h : PlainUpTo source.toList (lineAt source.toList offset)) :
    (∀ line, lineAt? (sourceLines source) (lineAt source.toList offset) = some line →
      line = String.ofList (lineText source.toList offset)) ∧
    (lineText source.toList offset ≠ [] →
      lineAt? (sourceLines source) (lineAt source.toList offset) =
        some (String.ofList (lineText source.toList offset))) := by
  have htext := getElem?_newlineLines source.toList offset
  obtain ⟨i, hi⟩ : ∃ i, lineAt source.toList offset = i + 1 :=
    ⟨(source.toList.take offset).count '\n', Nat.add_comm 1 _⟩
  rw [hi] at h htext
  rw [Nat.add_sub_cancel] at htext
  rw [hi, lineAt?_sourceLines]
  rcases getElem?_splitLines h with heq | ⟨hnone, hempty⟩
  · rw [heq, htext]
    exact ⟨fun line hline => (Option.some.inj hline).symm, fun _ => rfl⟩
  · rw [htext, Option.some.injEq] at hempty
    rw [hnone]
    exact ⟨fun _ hline => (Option.some_ne_none _ hline.symm).elim, fun hne => absurd hempty hne⟩

theorem takeWhile_take_isPrefix (n : Nat) (text : List Char) :
    (text.take n).takeWhile (· != '\n') <+: text.takeWhile (· != '\n') := by
  conv => rhs; rw [← List.take_append_drop n text, List.takeWhile_append]
  split
  · exact (List.takeWhile_prefix _).trans (List.prefix_append _ _)
  · exact List.prefix_rfl

/-- At an offset the source is at its end, or no end of a line is there. -/
def Inside (source : List Char) (offset : Nat) : Prop :=
  source.drop offset = [] ∨ ∃ c rest, source.drop offset = c :: rest ∧ c ≠ '\n' ∧ c ≠ '\r'

/-- What stands in a line stands in its text. -/
theorem Inside.lineText_ne_nil {source : List Char} (h : Inside source offset)
    (hne : source.drop offset ≠ []) : lineText source offset ≠ [] := by
  obtain ⟨tail, heq, _, htail⟩ := lineAround_eq (source.take offset) h
  rw [lineText, heq]
  exact List.append_ne_nil_of_right_ne_nil _ (htail hne)

/-- What stands at an offset stands in the text of its line, at its column. -/
theorem Inside.standsIn {source : List Char} {t : Token} {length : Nat} (h : Inside source offset)
    (hcolumn : t.column = columnAt source offset)
    (hlexeme : (source.drop offset).take length = t.lexeme.toList) :
    t.StandsIn (String.ofList (lineText source offset)) := by
  obtain ⟨tail, heq, hprefix, _⟩ := lineAround_eq (source.take offset) h
  have hbefore : (t.column - 1).toNat =
      ((source.take offset).reverse.takeWhile (· != '\n')).reverse.length := by
    rw [hcolumn, columnAt, List.length_reverse]
    omega
  refine ⟨⟨by rw [hcolumn, columnAt]; omega, ?_⟩, ?_⟩
  · rw [hbefore, String.length_ofList, lineText, heq, List.length_append]
    exact Nat.le_add_right _ _
  · rw [hbefore, String.toList_ofList, lineText, heq, List.drop_left, ← hlexeme]
    exact (withoutReturn_mono (takeWhile_take_isPrefix length _)).trans hprefix

end

/-! ## Tokens and faults of a text -/

/-- No lexeme begins with an end of a line. -/
theorem Token.IsLexeme.lexeme_eq_cons {t : Token} (h : t.IsLexeme) :
    ∃ c cs, t.lexeme.toList = c :: cs ∧ c ≠ '\n' ∧ c ≠ '\r' := by
  obtain ⟨p, c, rest, h⟩ := h
  obtain ⟨cs, htext, _⟩ := Piece.first_text c rest
  rw [Piece.token?] at h
  split at h
  · next kind hform =>
      cases h
      refine ⟨c, cs, by rw [String.toList_ofList, htext], ?_, ?_⟩ <;>
      · rintro rfl
        cases hform
  · cases h

theorem scan_tiles (source : List Char) :
    ∃ placed found, Tiles source 0 placed found ∧
      Piece.tokensFrom {} (pieces source) = placed.map (·.2) ∧
      (scan source).faults = found.flatten := by
  obtain ⟨htiled, htext⟩ := Piece.pieces_eq_iff.mp (rfl : pieces source = _)
  have hsource : source = [] ++ Piece.textOf (pieces source) := htext.symm
  exact tiles_of_tiled htiled hsource

/-- Where a token of a text is: its line and column, what is written there, and that this
stands in a line. -/
theorem scan_token_offset {source : List Char} {t : Token} (h : t ∈ (scan source).tokens) :
    ∃ offset length, t.line = lineAt source offset ∧ t.column = columnAt source offset ∧
      (source.drop offset).take length = t.lexeme.toList ∧ Inside source offset ∧
      (t.kind ≠ .eof → source.drop offset ≠ []) := by
  obtain ⟨placed, found, htiles, htokens, _⟩ := scan_tiles source
  obtain ⟨ts, eof, hsame, _, hlexemes⟩ := scan_tokens source
  have hts : ts = Piece.tokensFrom {} (pieces source) :=
    List.append_inj_left' (hsame.symm.trans (scan_tokens_eq source)) rfl
  rw [scan_tokens_eq, Position.after_before (List.append_nil source).symm] at h
  rcases List.mem_append.mp h with hmem | hend
  · have hlexeme : t.IsLexeme := hlexemes t (hts ▸ hmem)
    obtain ⟨⟨offset, u⟩, hplaced, rfl⟩ := List.mem_map.mp (htokens ▸ hmem)
    have hstands := htiles.standsAt _ hplaced
    obtain ⟨c, cs, hcs, hc⟩ := hlexeme.lexeme_eq_cons
    obtain ⟨rest, hrest⟩ : ∃ rest, source.drop offset = c :: rest := by
      have hprefix := List.take_prefix u.lexeme.length (source.drop offset)
      rw [hstands.lexeme.trans hcs] at hprefix
      obtain ⟨rest, hrest⟩ := hprefix
      exact ⟨cs ++ rest, hrest.symm⟩
    exact ⟨offset, u.lexeme.length, hstands.line, hstands.column, hstands.lexeme,
      .inr ⟨c, rest, hrest, hc⟩, fun _ => hrest ▸ List.cons_ne_nil c rest⟩
  · rw [List.mem_singleton.mp hend]
    exact ⟨source.length, 0, rfl, rfl, rfl, .inl List.drop_length, fun hne => absurd rfl hne⟩

/-- A fault begins with a character that ends no line. -/
theorem Skipped.begins {source : List Char} {start stop : Nat} {fault : LexicalFault}
    (h : Skipped source start stop (some fault)) :
    ∃ c rest, source.drop start = c :: rest ∧ c ≠ '\n' ∧ c ≠ '\r' := by
  cases h with
  | badCharacter hdrop hknown =>
      refine ⟨_, _, hdrop, ?_, ?_⟩ <;>
      · rintro rfl
        cases hknown
  | openString hdrop _ | openComment hdrop _ => exact ⟨_, _, hdrop, by decide⟩

theorem Gap.begins {source : List Char} {start stop : Nat} {found : List (LexicalFault × Nat)}
    (h : Gap source start stop found) :
    ∀ f ∈ found, ∃ offset, f.2 = lineAt source offset ∧ lineText source offset ≠ [] := by
  induction h with
  | nil => exact List.forall_mem_nil _
  | @cons start next stop fault found hskip _ ih =>
      refine List.forall_mem_append.mpr ⟨fun f hf => ?_, ih⟩
      cases fault with
      | none => cases hf
      | some fault =>
          rw [List.mem_singleton.mp hf]
          obtain ⟨c, rest, hdrop, hc⟩ := hskip.begins
          have hinside : Inside source start := .inr ⟨c, rest, hdrop, hc⟩
          exact ⟨start, rfl, hinside.lineText_ne_nil (hdrop ▸ List.cons_ne_nil c rest)⟩

/-- Where a fault of a text is. -/
theorem scan_fault_offset {source : List Char} {f : LexicalFault × Nat}
    (h : f ∈ (scan source).faults) :
    ∃ offset, f.2 = lineAt source offset ∧ lineText source offset ≠ [] := by
  obtain ⟨placed, found, htiles, _, hfaults⟩ := scan_tiles source
  rw [hfaults] at h
  obtain ⟨faults, hmem, hf⟩ := List.mem_flatten.mp h
  obtain ⟨i, hi, rfl⟩ := List.getElem_of_mem hmem
  have hlength := htiles.gaps.length_eq
  exact ((List.forall₂_iff_get.mp htiles.gaps).2 i (hlength ▸ hi) hi).begins f hf

/-! ## Reports -/

/-- The diagnostics that a unit was reported with. -/
def UnitReport.reported (r : UnitReport) : List Diagnostic :=
  match r.outcome with
  | .rejected faults => faults
  | .failed e => [e.toDiagnostic]
  | _ => []

/-- What a report can be made of: a fault of the scan, or something at a token, without a
line. -/
inductive Diagnostic.Reportable (source : String) : Diagnostic → Prop
  | lexical {f : LexicalFault × Nat} :
      f ∈ (scan source.toList).faults →
      Reportable source (f.1.toDiagnostic f.2 (lineAt? (sourceLines source) f.2))
  | atToken {d : Diagnostic} {t : Token} :
      d.token = some t → d.line = t.line → d.sourceLine = none → Reportable source d

theorem UnitReading.reportable {im : Importer} {limit : ErrorLimit} {name : Option String}
    {typed : Bool} {source : String} :
    ∀ d ∈ (ofSource im limit name typed source).faults, d.Reportable source := by
  have hfound : ∀ d ∈ (scan source.toList).diagnostics (sourceLines source),
      d.Reportable source := by
    intro d hd
    obtain ⟨f, hf, rfl⟩ := List.mem_map.mp hd
    exact .lexical hf
  have hparsed : ∀ r : ParseResult, ∀ d ∈ r.diagnostics, d.Reportable source := by
    intro r d hd
    obtain ⟨f, _, rfl⟩ := List.mem_map.mp hd
    exact .atToken rfl rfl rfl
  have hboth : ∀ r : ParseResult,
      ∀ d ∈ (scan source.toList).diagnostics (sourceLines source) ++ r.diagnostics,
        d.Reportable source :=
    fun r => List.forall_mem_append.mpr ⟨hfound, hparsed r⟩
  simp only [ofSource, ofTokens]
  generalize (if typed then closeUnit (scan source.toList).tokens
    else (scan source.toList).tokens) = tokens
  generalize parseProgram im limit tokens name = r
  cases r.halt with
  | some halt => exact hboth r
  | none =>
      dsimp only
      split
      · intro d hd
        obtain ⟨v, _, rfl⟩ := List.mem_map.mp hd
        exact .atToken rfl rfl rfl
      · exact hboth r

namespace Session

variable (s : Session) {source : String} {name : Option String} {typed : Bool}

theorem reportable :
    ∀ d ∈ (s.run source name typed).1.reported, d.Reportable source := by
  have hreading := @UnitReading.reportable s.importer s.settings.errorLimit name typed source
  rw [run_report, reading]
  simp only [respond]
  generalize UnitReading.ofSource s.importer s.settings.errorLimit name typed source = r
    at hreading
  cases r.halt with
  | some halt => exact List.forall_mem_nil _
  | none =>
      cases r.faults.isEmpty with
      | false => exact hreading
      | true =>
          simp only [executed, if_true]
          generalize s.machine.interpretWith stepBudget r.program = finish
          obtain ⟨finish, m⟩ := finish
          cases finish with
          | error e => exact List.forall_mem_singleton.mpr (.atToken rfl rfl rfl)
          | _ => exact List.forall_mem_nil _

/-- The texts that a run logs are those of its diagnostics, each with its line filled in. -/
theorem text_mem_log (text : String) :
    .text text ∈ (s.run source name typed).1.log ↔
      ∃ d ∈ (s.run source name typed).1.reported,
        .text text = s.describe (sourceLines source) d := by
  have hnotes : ∀ notes : List Note, LogEntry.text text ∉ notes.map LogEntry.note := by
    intro notes h
    obtain ⟨_, _, h⟩ := List.mem_map.mp h
    cases h
  rw [run_report]
  simp only [respond]
  generalize s.reading source name typed = r
  cases r.halt with
  | some halt => simp [UnitReport.reported, hnotes]
  | none =>
      cases r.faults.isEmpty with
      | false => simp [UnitReport.reported, hnotes, eq_comm]
      | true =>
          simp only [executed, if_true]
          generalize s.machine.interpretWith stepBudget r.program = finish
          obtain ⟨finish, m⟩ := finish
          cases finish <;> simp [UnitReport.reported, hnotes]

/-- What a session shows under its diagnostics. Its texts are those of the diagnostics it
reports, each with the line that has its number in the text of the unit. Where lines end at
newlines alone or with a carriage return before them, up to the line in question, a fault of the
scan is shown with the text between the newlines before and after it, and a diagnostic at a token
of the unit with a line that the lexeme stands in, at the column of the token. -/
theorem shownLines_hold (s : Session) (source : String) (name : Option String) (typed : Bool) :
    let lines := sourceLines source
    let report := (s.run source name typed).1
    (∀ text, .text text ∈ report.log ↔ ∃ d ∈ report.reported, .text text = s.describe lines d) ∧
    ∀ d ∈ report.reported,
      (d.token = none → ∃ number : Nat, d.line = number ∧
        (PlainUpTo source.toList number → ∃ text,
          (newlineLines source.toList)[number - 1]? = some text ∧
          (d.locate lines).sourceLine = some (String.ofList text))) ∧
      ∀ t, d.token = some t → t ∈ (scan source.toList).tokens →
        PlainUpTo source.toList t.line.toNat →
        (t.kind ≠ .eof → ∃ line, (d.locate lines).sourceLine = some line) ∧
        ∀ line, (d.locate lines).sourceLine = some line → t.StandsIn line := by
  intro lines report
  refine ⟨s.text_mem_log, fun d hd => ?_⟩
  cases s.reportable d hd with
  | @lexical f hf =>
      refine ⟨fun _ => ⟨f.2, rfl, fun hplain => ?_⟩, fun t ht => by cases ht⟩
      obtain ⟨offset, hline, hne⟩ := scan_fault_offset hf
      rw [hline] at hplain ⊢
      have hshown := (shown_of_offset hplain).2 hne
      refine ⟨_, getElem?_newlineLines source.toList offset, ?_⟩
      simp only [LexicalFault.toDiagnostic, Diagnostic.locate, hshown]
  | @atToken d t ht hdline hnone =>
      refine ⟨fun h => absurd (ht.symm.trans h) (Option.some_ne_none t), fun u hu hmem hplain => ?_⟩
      obtain rfl : t = u := Option.some.inj (ht.symm.trans hu)
      obtain ⟨offset, length, hline, hcolumn, hlexeme, hinside, hne⟩ := scan_token_offset hmem
      rw [hline, Int.toNat_natCast] at hplain
      obtain ⟨honly, hshown⟩ := shown_of_offset hplain
      simp only [Diagnostic.locate, hnone, hdline, hline]
      refine ⟨fun hk => ⟨_, hshown (hinside.lineText_ne_nil (hne hk))⟩, fun line hsource => ?_⟩
      rw [honly line hsource]
      exact hinside.standsIn hcolumn hlexeme

/-- A bad character, and behind it an unexpected string that goes on on the next line. The lines
end with carriage returns. -/
theorem shownLines_hold_string :
    let s := bare {} {} ⟨[], false⟩ (fun _ => 0)
    let source := "print 1;\r\n@ print 1 \"x\r\ny\";"
    let lines := sourceLines source
    let report := (s.run source none false).1
    (∃ d ∈ report.reported, d.token = none ∧ d.line = (2 : Nat) ∧ PlainUpTo source.toList 2 ∧
      ∃ text, (newlineLines source.toList)[1]? = some text ∧
        (d.locate lines).sourceLine = some (String.ofList text)) ∧
    ∃ d ∈ report.reported, ∃ t, d.token = some t ∧ t ∈ (scan source.toList).tokens ∧
      t.lexeme = "\"x\r\ny\"" ∧ PlainUpTo source.toList t.line.toNat ∧
      ∃ line, (d.locate lines).sourceLine = some line ∧ t.StandsIn line := by
  intro s source lines report
  have hplain : PlainUpTo source.toList 2 := by
    have hall : ((newlineLines source.toList).take 2).all
        (fun line => line.all fun c => !isLineBreak c) = true := by
      decide +kernel
    simpa [PlainUpTo] using hall
  obtain ⟨-, hshown⟩ := shownLines_hold s source none false
  constructor
  · have hfault : report.reported[0]?.map (fun d => (d.token, d.line)) = some (none, 2) := by
      decide +kernel
    obtain ⟨d, hd, hfault⟩ := Option.map_eq_some_iff.mp hfault
    obtain ⟨htoken, hline⟩ := Prod.mk.inj hfault
    have hmem : d ∈ report.reported := List.mem_of_getElem? hd
    obtain ⟨number, hnumber, h⟩ := (hshown d hmem).1 htoken
    obtain rfl : 2 = number := Int.ofNat_inj.mp (hline.symm.trans hnumber)
    exact ⟨d, hmem, htoken, hline, hplain, h hplain⟩
  · have htoken : report.reported[1]?.bind (·.token) = (scan source.toList).tokens[5]? := by
      decide +kernel
    have hstring : (scan source.toList).tokens[5]?.map (fun t => (t.lexeme, t.line, t.kind)) =
        some ("\"x\r\ny\"", 2, .string) := by
      decide +kernel
    obtain ⟨t, ht, hstring⟩ := Option.map_eq_some_iff.mp hstring
    simp only [Prod.mk.injEq] at hstring
    obtain ⟨hlexeme, hline, hkind⟩ := hstring
    rw [ht] at htoken
    obtain ⟨d, hd, htoken⟩ := Option.bind_eq_some_iff.mp htoken
    have hmem : d ∈ report.reported := List.mem_of_getElem? hd
    have hmem' : t ∈ (scan source.toList).tokens := List.mem_of_getElem? ht
    have hplain' : PlainUpTo source.toList t.line.toNat := by rwa [hline]
    obtain ⟨hsome, hstands⟩ := (hshown d hmem).2 t htoken hmem' hplain'
    obtain ⟨line, hsource⟩ := hsome (by rw [hkind]; decide)
    exact ⟨d, hmem, t, htoken, hmem', hlexeme, hplain', line, hsource, hstands line hsource⟩

end Session
end Lox
