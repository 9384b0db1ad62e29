import Lox.Proofs.Joining.Reading
import Lox.Proofs.Spelling

/-!
# Lexing undoes spelling

A lexeme that is followed by a space, or by nothing, is cut as that lexeme: no sign goes
on with a space, and neither does a word or a number. So a line of lexemes with single
spaces between them is read back as it was written. The lexemes of any source are such
lexemes, so their order is all that its layout and its comments leave to the parser.
-/

namespace Lox

/-- The text is a way to write a token of the kind, and stands for the constant. -/
inductive Spelled : TokenKind → List Char → Constant → Prop
  | sign {kind : TokenKind} :
      kind.isFree = false → kind ≠ .eof → Spelled kind kind.spelling.toList .nil
  | name {word : List Char} :
      Piece.IsWord word → TokenKind.keywords.lookup (String.ofList word) = none →
      Spelled .identifier word .nil
  | whole {d : Char} {digits : List Char} :
      (∀ c ∈ d :: digits, Piece.isDigit c = true) →
      Spelled .number (d :: digits) (.number (readNumeral (d :: digits)))
  | decimal {d e : Char} {digits part : List Char} :
      (∀ c ∈ d :: digits, Piece.isDigit c = true) → (∀ c ∈ e :: part, Piece.isDigit c = true) →
      Spelled .number (d :: digits ++ '.' :: e :: part)
        (.number (readNumeral (d :: digits ++ '.' :: e :: part)))
  | text {text : List Char} :
      '"' ∉ text → Spelled .string ('"' :: text ++ ['"']) (.text (String.ofList text))

/-- A legal spelling of a token. -/
structure Spelling where
  kind : TokenKind
  text : List Char
  literal : Constant
  legal : Spelled kind text literal

/-- What a token says, wherever it stands. -/
def Token.content (t : Token) : TokenKind × String × Constant :=
  (t.kind, t.lexeme, t.literal)

namespace Spelling

/-- What the token with this spelling says. -/
def content (s : Spelling) : TokenKind × String × Constant :=
  (s.kind, String.ofList s.text, s.literal)

/-- The piece that the spelling is cut as. -/
def piece (s : Spelling) : Piece :=
  ⟨.lexeme s.kind, s.text⟩

end Spelling

/-- The lexemes in one line, with single spaces between them. -/
def spaced (lexemes : List (List Char)) : List Char :=
  [' '].intercalate lexemes

namespace Piece

/-- No lexeme goes on in what follows: a space, or nothing. -/
inductive Stops : List Char → Prop
  | finish : Stops []
  | space (rest : List Char) : Stops (' ' :: rest)

theorem Stops.head {r : List Char} (h : Stops r) {q : Char → Bool} (hq : q ' ' = false) :
    r.head?.any q = false := by
  cases h with
  | finish => rfl
  | space => exact hq

theorem Stops.fraction {r : List Char} (h : Stops r) : fraction r = [] := by
  cases h <;> rfl

/-- The text is cut as a lexeme of the kind wherever it stops. -/
def CutAs (kind : TokenKind) (text : List Char) : Prop :=
  ∃ c cs, text = c :: cs ∧ ∀ r, Stops r → first c (cs ++ r) = (⟨.lexeme kind, text⟩, r)

theorem cutAs_word {word : List Char} (h : IsWord word) :
    CutAs (.ofWord (String.ofList word)) word := by
  obtain ⟨c, cs, rfl, hc, hcs⟩ := h
  exact ⟨c, cs, rfl, fun r hr => first_ofWord hc hcs (hr.head rfl)⟩

theorem cutAs_whole {d : Char} {digits : List Char} (h : ∀ c ∈ d :: digits, isDigit c = true) :
    CutAs .number (d :: digits) := by
  obtain ⟨hd, hdigits⟩ := List.forall_mem_cons.mp h
  refine ⟨d, digits, rfl, fun r hr => ?_⟩
  obtain ⟨htake, hdrop⟩ := takeWhile_append_stop hdigits (hr.head (q := isDigit) rfl)
  rw [first_of_isDigit hd, afterDigit, htake, hdrop, hr.fraction, List.append_nil]
  rfl

theorem cutAs_decimal {d e : Char} {digits part : List Char}
    (h : ∀ c ∈ d :: digits, isDigit c = true) (hpart : ∀ c ∈ e :: part, isDigit c = true) :
    CutAs .number (d :: digits ++ '.' :: e :: part) := by
  obtain ⟨hd, hdigits⟩ := List.forall_mem_cons.mp h
  obtain ⟨he, hpart⟩ := List.forall_mem_cons.mp hpart
  refine ⟨d, digits ++ '.' :: e :: part, rfl, fun r hr => ?_⟩
  obtain ⟨htake, hdrop⟩ := takeWhile_append_stop (r := '.' :: e :: part ++ r) hdigits rfl
  obtain ⟨htake', _⟩ := takeWhile_append_stop hpart (hr.head (q := isDigit) rfl)
  have hfraction : fraction ('.' :: e :: part ++ r) = '.' :: e :: part := by
    rw [List.cons_append, List.cons_append, fraction, if_pos he, htake']
  rw [first_of_isDigit hd, List.append_assoc, afterDigit, htake, hdrop, hfraction, List.drop_left]

theorem cutAs_text {text : List Char} (h : '"' ∉ text) :
    CutAs .string ('"' :: text ++ ['"']) := by
  refine ⟨'"', text ++ ['"'], rfl, fun r _ => ?_⟩
  have hall : ∀ c ∈ text, (c != '"') = true := by
    intro c hc
    rw [bne_iff_ne]
    rintro rfl
    exact h hc
  obtain ⟨htake, hdrop⟩ := takeWhile_append_stop (r := '"' :: r) hall rfl
  have hfirst : first '"' (text ++ '"' :: r) = afterQuote (text ++ '"' :: r) := rfl
  rw [List.append_assoc, List.singleton_append, hfirst, afterQuote, htake, hdrop]

/-- One space tells as much as any text with a space in front. -/
theorem cutAs_sign {kind : TokenKind} {text cs : List Char} {c : Char} (htext : text = c :: cs)
    (hspace : ∀ r, first c (cs ++ ' ' :: r) = (⟨.lexeme kind, c :: cs⟩, ' ' :: r))
    (hfinish : first c (cs ++ []) = (⟨.lexeme kind, c :: cs⟩, [])) : CutAs kind text := by
  refine ⟨c, cs, htext, fun r hr => ?_⟩
  rw [htext]
  cases hr with
  | finish => exact hfinish
  | space r => exact hspace r

theorem cutAs_spelling {kind : TokenKind} (hfree : kind.isFree = false) (heof : kind ≠ .eof) :
    CutAs kind kind.spelling.toList := by
  have hword : IsWord kind.spelling.toList → .ofWord kind.spelling = kind →
      CutAs kind kind.spelling.toList := by
    intro h hkind
    have hcut := cutAs_word h
    rwa [String.ofList_toList, hkind] at hcut
  cases kind with
  | identifier | string | number => cases hfree
  | eof => exact absurd rfl heof
  | andWord | classWord | elseWord | falseWord | funWord | forWord | ifWord | importWord
  | nilWord | orWord | printWord | returnWord | superWord | thisWord | trueWord | varWord
  | whileWord => exact hword ⟨_, _, rfl, by decide, List.all_eq_true.mp (by decide)⟩ rfl
  | _ => exact cutAs_sign rfl (fun _ => rfl) rfl

end Piece

open Piece

namespace Spelled

variable {kind : TokenKind} {text : List Char} {literal : Constant}

/-- A legal spelling is cut as what it spells. -/
theorem cutAs (h : Spelled kind text literal) : CutAs kind text := by
  cases h with
  | sign hfree heof => exact cutAs_spelling hfree heof
  | name hword hkeyword =>
      have hkind : TokenKind.ofWord (String.ofList text) = .identifier := by
        rw [TokenKind.ofWord, hkeyword, Option.getD_none]
      exact hkind ▸ cutAs_word hword
  | whole hdigits => exact cutAs_whole hdigits
  | decimal hdigits hpart => exact cutAs_decimal hdigits hpart
  | text htext => exact cutAs_text htext

theorem literal_eq (h : Spelled kind text literal) : Piece.literal kind text = literal := by
  cases h with
  | sign hfree _ => cases kind <;> first | rfl | cases hfree
  | name => rfl
  | whole => rfl
  | decimal => rfl
  | text => simp [Piece.literal]

end Spelled

/-! ## Lexemes of a source -/

namespace Piece

variable {c : Char} {rest : List Char}

theorem isFree_of_singleKind? {kind : TokenKind} (h : singleKind? c = some kind) :
    kind.isFree = false := by
  revert h
  fun_cases singleKind? c <;> intro h <;> cases h <;> rfl

theorem isFree_of_equalKinds? {kinds : TokenKind × TokenKind} (h : equalKinds? c = some kinds) :
    kinds.1.isFree = false ∧ kinds.2.isFree = false := by
  revert h
  fun_cases equalKinds? c <;> intro h <;> cases h <;> exact ⟨rfl, rfl⟩

theorem isFree_of_afterSlash {kind : TokenKind} (h : (afterSlash rest).1.form = .lexeme kind) :
    kind.isFree = false := by
  revert h
  fun_cases afterSlash rest <;> intro h <;> cases h
  rfl

theorem spelled_sign {kind : TokenKind} {text : List Char} (hfree : kind.isFree = false)
    (heof : kind ≠ .eof) (htext : String.ofList text = kind.spelling) :
    Spelled kind text (literal kind text) := by
  have hliteral : literal kind text = .nil := by
    cases kind <;> first | rfl | cases hfree
  have hspelling : text = kind.spelling.toList := by
    rw [← htext, String.toList_ofList]
  rw [hliteral, hspelling]
  exact .sign hfree heof

/-- A word is a name, or it is reserved and the only spelling of its kind. -/
theorem spelled_word {word : List Char} (h : IsWord word) :
    Spelled (.ofWord (String.ofList word)) word (literal (.ofWord (String.ofList word)) word) := by
  cases hlookup : TokenKind.keywords.lookup (String.ofList word) with
  | none =>
      rw [TokenKind.ofWord, hlookup]
      exact .name h hlookup
  | some kind =>
      have hfree : ∀ x ∈ TokenKind.keywords, x.2.isFree = false := by decide
      obtain ⟨before, after, hkeywords, _⟩ := List.lookup_eq_some_iff.mp hlookup
      have hmem : (String.ofList word, kind) ∈ TokenKind.keywords :=
        hkeywords ▸ List.mem_append_right before List.mem_cons_self
      have hkind : TokenKind.ofWord (String.ofList word) = kind := by
        rw [TokenKind.ofWord, hlookup, Option.getD_some]
      have hreserved : (TokenKind.ofWord (String.ofList word)).isFree = false :=
        hkind ▸ hfree (_, kind) hmem
      exact spelled_sign hreserved (TokenKind.ofWord_ne_eof _) (ofWord_spelling hreserved)

theorem isDigit_of_mem_takeWhile {d : Char} {text : List Char} (h : d ∈ text.takeWhile isDigit) :
    isDigit d = true :=
  List.all_eq_true.mp List.all_takeWhile d h

theorem spelled_afterDigit (hc : isDigit c = true) (rest : List Char) :
    Spelled .number (afterDigit c rest).1.text
      (.number (readNumeral (afterDigit c rest).1.text)) := by
  have hdigits : ∀ d ∈ c :: rest.takeWhile isDigit, isDigit d = true :=
    List.forall_mem_cons.mpr ⟨hc, fun _ => isDigit_of_mem_takeWhile⟩
  rw [afterDigit]
  fun_cases fraction (rest.dropWhile isDigit) with
  | case1 e after he =>
      exact .decimal hdigits (List.forall_mem_cons.mpr ⟨he, fun _ => isDigit_of_mem_takeWhile⟩)
  | case2 =>
      rw [List.append_nil]
      exact .whole hdigits
  | case3 =>
      rw [List.append_nil]
      exact .whole hdigits

theorem spelled_afterQuote {kind : TokenKind} (h : (afterQuote rest).1.form = .lexeme kind) :
    Spelled kind (afterQuote rest).1.text (literal kind (afterQuote rest).1.text) := by
  have hstop := head?_dropWhile_not (· != '"') rest
  have hquote : '"' ∉ rest.takeWhile (· != '"') := by
    intro hmem
    have := List.all_eq_true.mp List.all_takeWhile _ hmem
    simp at this
  rw [afterQuote] at h ⊢
  split at h
  · cases h
  · next quote after hdrop =>
      cases h
      rw [hdrop] at hstop
      obtain rfl : quote = '"' := by simpa using hstop
      have hspelled := Spelled.text hquote
      rw [← hspelled.literal_eq] at hspelled
      exact hspelled

/-- Whatever is cut as a lexeme is spelled as it should be. -/
theorem spelled_first {kind : TokenKind} (h : (first c rest).1.form = .lexeme kind) :
    Spelled kind (first c rest).1.text (literal kind (first c rest).1.text) := by
  have hspelling := first_spelling h
  have heof : kind ≠ .eof := by
    rintro rfl
    rcases first_form h with hsign | hword
    · cases hsign
    · exact TokenKind.ofWord_ne_eof _ hword.symm
  revert h hspelling
  fun_cases first c rest
  · next hkind =>
      intro h hspelling
      cases h
      have hfree := isFree_of_singleKind? hkind
      exact spelled_sign hfree heof (hspelling hfree)
  · next hkind _ =>
      intro h hspelling
      cases h
      exact spelled_sign (isFree_of_equalKinds? hkind).1 heof
        (hspelling (isFree_of_equalKinds? hkind).1)
  · next hkind _ =>
      intro h hspelling
      cases h
      exact spelled_sign (isFree_of_equalKinds? hkind).2 heof
        (hspelling (isFree_of_equalKinds? hkind).2)
  · intro h hspelling
    have hfree : kind.isFree = false := isFree_of_afterSlash h
    exact spelled_sign hfree heof (hspelling hfree)
  · intro h
    cases h
  · exact fun h _ => spelled_afterQuote h
  · next hdigit =>
      intro h _
      cases h
      exact spelled_afterDigit hdigit rest
  · next hletter =>
      intro h _
      cases h
      exact spelled_word ⟨c, _, rfl, hletter, fun _ hd =>
        List.all_eq_true.mp List.all_takeWhile _ hd⟩
  · intro h
    cases h

end Piece

/-! ## Lexemes in one line -/

namespace Piece

/-- The pieces in one line, with single spaces between them. -/
def inLine (ps : List Piece) : List Piece :=
  ps.intersperse ⟨.blank, [' ']⟩

theorem textOf_inLine (ps : List Piece) : textOf (inLine ps) = spaced (ps.map (·.text)) := by
  rw [textOf, inLine, spaced, List.intercalate, List.flatMap_def]
  congr 1
  induction ps with
  | nil => rfl
  | cons piece ps ih =>
      cases ps with
      | nil => rfl
      | cons next ps => exact congrArg (piece.text :: [' '] :: ·) ih

end Piece

namespace Spelling

theorem tiled_inLine (ss : List Spelling) : Tiled (inLine (ss.map piece)) := by
  induction ss with
  | nil => trivial
  | cons s ss ih =>
      obtain ⟨c, cs, htext, hfirst⟩ := s.legal.cutAs
      cases ss with
      | nil => exact ⟨⟨c, cs, htext, hfirst [] .finish⟩, trivial⟩
      | cons next ss => exact ⟨⟨c, cs, htext, hfirst _ (.space _)⟩, ⟨' ', [], rfl, rfl⟩, ih⟩

theorem pieces_spaced (ss : List Spelling) :
    pieces (spaced (ss.map text)) = inLine (ss.map piece) := by
  refine pieces_eq_iff.mpr ⟨tiled_inLine ss, ?_⟩
  rw [textOf_inLine, List.map_map]
  rfl

theorem tokensFrom_inLine (p : Position) (ss : List Spelling) :
    (tokensFrom p (inLine (ss.map piece))).map Token.content = ss.map content := by
  induction ss generalizing p with
  | nil => rfl
  | cons s ss ih =>
      have hcontent : (s.piece.token? p).toList.map Token.content = [s.content] := by
        rw [piece, token?, content, ← s.legal.literal_eq]
        rfl
      cases ss with
      | nil =>
          change (tokensFrom p [s.piece]).map Token.content = [s.content]
          rw [tokensFrom_cons, List.map_append, hcontent]
          rfl
      | cons next ss =>
          change (tokensFrom p (s.piece :: ⟨.blank, [' ']⟩ ::
            inLine ((next :: ss).map piece))).map Token.content = _
          rw [tokensFrom_cons, List.map_append, hcontent, tokensFrom_cons, List.map_append, ih]
          rfl

theorem fault?_inLine (ss : List Spelling) :
    ∀ x ∈ inLine (ss.map piece), x.fault? = none := by
  induction ss with
  | nil => exact List.forall_mem_nil _
  | cons s ss ih =>
      cases ss with
      | nil => exact List.forall_mem_singleton.mpr rfl
      | cons next ss =>
          exact List.forall_mem_cons.mpr ⟨rfl, List.forall_mem_cons.mpr ⟨rfl, ih⟩⟩

end Spelling

/-- What a text of spellings with single spaces between them is scanned as. -/
theorem scan_spaced (ss : List Spelling) :
    (scan (spaced (ss.map Spelling.text))).faults = [] ∧
      (scan (spaced (ss.map Spelling.text))).tokens.map Token.content =
        ss.map Spelling.content ++ [(.eof, "", .nil)] := by
  constructor
  · rw [scan_faults_eq_nil, Spelling.pieces_spaced]
    exact Spelling.fault?_inLine ss
  · rw [scan_tokens_eq, Spelling.pieces_spaced, List.map_append, Spelling.tokensFrom_inLine]
    rfl

/-- The spelling of a lexeme. -/
theorem Token.IsLexeme.exists_spelling {t : Token} (h : t.IsLexeme) :
    ∃ s : Spelling, s.text = t.lexeme.toList ∧ s.content = t.content := by
  obtain ⟨c, rest, hform, hlexeme, hliteral⟩ := h.piece
  refine ⟨⟨t.kind, _, t.literal, hliteral ▸ spelled_first hform⟩, ?_, ?_⟩
  · rw [hlexeme, String.toList_ofList]
  · rw [Spelling.content, Token.content, hlexeme]

theorem exists_spellings {ts : List Token} (h : ∀ t ∈ ts, t.IsLexeme) :
    ∃ ss : List Spelling, ss.map Spelling.text = ts.map (·.lexeme.toList) ∧
      ss.map Spelling.content = ts.map Token.content := by
  induction ts with
  | nil => exact ⟨[], rfl, rfl⟩
  | cons t ts ih =>
      obtain ⟨ht, hts⟩ := List.forall_mem_cons.mp h
      obtain ⟨s, htext, hcontent⟩ := ht.exists_spelling
      obtain ⟨ss, htexts, hcontents⟩ := ih hts
      exact ⟨s :: ss, congrArg₂ _ htext htexts, congrArg₂ _ hcontent hcontents⟩

/-- **Lexing undoes spelling.** Spellings with single spaces between them are read as
those tokens, without a fault. So the lexemes of a source, faulty or not, say what the
source says when they are written in one line. -/
theorem scan_undoes_spelling :
    (∀ ss : List Spelling,
      (scan (spaced (ss.map Spelling.text))).faults = [] ∧
        (scan (spaced (ss.map Spelling.text))).tokens.map Token.content =
          ss.map Spelling.content ++ [(.eof, "", .nil)]) ∧
      ∀ source : List Char,
        let line := spaced ((scan source).tokens.dropLast.map (·.lexeme.toList))
        (scan line).faults = [] ∧
          (scan line).tokens.map Token.content = (scan source).tokens.map Token.content := by
  refine ⟨scan_spaced, fun source => ?_⟩
  obtain ⟨ts, eof, htokens, heof, hlexemes⟩ := scan_tokens source
  obtain ⟨ss, htexts, hcontents⟩ := exists_spellings hlexemes
  obtain ⟨hfaults, hscan⟩ := scan_spaced ss
  have hlast := htokens.symm.trans (scan_tokens_eq source)
  obtain ⟨rfl, hend⟩ := List.append_inj' hlast rfl
  cases hend
  rw [htokens, List.dropLast_concat]
  dsimp only
  rw [← htexts, hscan, hcontents, List.map_append]
  exact ⟨hfaults, rfl⟩

end Lox
