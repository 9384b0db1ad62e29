import Lox.Token.Scan
import Mathlib.Data.List.Forall2

/-!
# The tokens of a source and how they are spelled

What is true of every token that scanning gives, whatever the source: all but the
last are lexemes that were cut from a text, the last is the end of the input, and a
token whose kind is that of a word was read from that word.

Most kinds of token have one spelling each, so the kind of a token of a source tells
what was written there. A name is any word that is not reserved. Numbers and strings
carry what they stand for: a string has one spelling, a number has many.
-/

namespace Lox

/-- The token was cut from a text. -/
def Token.IsLexeme (t : Token) : Prop :=
  ∃ p c rest, (Piece.first c rest).1.token? p = some t

namespace Piece

/-- Every piece is the first of what was still to be cut. -/
theorem eq_first_of_mem_cut {n : Nat} {text : List Char} {piece : Piece}
    (h : piece ∈ cut n text) : ∃ c rest, piece = (first c rest).1 := by
  induction n generalizing text with
  | zero => cases h
  | succ n ih =>
      cases text with
      | nil => cases h
      | cons c rest =>
          simp only [cut, List.mem_cons] at h
          rcases h with rfl | h
          · exact ⟨c, rest, rfl⟩
          · exact ih h

theorem mem_of_mem_place {p q : Position} {piece : Piece} {ps : List Piece}
    (h : (q, piece) ∈ place p ps) : piece ∈ ps := by
  induction ps generalizing p with
  | nil => cases h
  | cons first rest ih =>
      simp only [place, List.mem_cons, Prod.mk.injEq] at h
      rcases h with ⟨_, rfl⟩ | h
      · exact List.mem_cons_self
      · exact List.mem_cons_of_mem _ (ih h)

/-- The kinds of the lexemes that are not words. -/
def isSymbol : TokenKind → Bool
  | .leftParen | .rightParen | .leftBrace | .rightBrace | .leftBracket | .rightBracket
  | .comma | .dot | .minus | .plus | .semicolon | .slash | .star | .question | .colon
  | .bang | .bangEqual | .equal | .equalEqual | .greater | .greaterEqual | .less | .lessEqual
  | .string | .number => true
  | _ => false

theorem isSymbol_of_singleKind? {c : Char} {kind : TokenKind} (h : singleKind? c = some kind) :
    isSymbol kind = true := by
  revert h
  fun_cases singleKind? c <;> intro h <;> cases h <;> rfl

theorem isSymbol_of_equalKinds? {c : Char} {kinds : TokenKind × TokenKind}
    (h : equalKinds? c = some kinds) : isSymbol kinds.1 = true ∧ isSymbol kinds.2 = true := by
  revert h
  fun_cases equalKinds? c <;> intro h <;> cases h <;> exact ⟨rfl, rfl⟩

theorem afterSlash_form {rest : List Char} {kind : TokenKind}
    (h : (afterSlash rest).1.form = .lexeme kind) : isSymbol kind = true := by
  revert h
  fun_cases afterSlash rest <;> intro h <;> cases h
  rfl

theorem afterQuote_form {rest : List Char} {kind : TokenKind}
    (h : (afterQuote rest).1.form = .lexeme kind) : isSymbol kind = true := by
  rw [afterQuote] at h
  split at h <;> cases h
  rfl

/-- A lexeme is a symbol, or its kind is that of the word it consists of. -/
theorem first_form {c : Char} {rest : List Char} {kind : TokenKind}
    (h : (first c rest).1.form = .lexeme kind) :
    isSymbol kind = true ∨ kind = .ofWord (String.ofList (first c rest).1.text) := by
  revert h
  fun_cases first c rest
  · next hk => intro h; cases h; exact .inl (isSymbol_of_singleKind? hk)
  · next hk _ => intro h; cases h; exact .inl (isSymbol_of_equalKinds? hk).1
  · next hk _ => intro h; cases h; exact .inl (isSymbol_of_equalKinds? hk).2
  · exact fun h => .inl (afterSlash_form h)
  · exact fun h => nomatch h
  · exact fun h => .inl (afterQuote_form h)
  · intro h; cases h; exact .inl rfl
  · intro h; cases h; exact .inr rfl
  · exact fun h => nomatch h

end Piece

namespace TokenKind

theorem ofWord_ne_eof (word : String) : ofWord word ≠ .eof := by
  simp only [ofWord, keywords, List.lookup_cons, List.lookup_nil]
  repeat' split
  all_goals simp

/-- A reserved word is the only word of its kind. -/
theorem eq_of_ofWord {word : String} :
    (ofWord word = .thisWord → word = "this") ∧ (ofWord word = .superWord → word = "super") := by
  simp only [ofWord, keywords, List.lookup_cons, List.lookup_nil]
  constructor <;> intro h <;> (repeat' split at h) <;> simp_all

end TokenKind

namespace Token

/-- A token that was cut is a symbol, or its kind is that of its lexeme. -/
theorem IsLexeme.kind {t : Token} (h : t.IsLexeme) :
    Piece.isSymbol t.kind = true ∨ t.kind = .ofWord t.lexeme := by
  obtain ⟨p, c, rest, h⟩ := h
  rw [Piece.token?] at h
  split at h
  · next kind hform =>
      cases h
      exact Piece.first_form hform
  · cases h

theorem IsLexeme.ne_eof {t : Token} (h : t.IsLexeme) : t.kind ≠ .eof := by
  intro hk
  rcases h.kind with hs | hw
  · rw [hk] at hs
    cases hs
  · exact TokenKind.ofWord_ne_eof _ (hw.symm.trans hk)

end Token

/-- The tokens of a source are lexemes, and then the end of the input. -/
theorem scan_tokens (source : List Char) :
    ∃ ts eof, (scan source).tokens = ts ++ [eof] ∧ eof.kind = .eof ∧ ∀ t ∈ ts, t.IsLexeme := by
  refine ⟨_, _, rfl, rfl, fun t ht => ?_⟩
  obtain ⟨⟨p, piece⟩, hmem, ht⟩ := List.mem_filterMap.mp ht
  obtain ⟨c, rest, rfl⟩ := Piece.eq_first_of_mem_cut (Piece.mem_of_mem_place hmem)
  exact ⟨p, c, rest, ht⟩

/-! ## Spellings -/

/-- The spelling of a kind that has only one. -/
def TokenKind.spelling : TokenKind → String
  | .leftParen => "("
  | .rightParen => ")"
  | .leftBrace => "\x7b"
  | .rightBrace => "\x7d"
  | .leftBracket => "["
  | .rightBracket => "]"
  | .comma => ","
  | .dot => "."
  | .minus => "-"
  | .plus => "+"
  | .semicolon => ";"
  | .slash => "/"
  | .star => "*"
  | .question => "?"
  | .colon => ":"
  | .bang => "!"
  | .bangEqual => "!="
  | .equal => "="
  | .equalEqual => "=="
  | .greater => ">"
  | .greaterEqual => ">="
  | .less => "<"
  | .lessEqual => "<="
  | .andWord => "and"
  | .classWord => "class"
  | .elseWord => "else"
  | .falseWord => "false"
  | .funWord => "fun"
  | .forWord => "for"
  | .ifWord => "if"
  | .importWord => "import"
  | .nilWord => "nil"
  | .orWord => "or"
  | .printWord => "print"
  | .returnWord => "return"
  | .superWord => "super"
  | .thisWord => "this"
  | .trueWord => "true"
  | .varWord => "var"
  | .whileWord => "while"
  | .identifier | .string | .number | .eof => ""

/-- Can tokens of this kind be spelled in more ways than one? -/
def TokenKind.isFree (kind : TokenKind) : Bool :=
  kind == .identifier || kind == .string || kind == .number

namespace Token

/-- A token of a kind that has only one spelling. -/
def sign (kind : TokenKind) : Token where
  kind := kind
  lexeme := kind.spelling
  line := 1

/-- The tokens say the same, wherever they stand. -/
structure SpelledLike (t t' : Token) : Prop where
  kind : t.kind = t'.kind
  literal : t.literal = t'.literal
  lexeme : t.kind ≠ .number → t.lexeme = t'.lexeme

end Token

/-- The token of a constant. -/
def Constant.token : Constant → Token
  | nil => .sign .nilWord
  | bool true => .sign .trueWord
  | bool false => .sign .falseWord
  | number x =>
    { kind := .number, lexeme := Layout.dump.number x, literal := .number x, line := 1 }
  | text s =>
    { kind := .string, lexeme := "\"" ++ s ++ "\"", literal := .text s, line := 1 }

/-! ## Tokens of a source -/

namespace Piece

theorem singleKind?_spelling {c : Char} {kind : TokenKind} (h : singleKind? c = some kind) :
    String.ofList [c] = kind.spelling := by
  revert h
  fun_cases singleKind? c <;> intro h <;> cases h <;> rfl

theorem equalKinds?_spelling {c : Char} {kinds : TokenKind × TokenKind}
    (h : equalKinds? c = some kinds) :
    String.ofList [c, '='] = kinds.1.spelling ∧ String.ofList [c] = kinds.2.spelling := by
  revert h
  fun_cases equalKinds? c <;> intro h <;> cases h <;> exact ⟨rfl, rfl⟩

theorem afterSlash_spelling {rest : List Char} {kind : TokenKind}
    (h : (afterSlash rest).1.form = .lexeme kind) :
    String.ofList (afterSlash rest).1.text = kind.spelling := by
  revert h
  fun_cases afterSlash rest <;> intro h <;> cases h
  rfl

theorem ofWord_spelling {word : String} (h : (TokenKind.ofWord word).isFree = false) :
    word = (TokenKind.ofWord word).spelling := by
  revert h
  simp only [TokenKind.ofWord, TokenKind.keywords, List.lookup_cons, List.lookup_nil]
  repeat' split
  all_goals simp_all [TokenKind.spelling, TokenKind.isFree]

theorem ofWord_ne_string (word : String) : TokenKind.ofWord word ≠ .string := by
  simp only [TokenKind.ofWord, TokenKind.keywords, List.lookup_cons, List.lookup_nil]
  repeat' split
  all_goals simp

/-- A lexeme of a kind that has only one spelling is spelled so. -/
theorem first_spelling {c : Char} {rest : List Char} {kind : TokenKind}
    (h : (first c rest).1.form = .lexeme kind) (hfree : kind.isFree = false) :
    String.ofList (first c rest).1.text = kind.spelling := by
  revert h
  fun_cases first c rest
  · next hk => intro h; cases h; exact singleKind?_spelling hk
  · next hk _ => intro h; cases h; exact (equalKinds?_spelling hk).1
  · next hk _ => intro h; cases h; exact (equalKinds?_spelling hk).2
  · exact afterSlash_spelling
  · intro h
    cases h
  · intro h
    rw [afterQuote] at h
    split at h <;> cases h
    cases hfree
  · intro h; cases h; cases hfree
  · intro h
    cases h
    exact ofWord_spelling hfree
  · intro h
    cases h

/-- A string is spelled with quotes around its text. -/
theorem first_string {c : Char} {rest : List Char}
    (h : (first c rest).1.form = .lexeme .string) :
    ∃ s, (first c rest).1.text = '"' :: s ++ ['"'] := by
  revert h
  fun_cases first c rest
  · next hk => intro h; cases h; revert hk; fun_cases singleKind? c <;> simp
  · next hk _ => intro h; cases h; revert hk; fun_cases equalKinds? c <;> simp
  · next hk _ => intro h; cases h; revert hk; fun_cases equalKinds? c <;> simp
  · intro h; revert h; fun_cases afterSlash rest <;> simp
  · intro h
    cases h
  · next hc =>
      intro h
      have hstop := List.head?_dropWhile_not (· != '"') rest
      rw [afterQuote] at h ⊢
      split at h
      · cases h
      · next quote after heq =>
          rw [heq] at hstop
          simp only []
          refine ⟨rest.takeWhile (· != '"'), ?_⟩
          rw [show quote = '"' by simpa using hstop]
  · intro h; cases h
  · intro h
    injection h with h
    exact absurd h (ofWord_ne_string _)
  · intro h
    cases h

end Piece

namespace Token

variable {t : Token}

theorem IsLexeme.piece (h : t.IsLexeme) :
    ∃ c rest, (Piece.first c rest).1.form = .lexeme t.kind ∧
      t.lexeme = String.ofList (Piece.first c rest).1.text ∧
      t.literal = Piece.literal t.kind (Piece.first c rest).1.text := by
  obtain ⟨p, c, rest, h⟩ := h
  rw [Piece.token?] at h
  split at h
  · next kind hform =>
      cases h
      exact ⟨c, rest, hform, rfl, rfl⟩
  · cases h

theorem IsLexeme.spelledLike_sign (h : t.IsLexeme) (hfree : t.kind.isFree = false) :
    t.SpelledLike (.sign t.kind) := by
  obtain ⟨c, rest, hform, hlexeme, hliteral⟩ := h.piece
  refine ⟨rfl, ?_, fun _ => hlexeme.trans (Piece.first_spelling hform hfree)⟩
  rw [hliteral]
  revert hfree
  cases t.kind <;> simp [TokenKind.isFree, Piece.literal, sign]

theorem IsLexeme.spelledLike_constant (h : t.IsLexeme) (hk : t.kind = .number ∨ t.kind = .string) :
    t.SpelledLike t.literal.token := by
  obtain ⟨c, rest, hform, hlexeme, hliteral⟩ := h.piece
  rcases hk with hk | hk
  · rw [hk, Piece.literal] at hliteral
    rw [hliteral]
    exact ⟨hk, hliteral, fun hne => absurd hk hne⟩
  · rw [hk] at hform hliteral
    obtain ⟨s, hs⟩ := Piece.first_string hform
    rw [hs, Piece.literal] at hliteral
    rw [hs] at hlexeme
    have htext : t.literal = .text (String.ofList s) := by
      rw [hliteral]
      simp
    rw [htext]
    refine ⟨hk, htext, fun _ => hlexeme.trans ?_⟩
    rw [Constant.token]
    apply String.toList_inj.mp
    simp

theorem SpelledLike.refl (t : Token) : t.SpelledLike t :=
  ⟨rfl, rfl, fun _ => rfl⟩

end Token

/-- Lexemes that say the same as some tokens. -/
def Spells (ts us : List Token) : Prop :=
  (∀ t ∈ ts, t.IsLexeme) → List.Forall₂ Token.SpelledLike ts us

namespace Spells

variable {ts ts' us us' : List Token} {t : Token}

theorem nil : Spells [] [] := fun _ => .nil

theorem append (h : Spells ts us) (h' : Spells ts' us') : Spells (ts ++ ts') (us ++ us') :=
  fun hlex => List.rel_append (h fun t ht => hlex t (List.mem_append_left _ ht))
    (h' fun t ht => hlex t (List.mem_append_right _ ht))

theorem cons_same (t : Token) (h : Spells ts us) : Spells (t :: ts) (t :: us) :=
  fun hlex => .cons (.refl t) (h fun x hx => hlex x (List.mem_cons_of_mem t hx))

theorem cons_sign {kind : TokenKind} (hk : t.kind = kind) (hfree : kind.isFree = false)
    (h : Spells ts us) : Spells (t :: ts) (.sign kind :: us) := by
  intro hlex
  subst hk
  exact .cons ((hlex t List.mem_cons_self).spelledLike_sign hfree)
    (h fun x hx => hlex x (List.mem_cons_of_mem t hx))

theorem constant (hk : t.kind = .number ∨ t.kind = .string) : Spells [t] [t.literal.token] :=
  fun hlex => .cons ((hlex t List.mem_cons_self).spelledLike_constant hk) .nil

end Spells

end Lox
