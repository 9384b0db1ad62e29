import Lox.Proofs.Tiling

/-!
# Block comments

A block comment may hold block comments. Read from left to right, each of its characters
belongs to the opening of a comment, to the closing of one, or to neither, and the
counter of the lexer comes back to zero exactly where the grammar says that the comment
ends. So a comment that the lexer calls unterminated has no end at all.
-/

namespace Lox

/-- The two characters open a comment, or close one. -/
def isDelimiter (c d : Char) : Bool :=
  c == '/' && d == '*' || c == '*' && d == '/'

/-- What may stand inside a block comment, up to the `*` of its closing. -/
inductive CommentBody : List Char → Prop
  | nil : CommentBody []
  | char {c : Char} {text : List Char} :
      isDelimiter c (text.headD '*') = false → CommentBody text → CommentBody (c :: text)
  | nested {inner text : List Char} :
      CommentBody inner → CommentBody text →
      CommentBody ('/' :: '*' :: inner ++ '*' :: '/' :: text)

/-- A complete block comment. -/
def BlockComment (text : List Char) : Prop :=
  ∃ body, CommentBody body ∧ text = '/' :: '*' :: body ++ ['*', '/']

/-- A text that closes some open comments, and ends with the last closing. -/
def ClosesComments : Nat → List Char → Prop
  | 0, text => text = []
  | depth + 1, text =>
    ∃ body rest, CommentBody body ∧ text = body ++ '*' :: '/' :: rest ∧ ClosesComments depth rest

namespace Piece

/-- The character that stands before a closing or in it. -/
theorem exists_cons_headD (text rest : List Char) :
    ∃ tail, text ++ '*' :: rest = text.headD '*' :: tail := by
  cases text with
  | nil => exact ⟨rest, rfl⟩
  | cons c text => exact ⟨text ++ '*' :: rest, rfl⟩

/-- A character that is not the first of a delimiter is walked over by itself. -/
theorem comment_char {c d : Char} {rest tail : List Char} (h : isDelimiter c d = false)
    (hrest : rest = d :: tail) (depth : Nat) : comment (depth + 1) (c :: rest) =
      (c :: (comment (depth + 1) rest).1, (comment (depth + 1) rest).2) := by
  subst hrest
  rw [comment]
  · rintro _ rfl heq
    cases heq
    cases h
  · rintro _ rfl heq
    cases heq
    cases h

/-- The body of a comment and its closing lead one level up. -/
theorem comment_body {body : List Char} (h : CommentBody body) (depth : Nat) (rest : List Char) :
    comment (depth + 1) (body ++ '*' :: '/' :: rest) =
      (body ++ '*' :: '/' :: (comment depth rest).1, (comment depth rest).2) := by
  induction h generalizing depth rest with
  | nil => rfl
  | @char c text hnext _ ih =>
      obtain ⟨tail, htail⟩ := exists_cons_headD text ('/' :: rest)
      rw [List.cons_append, comment_char hnext htail, ih]
      rfl
  | @nested inner text _ _ ihinner ih =>
      have hopen := ihinner (depth + 1) (text ++ '*' :: '/' :: rest)
      rw [ih] at hopen
      simp only [List.cons_append, List.append_assoc, comment, hopen]

/-- What closes the open comments is made of bodies and closings. -/
theorem closesComments_of_comment {depth : Nat} {text inner after : List Char}
    (h : comment depth text = (inner, some after)) : ClosesComments depth inner := by
  fun_induction comment depth text generalizing inner with
  | case1 => cases h; rfl
  | case2 => cases h
  | case3 depth rest inside _ hrec ih =>
      obtain ⟨rfl, rfl⟩ := Prod.mk.inj h
      obtain ⟨body, _, hbody, rfl, body', rest', hbody', rfl, hcloses⟩ := ih hrec
      refine ⟨_, rest', .nested hbody hbody', ?_, hcloses⟩
      simp only [List.cons_append, List.append_assoc]
  | case4 depth rest inside _ hrec ih =>
      obtain ⟨rfl, rfl⟩ := Prod.mk.inj h
      exact ⟨[], inside, .nil, rfl, ih hrec⟩
  | case5 depth c rest hopening hclosing inside _ hrec ih =>
      obtain ⟨rfl, rfl⟩ := Prod.mk.inj h
      obtain ⟨body, rest', hbody, rfl, hcloses⟩ := ih hrec
      refine ⟨c :: body, rest', .char ?_ hbody, rfl, hcloses⟩
      have hrest := comment_text (depth + 1) rest
      rw [hrec] at hrest
      obtain ⟨text, htext⟩ := exists_cons_headD body ('/' :: rest' ++ after)
      have hnext : rest = body.headD '*' :: text := by
        rw [← htext, ← hrest]
        simp
      rw [Bool.eq_false_iff, isDelimiter, Ne, Bool.or_eq_true, Bool.and_eq_true, Bool.and_eq_true]
      rintro (⟨hc, hd⟩ | ⟨hc, hd⟩)
      · exact hopening text (eq_of_beq hc) (eq_of_beq hd ▸ hnext)
      · exact hclosing text (eq_of_beq hc) (eq_of_beq hd ▸ hnext)

/-- The lexer ends a block comment where the grammar does. -/
theorem blockComment_of_comment {rest inner after : List Char}
    (h : comment 1 rest = (inner, some after)) : BlockComment ('/' :: '*' :: inner) := by
  obtain ⟨body, _, hbody, rfl, rfl⟩ := closesComments_of_comment h
  exact ⟨body, hbody, rfl⟩

/-- A comment that the lexer cannot end has no end. -/
theorem not_blockComment_of_comment {rest inner : List Char} (h : comment 1 rest = (inner, none))
    {text : List Char} (htext : text <+: '/' :: '*' :: rest) : ¬ BlockComment text := by
  rintro ⟨body, hbody, rfl⟩
  obtain ⟨after, hafter⟩ := htext
  simp only [List.cons_append, List.append_assoc, List.nil_append, List.cons.injEq,
    true_and] at hafter
  have hclosed := comment_body hbody 0 after
  rw [hafter, h, comment] at hclosed
  cases hclosed

end Piece

/-- The delimiters may not overlap: this comment is not even closed once. -/
example : (Piece.comment 1 "/*/".toList).2 = none := by decide

end Lox
