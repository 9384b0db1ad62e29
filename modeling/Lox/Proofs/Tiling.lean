import Lox.Proofs.Spelling
import Mathlib.Data.List.Forall2

/-!
# Sources cut back into pieces

A source is cut from left to right, and where a piece ends depends on what follows it.
It depends on very little: a word may be followed by any text that does not go on with
the word, and no piece can tell one word behind it from another. So when some words of
a source are replaced by others, or lines are added behind it, its pieces stay what
they were.
-/

namespace Lox
namespace Piece

/-- The text that the pieces lie side by side in. -/
def textOf (ps : List Piece) : List Char :=
  ps.flatMap (·.text)

/-- The piece is broken off by the end of the source. -/
def isOpen (piece : Piece) : Bool :=
  piece.form = .openString ∨ piece.form = .openComment

/-- Each piece is what would be cut from the text where it stands. -/
def Tiled : List Piece → Prop
  | [] => True
  | piece :: rest =>
    (∃ c cs, piece.text = c :: cs ∧ first c (cs ++ textOf rest) = (piece, textOf rest)) ∧
      Tiled rest

/-- Texts that a piece in front of them cannot tell apart. -/
inductive SameAhead : List Char → List Char → Prop
  | nil : SameAhead [] []
  | finish (r : List Char) : SameAhead [] ('\n' :: r)
  | letters {a b : Char} (r r' : List Char) :
      isLetter a = true → isLetter b = true → SameAhead (a :: r) (b :: r')
  | same {r r' : List Char} (c : Char) :
      r.head?.any isDigit = r'.head?.any isDigit → SameAhead (c :: r) (c :: r')

/-- A test of one character that takes all letters alike, and no newline. -/
theorem SameAhead.head {r r' : List Char} (h : SameAhead r r') {q : Char → Bool}
    (hletters : ∀ a b, isLetter a = true → isLetter b = true → q a = q b)
    (hnewline : q '\n' = false) : r.head?.any q = r'.head?.any q := by
  cases h with
  | nil => rfl
  | finish r => exact hnewline.symm
  | letters r r' ha hb => exact hletters _ _ ha hb
  | same c => rfl

/-- No letter is the given character. -/
theorem ne_of_isLetter {a c : Char} (ha : isLetter a = true) (hc : isLetter c = false) :
    (a == c) = false := by
  rw [beq_eq_false_iff_ne]
  rintro rfl
  rw [ha] at hc
  cases hc

theorem SameAhead.starts {r r' rest : List Char} {c : Char} (h : SameAhead r r')
    (hc : isLetter c = false) (hnewline : c ≠ '\n') (heq : r' = c :: rest) :
    ∃ rest', r = c :: rest' ∧ rest'.head?.any isDigit = rest.head?.any isDigit := by
  cases h with
  | nil => cases heq
  | finish r => cases heq; exact absurd rfl hnewline
  | letters r r' ha hb =>
      cases heq
      rw [hb] at hc
      cases hc
  | same d hdigit => cases heq; exact ⟨_, rfl, hdigit⟩

theorem isDigit_of_isLetter {a : Char} (ha : isLetter a = true) : isDigit a = false := by
  rw [Bool.eq_false_iff]
  intro hd
  simp only [isLetter, isDigit, Bool.or_eq_true, Bool.and_eq_true, decide_eq_true_eq,
    beq_iff_eq, Char.le_def, UInt32.le_iff_toNat_le] at ha hd
  have hnine : a.val.toNat ≤ 57 := hd.2
  rcases ha with (ha | ha) | rfl
  · have hletter : 97 ≤ a.val.toNat := ha.1
    omega
  · have hletter : 65 ≤ a.val.toNat := ha.1
    omega
  · exact absurd hnine (by decide)

theorem SameAhead.digit {r r' : List Char} (h : SameAhead r r') :
    r.head?.any isDigit = r'.head?.any isDigit := by
  refine h.head (fun a b ha hb => ?_) (by decide)
  rw [isDigit_of_isLetter ha, isDigit_of_isLetter hb]

/-! ## Where a piece ends -/

/-- A run of characters that pass a test ends where the next one does not. -/
theorem takeWhile_append_stop {q : Char → Bool} {w r : List Char} (hw : ∀ c ∈ w, q c = true)
    (hr : r.head?.any q = false) :
    (w ++ r).takeWhile q = w ∧ (w ++ r).dropWhile q = r := by
  rw [List.takeWhile_append_of_pos hw, List.dropWhile_append_of_pos hw]
  cases r with
  | nil => exact ⟨List.append_nil w, rfl⟩
  | cons c r =>
      have hc : ¬ q c = true := by simpa using hr
      rw [List.takeWhile_cons_of_neg hc, List.dropWhile_cons_of_neg hc]
      exact ⟨List.append_nil w, rfl⟩

theorem head?_dropWhile_not (q : Char → Bool) (text : List Char) :
    (text.dropWhile q).head?.any q = false := by
  have h := List.head?_dropWhile_not q text
  cases hd : (text.dropWhile q).head? with
  | none => rfl
  | some c =>
      rw [hd] at h
      simpa using h

/-- The run that a piece takes, and what is left, when the text behind changes. -/
theorem run_append {q : Char → Bool} {text w r r' : List Char} (hw : text.takeWhile q = w)
    (hr : text.dropWhile q = r) (hahead : r.head?.any q = r'.head?.any q) :
    (w ++ r').takeWhile q = w ∧ (w ++ r').dropWhile q = r' := by
  refine takeWhile_append_stop (fun c hc => ?_) ?_
  · rw [← hw] at hc
    exact List.all_eq_true.mp List.all_takeWhile c hc
  · rw [← hahead, ← hr]
    exact head?_dropWhile_not q text

section

variable {c : Char} {cs r r' : List Char} {piece : Piece}

theorem afterLetter_append (h : afterLetter c (cs ++ r) = (piece, r))
    (hahead : r.head?.any isNameChar = r'.head?.any isNameChar) :
    afterLetter c (cs ++ r') = (piece, r') := by
  obtain ⟨hpiece, hrest⟩ := Prod.mk.inj h
  have hcs : (cs ++ r).takeWhile isNameChar = cs := by
    have hall := List.takeWhile_append_dropWhile (p := isNameChar) (l := cs ++ r)
    rw [hrest] at hall
    exact List.append_cancel_right hall
  obtain ⟨htake, hdrop⟩ := run_append hcs hrest hahead
  rw [afterLetter, htake, hdrop, ← hpiece, hcs]

theorem afterQuote_append (h : afterQuote (cs ++ r) = (piece, r))
    (hopen : piece.isOpen = false) : afterQuote (cs ++ r') = (piece, r') := by
  have hall := List.takeWhile_append_dropWhile (p := (· != '"')) (l := cs ++ r)
  rw [afterQuote] at h
  split at h
  · cases h
    cases hopen
  · next quote after hdrop =>
      obtain ⟨hpiece, rfl⟩ := Prod.mk.inj h
      have hcs : (cs ++ after).takeWhile (· != '"') ++ [quote] = cs := by
        rw [hdrop, List.append_cons] at hall
        exact List.append_cancel_right hall
      have hquote : quote = '"' := by
        have hstop := head?_dropWhile_not (· != '"') (cs ++ after)
        rw [hdrop] at hstop
        simpa using hstop
      have hahead : (quote :: after).head?.any (· != '"') = (quote :: r').head?.any (· != '"') :=
        rfl
      obtain ⟨htake, hdrop'⟩ := run_append rfl hdrop hahead
      rw [← hcs, List.append_assoc, List.singleton_append, afterQuote, htake, hdrop', ← hpiece]

/-- What is still open takes at least one character to close. -/
theorem comment_ne_nil {depth : Nat} {rest text after : List Char}
    (h : comment (depth + 1) rest = (text, some after)) : text ≠ [] := by
  rintro rfl
  rw [comment.eq_def] at h
  split at h
  · contradiction
  all_goals cases h

theorem comment_text (depth : Nat) (rest : List Char) :
    (comment depth rest).1 ++ (comment depth rest).2.getD [] = rest := by
  fun_induction comment depth rest with
  | case1 rest => rfl
  | case2 => rfl
  | case3 depth rest inner after hrec ih
  | case4 depth rest inner after hrec ih
  | case5 depth c rest _ _ inner after hrec ih =>
      rw [hrec] at ih
      simp only [List.cons_append, ih]

/-- A comment that is closed does not depend on what follows it. -/
theorem comment_append {depth : Nat} {rest text after : List Char}
    (h : comment depth rest = (text, some after)) (r' : List Char) :
    comment depth (text ++ r') = (text, some r') := by
  fun_induction comment depth rest generalizing text with
  | case1 rest => cases h; rw [List.nil_append, comment]
  | case2 => cases h
  | case3 depth rest inner after' hrec ih
  | case4 depth rest inner after' hrec ih =>
      obtain ⟨rfl, rfl⟩ := Prod.mk.inj h
      simp only [List.cons_append, comment, ih hrec]
  | case5 depth c rest hopening hclosing inner after' hrec ih =>
      obtain ⟨rfl, rfl⟩ := Prod.mk.inj h
      have hrest := comment_text (depth + 1) rest
      rw [hrec] at hrest
      obtain ⟨d, inner, rfl⟩ := List.exists_cons_of_ne_nil (comment_ne_nil hrec)
      -- The next character is that of the comment itself, so no new pair arises.
      rw [List.cons_append, comment, ih hrec]
      · intro rest' hc hd
        cases hd
        exact hopening _ hc hrest.symm
      · intro rest' hc hd
        cases hd
        exact hclosing _ hc hrest.symm

theorem afterSlash_append (h : afterSlash (cs ++ r) = (piece, r)) (hopen : piece.isOpen = false)
    (hr : SameAhead r r') : afterSlash (cs ++ r') = (piece, r') := by
  generalize htext : cs ++ r = text at h
  revert h
  fun_cases afterSlash text with
  | case1 rest =>
      intro h
      obtain ⟨rfl, hrest⟩ := Prod.mk.inj h
      have hcs : '/' :: rest.takeWhile (· != '\n') = cs := by
        have hall := List.takeWhile_append_dropWhile (p := (· != '\n')) (l := rest)
        rw [hrest] at hall
        rw [← hall, ← List.cons_append] at htext
        exact (List.append_cancel_right htext).symm
      have hahead : r.head?.any (· != '\n') = r'.head?.any (· != '\n') := by
        refine hr.head (fun a b ha hb => ?_) (by decide)
        rw [bne, bne, ne_of_isLetter ha (by decide), ne_of_isLetter hb (by decide)]
      obtain ⟨htake, hdrop⟩ := run_append rfl hrest hahead
      rw [← hcs, List.cons_append, afterSlash, htake, hdrop]
  | case2 rest inner after hcomment =>
      intro h
      obtain ⟨rfl, rfl⟩ := Prod.mk.inj h
      have hrest := comment_text 1 rest
      rw [hcomment] at hrest
      have hcs : cs = '*' :: inner := by
        rw [← hrest, ← List.cons_append] at htext
        exact List.append_cancel_right htext
      rw [hcs, List.cons_append, afterSlash, comment_append hcomment]
  | case3 => intro h; cases h; cases hopen
  | case4 text hline hblock =>
      intro h
      obtain ⟨rfl, rfl⟩ := Prod.mk.inj h
      have hcs : cs = [] := List.append_left_eq_self.mp htext
      rw [hcs, List.nil_append]
      rw [afterSlash]
      · intro rest heq
        obtain ⟨rest', hr', _⟩ := hr.starts (by decide) (by decide) heq
        exact hline rest' hr'
      · intro rest heq
        obtain ⟨rest', hr', _⟩ := hr.starts (by decide) (by decide) heq
        exact hblock rest' hr'

/-- A text that a number does not go on with. -/
theorem fraction_eq_nil (h : fraction r = []) (hr : SameAhead r r') : fraction r' = [] := by
  fun_cases fraction r' with
  | case1 d rest hd =>
      obtain ⟨rest', rfl, hdigit⟩ := hr.starts (by decide) (by decide) rfl
      cases rest' with
      | nil => rw [List.head?_cons, Option.any_some, hd] at hdigit; cases hdigit
      | cons e rest' =>
          rw [List.head?_cons, Option.any_some, List.head?_cons, Option.any_some, hd] at hdigit
          rw [fraction, if_pos hdigit] at h
          cases h
  | case2 => rfl
  | case3 => rfl

theorem afterDigit_append (h : afterDigit c (cs ++ r) = (piece, r))
    (hahead : r.head?.any isDigit = r'.head?.any isDigit)
    (hfraction : fraction r = [] → fraction r' = []) :
    afterDigit c (cs ++ r') = (piece, r') := by
  have hall := List.takeWhile_append_dropWhile (p := isDigit) (l := cs ++ r)
  obtain ⟨hpiece, hrest⟩ := Prod.mk.inj h
  generalize hwhole : (cs ++ r).takeWhile isDigit = whole at *
  generalize hafter : (cs ++ r).dropWhile isDigit = after at *
  by_cases hpart : fraction after = []
  · rw [hpart, List.length_nil, List.drop_zero] at hrest
    subst hrest
    obtain ⟨htake, hdrop⟩ := run_append hwhole hafter hahead
    have hcs : whole = cs := List.append_cancel_right hall
    rw [afterDigit, ← hcs, htake, hdrop, hfraction hpart, ← hpiece, hpart]
    rfl
  · revert hpart hpiece hrest
    fun_cases fraction after with
    | case1 d rest hd =>
        intro hrest hpiece _
        have hparts := List.takeWhile_append_dropWhile (p := isDigit) (l := rest)
        have hdigits : rest.dropWhile isDigit = r := by
          rw [← hrest, List.length_cons, List.length_cons, List.drop_succ_cons, List.drop_succ_cons]
          exact List.append_cancel_left (hparts.trans (List.prefix_iff_eq_append.mp
            (List.takeWhile_prefix isDigit)).symm)
        have hcs : whole ++ '.' :: d :: rest.takeWhile isDigit = cs := by
          rw [← hparts, hdigits] at hall
          exact List.append_cancel_right ((List.append_assoc _ _ _).trans hall)
        obtain ⟨htake, hdrop⟩ :=
          takeWhile_append_stop (q := isDigit) (w := whole)
            (r := '.' :: d :: (rest.takeWhile isDigit ++ r'))
            (fun c hc => by
              rw [← hwhole] at hc
              exact List.all_eq_true.mp List.all_takeWhile c hc)
            (by rfl)
        obtain ⟨htake', _⟩ := run_append rfl hdigits hahead
        have hpart : fraction ('.' :: d :: (rest.takeWhile isDigit ++ r')) =
            '.' :: d :: rest.takeWhile isDigit := by
          rw [fraction, if_pos hd, htake']
        rw [← hcs, List.append_assoc, List.cons_append, List.cons_append, afterDigit, htake, hdrop,
          hpart, ← hpiece]
        have hleft : ('.' :: d :: (rest.takeWhile isDigit ++ r')).drop
            ('.' :: d :: rest.takeWhile isDigit).length = r' := List.drop_left
        rw [hleft]
    | case2 => exact fun _ _ h => absurd rfl h
    | case3 => exact fun _ _ h => absurd rfl h

/-- A piece is cut in the same way from every text that it cannot tell apart. -/
theorem first_append (h : first c (cs ++ r) = (piece, r)) (hopen : piece.isOpen = false)
    (hr : SameAhead r r') : first c (cs ++ r') = (piece, r') := by
  generalize htext : cs ++ r = text at h
  -- The pieces of one character leave everything that follows.
  have hone : ∀ {form}, ((⟨form, [c]⟩ : Piece), text) = (piece, r) →
      cs = [] ∧ piece = ⟨form, [c]⟩ := by
    intro form h
    obtain ⟨rfl, rfl⟩ := Prod.mk.inj h
    exact ⟨List.append_left_eq_self.mp htext, rfl⟩
  revert h
  fun_cases first c text
  · next hkind =>
      intro h
      obtain ⟨rfl, rfl⟩ := hone h
      simp only [List.nil_append, first, hkind]
  · next hkind _ _ hkinds after =>
      intro h
      obtain ⟨rfl, rfl⟩ := Prod.mk.inj h
      have hcs : cs = ['='] := List.append_cancel_right htext
      simp only [hcs, List.singleton_append, first, hkind, hkinds]
  · next hkind _ _ hkinds hequal =>
      intro h
      obtain ⟨rfl, rfl⟩ := hone h
      rw [List.nil_append] at htext ⊢
      simp only [first, hkind, hkinds]
      split
      · next after =>
          obtain ⟨rest, hr', _⟩ := hr.starts (by decide) (by decide) rfl
          exact (hequal rest (htext.symm.trans hr')).elim
      · rfl
  · next hkind hkinds hslash =>
      intro h
      rw [← htext] at h
      simp only [first, hkind, hkinds, if_pos hslash]
      exact afterSlash_append h hopen hr
  · next hkind hkinds hslash hblank =>
      intro h
      obtain ⟨rfl, rfl⟩ := hone h
      simp only [List.nil_append, first, hkind, hkinds, if_neg hslash, if_pos hblank]
  · next hkind hkinds hslash hblank hquote =>
      intro h
      rw [← htext] at h
      simp only [first, hkind, hkinds, if_neg hslash, if_neg hblank, if_pos hquote]
      exact afterQuote_append h hopen
  · next hkind hkinds hslash hblank hquote hdigit =>
      intro h
      rw [← htext] at h
      simp only [first, hkind, hkinds, if_neg hslash, if_neg hblank, if_neg hquote, if_pos hdigit]
      exact afterDigit_append h hr.digit fun hnone => fraction_eq_nil hnone hr
  · next hkind hkinds hslash hblank hquote hdigit hletter =>
      intro h
      rw [← htext] at h
      simp only [first, hkind, hkinds, if_neg hslash, if_neg hblank, if_neg hquote,
        if_neg hdigit, if_pos hletter]
      refine afterLetter_append h (hr.head (fun a b ha hb => ?_) (by decide))
      simp [isNameChar, ha, hb]
  · next hkind hkinds hslash hblank hquote hdigit hletter =>
      intro h
      obtain ⟨rfl, rfl⟩ := hone h
      simp only [List.nil_append, first, hkind, hkinds, if_neg hslash, if_neg hblank,
        if_neg hquote, if_neg hdigit, if_neg hletter]

end

/-! ## Tilings -/

theorem afterQuote_text (rest : List Char) :
    ∃ cs, (afterQuote rest).1.text = '"' :: cs ∧ cs ++ (afterQuote rest).2 = rest := by
  have hall := List.takeWhile_append_dropWhile (p := (· != '"')) (l := rest)
  rw [afterQuote]
  split
  · next hdrop =>
      rw [hdrop] at hall
      exact ⟨_, rfl, hall⟩
  · next quote after hdrop =>
      rw [hdrop] at hall
      exact ⟨_, rfl, (List.append_assoc _ _ _).trans hall⟩

theorem afterDigit_text (c : Char) (rest : List Char) :
    ∃ cs, (afterDigit c rest).1.text = c :: cs ∧ cs ++ (afterDigit c rest).2 = rest := by
  have hall := List.takeWhile_append_dropWhile (p := isDigit) (l := rest)
  have hpart : ∀ r, fraction r <+: r := by
    intro r
    fun_cases fraction r
    · exact List.prefix_cons_inj _ |>.mpr (List.prefix_cons_inj _ |>.mpr
        (List.takeWhile_prefix isDigit))
    · exact List.nil_prefix
    · exact List.nil_prefix
  refine ⟨rest.takeWhile isDigit ++ fraction (rest.dropWhile isDigit), rfl, ?_⟩
  rw [List.append_assoc]
  exact (congrArg _ (List.prefix_iff_eq_append.mp (hpart _))).trans hall

theorem afterSlash_text (rest : List Char) :
    ∃ cs, (afterSlash rest).1.text = '/' :: cs ∧ cs ++ (afterSlash rest).2 = rest := by
  fun_cases afterSlash rest with
  | case1 rest => exact ⟨_, rfl, congrArg _ List.takeWhile_append_dropWhile⟩
  | case2 rest text after hcomment
  | case3 rest text hcomment =>
      have htext := comment_text 1 rest
      rw [hcomment] at htext
      exact ⟨_, rfl, congrArg _ htext⟩
  | case4 => exact ⟨[], rfl, rfl⟩

/-- A piece and what follows it make up what it was cut from. -/
theorem first_text (c : Char) (rest : List Char) :
    ∃ cs, (first c rest).1.text = c :: cs ∧ cs ++ (first c rest).2 = rest := by
  fun_cases first c rest
  · exact ⟨[], rfl, rfl⟩
  · exact ⟨['='], rfl, rfl⟩
  · exact ⟨[], rfl, rfl⟩
  · next hslash => exact hslash ▸ afterSlash_text rest
  · exact ⟨[], rfl, rfl⟩
  · next hquote => exact hquote ▸ afterQuote_text rest
  · exact afterDigit_text c rest
  · exact ⟨_, rfl, List.takeWhile_append_dropWhile⟩
  · exact ⟨[], rfl, rfl⟩

variable {ps ps' : List Piece}

theorem textOf_cons (piece : Piece) (ps : List Piece) :
    textOf (piece :: ps) = piece.text ++ textOf ps :=
  List.flatMap_cons

theorem textOf_append (ps ps' : List Piece) : textOf (ps ++ ps') = textOf ps ++ textOf ps' :=
  List.flatMap_append

/-- What is cut from a text are its pieces. -/
theorem cut_tiled {n : Nat} {text : List Char} (h : text.length ≤ n) :
    Tiled (cut n text) ∧ textOf (cut n text) = text := by
  induction n generalizing text with
  | zero =>
      rw [List.eq_nil_of_length_eq_zero (Nat.le_zero.mp h)]
      exact ⟨trivial, rfl⟩
  | succ n ih =>
      cases text with
      | nil => exact ⟨trivial, rfl⟩
      | cons c rest =>
          obtain ⟨cs, htext, hrest⟩ := first_text c rest
          have hlength : (first c rest).2.length ≤ n := by
            have := congrArg List.length hrest
            rw [List.length_append] at this
            rw [List.length_cons] at h
            omega
          obtain ⟨htiled, heq⟩ := ih hlength
          have hcut : cut (n + 1) (c :: rest) = (first c rest).1 :: cut n (first c rest).2 := rfl
          rw [hcut]
          refine ⟨⟨⟨c, cs, htext, ?_⟩, htiled⟩, ?_⟩
          · rw [heq, hrest]
          · rw [textOf_cons, heq, htext, List.cons_append, hrest]

/-- Pieces that tile a text are what is cut from it. -/
theorem cut_textOf {n : Nat} (h : Tiled ps) (hn : (textOf ps).length ≤ n) :
    cut n (textOf ps) = ps := by
  induction ps generalizing n with
  | nil => cases n <;> rfl
  | cons piece ps ih =>
      obtain ⟨⟨c, cs, htext, hfirst⟩, hrest⟩ := h
      rw [textOf_cons, htext, List.cons_append] at hn ⊢
      cases n with
      | zero => cases hn
      | succ n =>
          rw [List.length_cons, List.length_append] at hn
          rw [cut, hfirst]
          exact congrArg _ (ih hrest (by omega))

/-- The pieces of a source are the only ones that tile it. -/
theorem pieces_eq_iff {source : List Char} :
    pieces source = ps ↔ Tiled ps ∧ textOf ps = source := by
  constructor
  · rintro rfl
    exact cut_tiled (Nat.le_refl _)
  · rintro ⟨h, rfl⟩
    exact cut_textOf h (Nat.le_refl _)

/-! ## Other words -/

/-- The word can be written as a lexeme by itself. -/
def IsWord (word : List Char) : Prop :=
  ∃ c cs, word = c :: cs ∧ isLetter c = true ∧ ∀ d ∈ cs, isNameChar d = true

/-- The lexeme that a word is. -/
def ofWord (word : List Char) : Piece :=
  ⟨.lexeme (.ofWord (String.ofList word)), word⟩

/-- The same piece, or a word in the place of another. -/
def Replaces (piece piece' : Piece) : Prop :=
  piece = piece' ∨ ∃ word word', IsWord word ∧ IsWord word' ∧ piece = ofWord word ∧
    piece' = ofWord word'

/-- Digits and letters begin numbers and words, and nothing else. -/
theorem first_of_isNameChar {c : Char} (h : isNameChar c = true) (rest : List Char) :
    first c rest = if isDigit c then afterDigit c rest else afterLetter c rest := by
  have hne : ∀ d, isNameChar d = false → c ≠ d := by
    rintro d hd rfl
    rw [h] at hd
    cases hd
  have hkind : singleKind? c = none := by
    revert h
    fun_cases singleKind? c <;> intro h <;> first | rfl | exact absurd h (by decide)
  have hkinds : equalKinds? c = none := by
    revert h
    fun_cases equalKinds? c <;> intro h <;> first | rfl | exact absurd h (by decide)
  have hblank : ¬ isBlank c = true := by
    simp [isBlank, hne ' ' (by decide), hne '\r' (by decide), hne '\t' (by decide),
      hne '\n' (by decide)]
  simp only [first, hkind, hkinds, if_neg (hne '/' (by decide)), if_neg hblank,
    if_neg (hne '"' (by decide))]
  by_cases hdigit : isDigit c = true
  · rw [if_pos hdigit, if_pos hdigit]
  · have hletter : isLetter c = true := by simpa [isNameChar, hdigit] using h
    rw [if_neg hdigit, if_neg hdigit, if_pos hletter]

theorem first_of_isLetter {c : Char} (h : isLetter c = true) (rest : List Char) :
    first c rest = afterLetter c rest := by
  rw [first_of_isNameChar (by rw [isNameChar, h, Bool.true_or]), isDigit_of_isLetter h]
  rfl

theorem first_of_isDigit {c : Char} (h : isDigit c = true) (rest : List Char) :
    first c rest = afterDigit c rest := by
  rw [first_of_isNameChar (by rw [isNameChar, h, Bool.or_true]), if_pos h]

/-- A word is cut as such, unless the text behind it goes on with the word. -/
theorem first_ofWord {c : Char} {cs r : List Char} (hc : isLetter c = true)
    (hcs : ∀ d ∈ cs, isNameChar d = true) (hr : r.head?.any isNameChar = false) :
    first c (cs ++ r) = (ofWord (c :: cs), r) := by
  obtain ⟨htake, hdrop⟩ := takeWhile_append_stop hcs hr
  rw [first_of_isLetter hc, afterLetter, htake, hdrop]
  rfl

/-- Tiled texts in which words are replaced by others look the same from the front,
also with something behind them that begins a new line. -/
theorem sameAhead_replaces (h : List.Forall₂ Replaces ps ps') (htiled : Tiled ps)
    {suffix : List Char} (hsuffix : SameAhead [] suffix) :
    SameAhead (textOf ps) (textOf ps' ++ suffix) := by
  induction h with
  | nil => exact hsuffix
  | @cons piece piece' ps ps' hp _ ih =>
      obtain ⟨⟨c, cs, htext, _⟩, htiled⟩ := htiled
      have hrest := ih htiled
      rw [textOf_cons, textOf_cons, List.append_assoc]
      rcases hp with rfl | ⟨word, word', ⟨a, as, rfl, ha, _⟩, ⟨b, bs, rfl, hb, _⟩, rfl, rfl⟩
      · rw [htext, List.cons_append, List.cons_append]
        refine .same c ?_
        cases cs with
        | nil => exact hrest.digit
        | cons d cs => rfl
      · exact .letters _ _ ha hb

/-- Replacing words by words, and adding text on a new line, leaves all other pieces. -/
theorem tiled_replaces (h : List.Forall₂ Replaces ps ps') (htiled : Tiled ps)
    (hopen : ∀ piece ∈ ps, piece.isOpen = false) {suffix : List Piece}
    (hsuffix : SameAhead [] (textOf suffix)) (htiled' : Tiled suffix) :
    Tiled (ps' ++ suffix) := by
  induction h with
  | nil => exact htiled'
  | @cons piece piece' ps ps' hp hps ih =>
      obtain ⟨⟨c, cs, htext, hfirst⟩, htiled⟩ := htiled
      have hahead := sameAhead_replaces hps htiled hsuffix
      rw [← textOf_append] at hahead
      refine ⟨?_, ih htiled fun x hx => hopen x (List.mem_cons_of_mem piece hx)⟩
      rcases hp with rfl | ⟨word, word', ⟨a, as, rfl, ha, has⟩, ⟨b, bs, rfl, hb, hbs⟩, rfl, rfl⟩
      · exact ⟨c, cs, htext, first_append hfirst (hopen _ List.mem_cons_self) hahead⟩
      · refine ⟨b, bs, rfl, first_ofWord hb hbs ?_⟩
        have hstop : (textOf ps).head?.any isNameChar = false := by
          cases htext
          rw [first_of_isLetter ha] at hfirst
          have hdrop := (Prod.mk.inj hfirst).2
          rw [← hdrop]
          exact head?_dropWhile_not isNameChar _
        have hhead : (textOf ps).head?.any isNameChar =
            (textOf (ps' ++ suffix)).head?.any isNameChar :=
          hahead.head (fun a b ha hb => by simp [isNameChar, ha, hb]) (by decide)
        exact hhead ▸ hstop

end Piece
end Lox
