import Lox.Proofs.Scanning.Gaps
import Lox.Proofs.Typed.Semicolons
import Mathlib.Data.List.TakeWhile

/-!
# A source without its last semicolon

Leaving out the semicolon that is the last token of a source leaves out that token and nothing
else. What stood behind it is blank or a comment, and no piece in front of it goes on in that,
with the exception of a slash, which would begin another comment. A slash is not what stands in
front of the last semicolon of a program.
-/

namespace Lox

namespace Piece

variable {c : Char} {cs r r' : List Char} {piece : Piece} {ps qs : List Piece}

/-- What can stand behind the last token: a blank character or a comment, or nothing. -/
inductive Pauses : List Char → Prop
  | finish : Pauses []
  | blank {c : Char} (rest : List Char) : isBlank c = true → Pauses (c :: rest)
  | comment (rest : List Char) : Pauses ('/' :: rest)

theorem Pauses.head (h : Pauses r) {q : Char → Bool} (hblank : ∀ c, isBlank c = true → q c = false)
    (hslash : q '/' = false) : r.head?.any q = false := by
  cases h with
  | finish => rfl
  | blank _ hc => exact hblank _ hc
  | comment => exact hslash

theorem eq_of_isBlank (h : isBlank c = true) : c = ' ' ∨ c = '\r' ∨ c = '\t' ∨ c = '\n' := by
  simpa [isBlank, or_assoc] using h

theorem Pauses.digit (h : Pauses r) : r.head?.any isDigit = false :=
  h.head (fun c hc => by rcases eq_of_isBlank hc with rfl | rfl | rfl | rfl <;> rfl) rfl

theorem Pauses.name (h : Pauses r) : r.head?.any isNameChar = false :=
  h.head (fun c hc => by rcases eq_of_isBlank hc with rfl | rfl | rfl | rfl <;> rfl) rfl

theorem Pauses.ne (h : Pauses r) {d : Char} (hblank : isBlank d = false) (hslash : d ≠ '/')
    (rest : List Char) : r ≠ d :: rest := by
  rintro rfl
  cases h with
  | blank _ hc =>
      rw [hblank] at hc
      cases hc
  | comment => exact hslash rfl

theorem Pauses.fraction (h : Pauses r) : fraction r = [] := by
  fun_cases Piece.fraction r with
  | case1 d rest hd => exact absurd rfl (h.ne (by decide) (by decide) (d :: rest))
  | case2 => rfl
  | case3 => rfl

/-- A comment of one line goes up to the end of the line. -/
theorem afterSlash_pauses (h : afterSlash (cs ++ ';' :: r) = (piece, ';' :: r))
    (hslash : piece.form ≠ .lexeme .slash) : afterSlash (cs ++ r') = (piece, r') := by
  generalize htext : cs ++ ';' :: r = text at h
  revert h
  fun_cases afterSlash text with
  | case1 rest =>
      intro h
      obtain ⟨-, hrest⟩ := Prod.mk.inj h
      have hstop := head?_dropWhile_newline rest
      rw [hrest] at hstop
      simp at hstop
  | case2 rest inner after hcomment =>
      intro h
      obtain ⟨rfl, rfl⟩ := Prod.mk.inj h
      have hrest := comment_text 1 rest
      rw [hcomment] at hrest
      have hcs : cs = '*' :: inner := by
        rw [← hrest, ← List.cons_append] at htext
        exact List.append_cancel_right htext
      rw [hcs, List.cons_append, afterSlash, comment_append hcomment]
  | case3 =>
      intro h
      cases h
  | case4 =>
      intro h
      obtain ⟨rfl, -⟩ := Prod.mk.inj h
      exact absurd rfl hslash

/-- A piece in front of a semicolon is cut in the same way where the semicolon is left out. -/
theorem first_pauses (h : first c (cs ++ ';' :: r) = (piece, ';' :: r))
    (hslash : piece.form ≠ .lexeme .slash) (hopen : piece.isOpen = false) (hr : Pauses r') :
    first c (cs ++ r') = (piece, r') := by
  generalize htext : cs ++ ';' :: r = text at h
  have hone : ∀ {form}, ((⟨form, [c]⟩ : Piece), text) = (piece, ';' :: r) →
      cs = [] ∧ piece = ⟨form, [c]⟩ := by
    intro form h
    obtain ⟨rfl, rfl⟩ := Prod.mk.inj h
    exact ⟨List.append_left_eq_self.mp htext, rfl⟩
  revert h
  fun_cases first c text
  · next hkind =>
      intro h
      obtain ⟨rfl, rfl⟩ := hone h
      simp only [List.nil_append, first, hkind]
  · next hkind _ _ hkinds after =>
      intro h
      obtain ⟨rfl, rfl⟩ := Prod.mk.inj h
      have hcs : cs = ['='] := List.append_cancel_right htext
      simp only [hcs, List.singleton_append, first, hkind, hkinds]
  · next hkind _ _ hkinds _ =>
      intro h
      obtain ⟨rfl, rfl⟩ := hone h
      simp only [List.nil_append, first, hkind, hkinds]
      split
      · next after => exact absurd rfl (hr.ne (by decide) (by decide) after)
      · rfl
  · next hkind hkinds hc =>
      intro h
      rw [← htext] at h
      simp only [first, hkind, hkinds, if_pos hc]
      exact afterSlash_pauses h hslash
  · next hkind hkinds hc hblank =>
      intro h
      obtain ⟨rfl, rfl⟩ := hone h
      simp only [List.nil_append, first, hkind, hkinds, if_neg hc, if_pos hblank]
  · next hkind hkinds hc hblank hquote =>
      intro h
      rw [← htext] at h
      simp only [first, hkind, hkinds, if_neg hc, if_neg hblank, if_pos hquote]
      exact afterQuote_append h hopen
  · next hkind hkinds hc hblank hquote hdigit =>
      intro h
      rw [← htext] at h
      simp only [first, hkind, hkinds, if_neg hc, if_neg hblank, if_neg hquote, if_pos hdigit]
      exact afterDigit_append h hr.digit.symm fun _ => hr.fraction
  · next hkind hkinds hc hblank hquote hdigit hletter =>
      intro h
      rw [← htext] at h
      simp only [first, hkind, hkinds, if_neg hc, if_neg hblank, if_neg hquote, if_neg hdigit,
        if_pos hletter]
      exact afterLetter_append h hr.name.symm
  · next hkind hkinds hc hblank hquote hdigit hletter =>
      intro h
      obtain ⟨rfl, rfl⟩ := hone h
      simp only [List.nil_append, first, hkind, hkinds, if_neg hc, if_neg hblank, if_neg hquote,
        if_neg hdigit, if_neg hletter]

/-- Pieces that are no tokens and no faults are blank or comments. -/
theorem pauses_of_tiled (h : Tiled qs) (hform : ∀ q ∈ qs, ∀ kind, q.form ≠ .lexeme kind)
    (hclean : ∀ q ∈ qs, q.fault? = none) : Pauses (textOf qs) := by
  cases qs with
  | nil => exact .finish
  | cons q qs =>
      obtain ⟨⟨c, cs, htext, hfirst⟩, -⟩ := h
      have hform' := hform q List.mem_cons_self
      have hclean' := hclean q List.mem_cons_self
      have hq : q = (first c (cs ++ textOf qs)).1 := by rw [hfirst]
      rw [textOf_cons, htext, List.cons_append]
      rw [hq] at hform' hclean'
      revert hform' hclean'
      fun_cases first c (cs ++ textOf qs)
      case case4 hc => exact fun _ _ => hc ▸ .comment _
      case case5 hblank => exact fun _ _ => .blank _ hblank
      case case6 =>
        rw [afterQuote]
        split
        · intro _ h
          cases h
        · exact fun h _ => absurd rfl (h _)
      case case9 =>
        intro _ h
        cases h
      all_goals exact fun h _ => absurd rfl (h _)

/-! ## Pieces around a semicolon -/

theorem any_head?_append {q : Char → Bool} (text : List Char)
    (h : r.head?.any q = r'.head?.any q) :
    (text ++ r).head?.any q = (text ++ r').head?.any q := by
  cases text with
  | nil => exact h
  | cons c text => rfl

theorem digit_shortened (ps : List Piece) (hqs : Pauses (textOf qs)) :
    (textOf (ps ++ ⟨.lexeme .semicolon, [';']⟩ :: qs)).head?.any isDigit =
      (textOf (ps ++ qs)).head?.any isDigit := by
  induction ps with
  | nil => exact hqs.digit.symm
  | cons q ps ih =>
      rw [List.cons_append, List.cons_append, textOf_cons, textOf_cons]
      exact any_head?_append q.text ih

theorem tiled_shortened (hslash : ∀ q, ps.getLast? = some q → q.form ≠ .lexeme .slash)
    (hopen : ∀ q ∈ ps, q.isOpen = false) (hqs : Pauses (textOf qs))
    (h : Tiled (ps ++ ⟨.lexeme .semicolon, [';']⟩ :: qs)) : Tiled (ps ++ qs) := by
  induction ps with
  | nil => exact h.2
  | cons q ps ih =>
      obtain ⟨⟨c, cs, htext, hfirst⟩, htiled⟩ := h
      obtain ⟨hq, hps⟩ := List.forall_mem_cons.mp hopen
      cases ps with
      | nil => exact ⟨⟨c, cs, htext, first_pauses hfirst (hslash q rfl) hq hqs⟩, htiled.2⟩
      | cons q' ps =>
          have hlast : ∀ x, (q' :: ps).getLast? = some x → x.form ≠ .lexeme .slash :=
            fun x hx => hslash x (by rw [List.getLast?_cons_cons]; exact hx)
          obtain ⟨d, ds, htext', _⟩ := htiled.1
          have hahead : SameAhead (textOf (q' :: (ps ++ ⟨.lexeme .semicolon, [';']⟩ :: qs)))
              (textOf (q' :: (ps ++ qs))) := by
            rw [textOf_cons, textOf_cons, htext']
            exact .same d (any_head?_append ds (digit_shortened ps hqs))
          exact ⟨⟨c, cs, htext, first_append hfirst hq hahead⟩, ih hlast hps htiled⟩

theorem Tiled.of_append (h : Tiled (ps ++ qs)) : Tiled qs := by
  induction ps with
  | nil => exact h
  | cons q ps ih => exact ih h.2

theorem tokensFrom_eq_nil (p : Position) (h : ∀ q ∈ qs, ∀ kind, q.form ≠ .lexeme kind) :
    tokensFrom p qs = [] := by
  induction qs generalizing p with
  | nil => rfl
  | cons q qs ih =>
      obtain ⟨hq, hqs⟩ := List.forall_mem_cons.mp h
      rw [tokensFrom_cons, token?_of_not_lexeme fun ⟨kind, hform⟩ => hq kind hform, ih _ hqs]
      rfl

/-- The last token of a text, in its piece, with what is around that. -/
theorem exists_last_piece {p : Position} {ts : List Token} {t : Token}
    (h : tokensFrom p ps = ts ++ [t]) :
    ∃ before piece after, ps = before ++ piece :: after ∧ tokensFrom p before = ts ∧
      piece.token? (p.after (textOf before)) = some t ∧
      ∀ q ∈ after, ∀ kind, q.form ≠ .lexeme kind := by
  induction ps using List.reverseRecOn with
  | nil => simp [tokensFrom, place] at h
  | append_singleton ps q ih =>
      rw [tokensFrom_append, tokensFrom_cons] at h
      cases ht : q.token? (p.after (textOf ps)) with
      | some u =>
          simp only [ht, Option.toList_some, tokensFrom, place, List.filterMap_nil,
            List.append_nil] at h
          obtain ⟨hts, hu⟩ := List.append_inj' h rfl
          refine ⟨ps, q, [], rfl, hts, ?_, List.forall_mem_nil _⟩
          rw [ht, List.singleton_inj.mp hu]
      | none =>
          simp only [ht, Option.toList_none, tokensFrom, place, List.filterMap_nil,
            List.append_nil] at h
          obtain ⟨before, piece, after, rfl, hbefore, hpiece, hafter⟩ := ih h
          refine ⟨before, piece, after ++ [q], by simp, hbefore, hpiece, ?_⟩
          refine List.forall_mem_append.mpr ⟨hafter, List.forall_mem_singleton.mpr ?_⟩
          intro kind hform
          simp [token?, hform] at ht

end Piece

open Piece

/-- The semicolon that is the last token of a source can be left out of the source, and nothing
else becomes of the scan, unless a slash stands in front of it. -/
theorem scan_shortened {source : List Char} {ts : List Token} {t eof : Token}
    (hclean : (scan source).faults = []) (htokens : (scan source).tokens = ts ++ [t, eof])
    (ht : t.kind = .semicolon) :
    ∃ before after, source = before ++ ';' :: after ∧ t.StandsAt source before.length ∧
      (LastIs (· != .slash) ts → (scan (before ++ after)).faults = [] ∧
        ∃ eof' : Token, eof'.kind = .eof ∧ (scan (before ++ after)).tokens = ts ++ [eof']) := by
  obtain ⟨htiled, htext⟩ := pieces_eq_iff.mp (rfl : pieces source = _)
  have hfaults := scan_faults_eq_nil.mp hclean
  have hconcat : (scan source).tokens = ts ++ [t] ++ [eof] := by
    rw [htokens, List.append_assoc]
    rfl
  rw [scan_tokens_eq] at hconcat
  obtain ⟨hown, -⟩ := List.append_inj' hconcat rfl
  obtain ⟨ps, piece, qs, hps, hbefore, hpiece, hqs⟩ := exists_last_piece hown
  rw [hps] at htiled htext hfaults
  obtain ⟨hfaultsBefore, hfaultsAfter⟩ := List.forall_mem_append.mp hfaults
  obtain ⟨-, hfaultsAfter⟩ := List.forall_mem_cons.mp hfaultsAfter
  obtain ⟨⟨c, cs, hcs, hfirst⟩, htiledAfter⟩ := htiled.of_append
  have hsource : source = textOf ps ++ (c :: cs ++ textOf qs) := by
    rw [← htext, textOf_append, textOf_cons, hcs]
  have hstands := standsAt hfirst hcs hsource hpiece
  have hform : piece.form = .lexeme .semicolon := by
    rw [token?] at hpiece
    split at hpiece
    · next kind hform =>
        cases hpiece
        rw [hform, ← ht]
    · cases hpiece
  have hsign : piece = ⟨.lexeme .semicolon, [';']⟩ := by
    have hq : (first c (cs ++ textOf qs)).1 = piece := by rw [hfirst]
    have hspelling := first_spelling (by rw [hq, hform]) (rfl : TokenKind.semicolon.isFree = false)
    rw [hq] at hspelling
    have htext : piece.text = [';'] := String.ofList_inj.mp hspelling
    rw [← hform, ← htext]
  rw [hsign] at htiled hcs
  obtain ⟨rfl, rfl⟩ := List.cons.inj hcs
  have hpauses := pauses_of_tiled htiledAfter hqs hfaultsAfter
  refine ⟨textOf ps, textOf qs, hsource, hstands, fun hslash => ?_⟩
  have hlast : ∀ q, ps.getLast? = some q → q.form ≠ .lexeme .slash := by
    intro q hq hform
    obtain ⟨ps, rfl⟩ := List.getLast?_eq_some_iff.mp hq
    rw [tokensFrom_append, tokensFrom_cons, token?, hform] at hbefore
    rw [← hbefore] at hslash
    have hkind : (TokenKind.slash != .slash) = true := lastIs_concat.mp hslash
    cases hkind
  have hshort : pieces (textOf ps ++ textOf qs) = ps ++ qs := pieces_eq_iff.mpr
    ⟨tiled_shortened hlast (fun q hq => isOpen_of_fault? (hfaultsBefore q hq)) hpauses htiled,
      textOf_append ps qs⟩
  have hshortTokens : (scan (textOf ps ++ textOf qs)).tokens = ts ++ [Token.endOfInput
      (Position.after {} (textOf ps ++ textOf qs)).line
      (Position.after {} (textOf ps ++ textOf qs)).column] := by
    rw [scan_tokens_eq, hshort, tokensFrom_append, hbefore, tokensFrom_eq_nil _ hqs,
      List.append_nil]
  refine ⟨?_, _, rfl, hshortTokens⟩
  rw [scan_faults_eq_nil, hshort]
  exact List.forall_mem_append.mpr ⟨hfaultsBefore, hfaultsAfter⟩

/-! ## Parses -/

open Parse ParseState

variable {im : Importer} {limit : ErrorLimit} {name : Option String} {tokens ts : List Token}
  {p : List (Stmt Unit)}

theorem parseProgram_gives_reached (hlimit : limit.reachedBy 0 = some true) :
    (parseProgram im limit tokens name).Gives [] := by
  obtain ⟨_, hunread, hhalt⟩ := program_unread im limit (by simp [hlimit]) (im.supply tokens)
    (rfl : (ofTokens tokens).faults = [])
  obtain rfl := hhalt hlimit
  rw [parseProgram, hunread]
  exact ⟨rfl, rfl, rfl⟩

/-- Under a limit that nothing can be compared with, a parse goes over semicolons. -/
theorem parseProgram_gives_unordered {eof : Token} (hlimit : limit.reachedBy 0 = none)
    (hts : ∀ t ∈ ts, t.kind ≠ .eof) (hk : eof.kind = .eof) :
    (parseProgram im limit (ts ++ [eof]) name).Gives p ↔
      (∀ t ∈ ts, t.kind = .semicolon) ∧ p = [] := by
  have hskip : (skipSemicolons (ofTokens (ts ++ [eof]))).ahead =
      ts.dropWhile (·.kind == .semicolon) :=
    congrArg (List.dropWhile fun t : Token => t.kind == .semicolon) (ofTokens_ended hts hk).1
  have hall : ts.dropWhile (·.kind == .semicolon) = [] ↔ ∀ t ∈ ts, t.kind = .semicolon := by
    simp [List.dropWhile_eq_nil_iff]
  have hclean : (skipSemicolons (ofTokens (ts ++ [eof]))).faults = [] := rfl
  rw [← hall]
  cases hdrop : ts.dropWhile (·.kind == .semicolon) with
  | nil =>
      rw [hdrop] at hskip
      simp only [parseProgram, program, hskip]
      exact ⟨fun h => ⟨trivial, h.program.symm⟩, fun h => ⟨rfl, rfl, h.2.symm⟩⟩
  | cons t rest =>
      rw [hdrop] at hskip
      simp only [parseProgram, program, hskip, hclean, List.length_nil, hlimit]
      constructor
      · intro h
        cases h.halt
      · intro h
        cases h.1

section

variable {source : String} {t eof : Token}

/-- Without its last semicolon a program can be typed in, and gives the same statements. There is
one exception: the file of an import leaves something open, and the semicolon closes that, where
the tokens in front of it are closed already. Then no program is given at all. -/
theorem parseProgram_shortened (hscanned : (scan source.toList).faults = [])
    (htokens : (scan source.toList).tokens = ts ++ [t, eof]) (ht : t.kind = .semicolon)
    (hp : (parseProgram im limit (unitTokens false source) name).Gives p) :
    ∃ before after, source.toList = before ++ ';' :: after ∧
      t.StandsAt source.toList before.length ∧
      (limit.reachedBy 0 = some false → (scan (before ++ after)).faults = []) ∧
      let parsed := parseProgram im limit (unitTokens true (String.ofList (before ++ after))) name
      let closes := limit.reachedBy 0 = some false → ClosedUnit ts →
        ∃ out paths, Expands im [] ts out paths ∧ ClosedUnit out
      (parsed.Gives p ↔ closes) ∧ ∀ q, parsed.Gives q → closes := by
  obtain ⟨before, after, hsource, hstands, hshort⟩ := scan_shortened hscanned htokens ht
  obtain ⟨all, last, htokens', hk, hlex⟩ := scan_tokens source.toList
  have hconcat : ts ++ [t] ++ [eof] = all ++ [last] := by rw [← htokens', htokens]; simp
  obtain ⟨rfl, hlast⟩ := List.append_inj' hconcat rfl
  have hended : ∀ u ∈ ts ++ [t], u.kind ≠ .eof := fun u hu => (hlex u hu).ne_eof
  have hunit : unitTokens false source = ts ++ [t] ++ [last] := htokens'
  rw [hunit] at hp
  refine ⟨before, after, hsource, hstands, ?_⟩
  cases hlimit : limit.reachedBy 0 with
  | none =>
      obtain ⟨hsemicolons, rfl⟩ := (parseProgram_gives_unordered hlimit hended hk).mp hp
      have hown : ∀ u ∈ ts, u.kind = .semicolon := fun u hu =>
        hsemicolons u (List.mem_append_left _ hu)
      have hslash : LastIs (· != .slash) ts := fun u hu => by
        rw [hown u (List.mem_of_getLast? hu)]
        rfl
      obtain ⟨_, eof', hk', htokensShort⟩ := hshort hslash
      have htokens' : (scan (String.ofList (before ++ after)).toList).tokens = ts ++ [eof'] := by
        rw [String.toList_ofList, htokensShort]
      obtain ⟨us, hus, hunitShort⟩ := unitTokens_eq true htokens'
      have hall : ∀ u ∈ ts ++ us, u.kind = .semicolon := List.forall_mem_append.mpr ⟨hown, hus⟩
      have hended' : ∀ u ∈ ts ++ us, u.kind ≠ .eof := fun u hu => by simp [hall u hu]
      rw [hunitShort]
      exact ⟨(fun h => nomatch h), ⟨(fun _ h => nomatch h), fun _ =>
        (parseProgram_gives_unordered hlimit hended' hk').mpr ⟨hall, rfl⟩⟩, fun _ _ h => nomatch h⟩
  | some reached =>
      cases reached with
      | true =>
          obtain rfl := hp.program.symm.trans (parseProgram_gives_reached hlimit).program
          exact ⟨(fun h => nomatch h), ⟨(fun _ h => nomatch h),
            fun _ => parseProgram_gives_reached hlimit⟩, fun _ _ h => nomatch h⟩
      | false =>
          have hassembles := (parseProgram_gives_iff hlimit hended hk).mp hp
          have hphrase := hassembles.endsPhrase_or_closesUnit ht
          have hslash : LastIs (· != .slash) ts := hphrase.mono fun kind h => by
            cases kind <;> first | rfl | cases h
          obtain ⟨hfaults, eof', hk', htokensShort⟩ := hshort hslash
          obtain ⟨us, hclose, hmem, hgives, hcloses⟩ :=
            closeUnit_assembles_iff eof' hassembles ht
          have hunitShort : unitTokens true (String.ofList (before ++ after)) = us ++ [eof'] := by
            rw [unitTokens, if_pos rfl, String.toList_ofList, htokensShort, hclose]
          have hended' : ∀ u ∈ us, u.kind ≠ .eof := by
            intro u hu
            rcases hmem u hu with hu | hu
            · exact hended u (List.mem_append_left _ hu)
            · simp [hu]
          have hiff (q : List (Stmt Unit)) : (parseProgram im limit (us ++ [eof']) name).Gives q ↔
              Assembles im [] us q := parseProgram_gives_iff hlimit hended' hk'
          dsimp only
          rw [hunitShort]
          refine ⟨fun _ => hfaults, ⟨fun h _ => ?_, fun h => (hiff p).mpr (hgives (h rfl))⟩,
            fun q h _ => ?_⟩
          · exact hcloses p ((hiff p).mp h)
          · exact hcloses q ((hiff q).mp h)

end

end Lox
