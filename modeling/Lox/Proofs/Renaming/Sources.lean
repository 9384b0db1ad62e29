import Lox.Proofs.Joining.Reading
import Lox.Proofs.Renaming.Occurrences

/-!
# Sources with another name in them

The words that some tokens were read from are replaced by another one. What is left of the
source is cut into the same pieces as before, so that the other source has the same tokens
at other places, but for the name.

A token is told by its position, because no two tokens of a source begin at the same one.
-/

namespace Lox

/-! ## Positions -/

namespace Position

/-- The position is on an earlier line, or on the same one and further left. -/
def Before (p q : Position) : Prop :=
  p.line < q.line ∨ p.line = q.line ∧ p.column < q.column

variable {p q r : Position}

theorem Before.trans (h : p.Before q) (h' : q.Before r) : p.Before r := by
  rw [Before] at *
  omega

theorem Before.ne (h : p.Before q) : p ≠ q := by
  rintro rfl
  rw [Before] at h
  omega

theorem before_next (p : Position) (c : Char) : p.Before (p.next c) := by
  rw [next]
  split
  · exact .inl (Nat.lt_succ_self _)
  · exact .inr ⟨rfl, Nat.lt_succ_self _⟩

theorem before_after (p : Position) {text : List Char} (h : text ≠ []) :
    p.Before (p.after text) := by
  induction text generalizing p with
  | nil => exact absurd rfl h
  | cons c text ih =>
      cases text with
      | nil => exact p.before_next c
      | cons d text => exact (p.before_next c).trans (ih (p.next c) (List.cons_ne_nil d text))

end Position

namespace Piece

variable {p q : Position} {piece : Piece} {ps : List Piece}

theorem position_token? {t : Token} (h : piece.token? p = some t) : t.position = p := by
  rw [token?] at h
  split at h
  · cases h
    rfl
  · cases h

theorem text_ne_nil (h : Tiled ps) : ∀ piece ∈ ps, piece.text ≠ [] := by
  induction ps with
  | nil => exact fun _ hmem => absurd hmem List.not_mem_nil
  | cons piece ps ih =>
      obtain ⟨⟨c, cs, htext, _⟩, hrest⟩ := h
      exact List.forall_mem_cons.mpr ⟨htext ▸ List.cons_ne_nil c cs, ih hrest⟩

/-- A piece begins where the text begins or later, and before it ends. -/
theorem place_bounds (hps : ∀ piece ∈ ps, piece.text ≠ []) (h : (q, piece) ∈ place p ps) :
    (q = p ∨ p.Before q) ∧ q.Before (p.after (textOf ps)) := by
  induction ps generalizing p with
  | nil => cases h
  | cons first rest ih =>
      rw [List.forall_mem_cons] at hps
      rw [textOf_cons, Position.after_append]
      simp only [place, List.mem_cons, Prod.mk.injEq] at h
      have hfirst := p.before_after hps.1
      rcases h with ⟨rfl, _⟩ | h
      · refine ⟨.inl rfl, ?_⟩
        rw [← Position.after_append]
        exact q.before_after (List.append_ne_nil_of_left_ne_nil hps.1 _)
      · obtain ⟨hfrom, hend⟩ := ih hps.2 h
        refine ⟨.inr ?_, hend⟩
        rcases hfrom with rfl | hfrom
        · exact hfirst
        · exact hfirst.trans hfrom

theorem place_pairwise (p : Position) (hps : ∀ piece ∈ ps, piece.text ≠ []) :
    (place p ps).Pairwise fun x y => x.1.Before y.1 := by
  induction ps generalizing p with
  | nil => exact .nil
  | cons first rest ih =>
      rw [List.forall_mem_cons] at hps
      refine List.pairwise_cons.mpr ⟨fun ⟨q, piece⟩ hmem => ?_, ih _ hps.2⟩
      have hfirst := p.before_after hps.1
      rcases (place_bounds hps.2 hmem).1 with rfl | hfrom
      · exact hfirst
      · exact hfirst.trans hfrom

end Piece

open Piece

theorem pieces_text_ne_nil (source : List Char) : ∀ piece ∈ pieces source, piece.text ≠ [] :=
  text_ne_nil (pieces_eq_iff.mp rfl).1

/-- The tokens of a source follow each other. -/
theorem scan_pairwise (source : List Char) :
    (scan source).tokens.Pairwise fun t u => t.position.Before u.position := by
  have hps := pieces_text_ne_nil source
  rw [scan_tokens_eq]
  refine List.pairwise_append.mpr ⟨?_, List.pairwise_singleton _ _, fun t ht u hu => ?_⟩
  · refine List.pairwise_filterMap.mpr ((place_pairwise {} hps).imp ?_)
    rintro ⟨p, piece⟩ ⟨q, piece'⟩ hbefore t ht u hu
    rwa [position_token? ht, position_token? hu]
  · obtain ⟨⟨q, piece⟩, hmem, ht⟩ := List.mem_filterMap.mp ht
    rw [List.mem_singleton.mp hu, position_token? ht]
    have hend := (place_bounds hps hmem).2
    rwa [(pieces_eq_iff.mp (rfl : pieces source = _)).2] at hend

theorem scan_positions_nodup (source : List Char) :
    ((scan source).tokens.map Token.position).Nodup :=
  List.pairwise_map.mpr ((scan_pairwise source).imp fun h => h.ne)

theorem scan_nodup (source : List Char) : (scan source).tokens.Nodup :=
  List.Nodup.of_map _ (scan_positions_nodup source)

/-! ## Words -/

namespace Piece

variable {c : Char} {rest word : List Char}

theorem first_letter (hc : isLetter c = true) (rest : List Char) :
    (first c rest).1 = ofWord (c :: rest.takeWhile isNameChar) := by
  rw [first_of_isLetter hc]
  rfl

/-- A name is a word. -/
theorem eq_ofWord_of_form (h : (first c rest).1.form = .lexeme .identifier) :
    ∃ word, IsWord word ∧ (first c rest).1 = ofWord word := by
  by_cases hc : isLetter c = true
  · exact ⟨_, ⟨c, _, rfl, hc, fun d hd => List.all_eq_true.mp List.all_takeWhile d hd⟩,
      first_letter hc rest⟩
  · have hkind : isSymbol .identifier = true := by
      revert h
      fun_cases first c rest
      · next hk => intro h; cases h; exact isSymbol_of_singleKind? hk
      · next hk _ => intro h; cases h; exact (isSymbol_of_equalKinds? hk).1
      · next hk _ => intro h; cases h; exact (isSymbol_of_equalKinds? hk).2
      · exact afterSlash_form
      · intro h; cases h
      · exact afterQuote_form
      · intro h; cases h
      · next hletter => exact absurd hletter hc
      · intro h; cases h
    cases hkind

/-- A piece that is spelled like a word is that word. -/
theorem eq_ofWord_of_text (hword : IsWord word) (h : (first c rest).1.text = word) :
    (first c rest).1 = ofWord word := by
  obtain ⟨d, ds, rfl, hd, _⟩ := hword
  obtain ⟨cs, htext, _⟩ := first_text c rest
  obtain ⟨rfl, rfl⟩ := List.cons.inj (htext.symm.trans h)
  rw [first_letter hd] at h ⊢
  exact congrArg ofWord h

end Piece

/-- A token of a source is its end, or was read from a piece. -/
theorem mem_scan_cases {source : List Char} {t : Token} (h : t ∈ (scan source).tokens) :
    (t.kind = .eof ∧ t.lexeme = "") ∨
      ∃ piece, (t.position, piece) ∈ place {} (pieces source) ∧
        piece.token? t.position = some t ∧ ∃ c rest, piece = (first c rest).1 := by
  rw [scan_tokens_eq] at h
  rcases List.mem_append.mp h with h | h
  · obtain ⟨⟨q, piece⟩, hmem, ht⟩ := List.mem_filterMap.mp h
    obtain rfl := position_token? ht
    exact .inr ⟨piece, hmem, ht, eq_first_of_mem_cut (mem_of_mem_place hmem)⟩
  · rw [List.mem_singleton.mp h]
    exact .inl ⟨rfl, rfl⟩

theorem Piece.token?_eq_some {p : Position} {piece : Piece} {t : Token}
    (h : piece.token? p = some t) :
    piece.form = .lexeme t.kind ∧ t.lexeme = String.ofList piece.text := by
  rw [token?] at h
  split at h
  · next kind hform =>
      cases h
      exact ⟨hform, rfl⟩
  · cases h

/-- The token of a name was read from a word. -/
theorem exists_word_of_mem_scan {source : List Char} {t : Token} (h : t ∈ (scan source).tokens)
    (hk : t.kind = .identifier) :
    ∃ word, IsWord word ∧ t.lexeme = String.ofList word ∧
      TokenKind.ofWord (String.ofList word) = .identifier ∧
      (t.position, ofWord word) ∈ place {} (pieces source) := by
  rcases mem_scan_cases h with ⟨heof, _⟩ | ⟨piece, hmem, ht, c, rest, rfl⟩
  · rw [hk] at heof
    cases heof
  · obtain ⟨hform, hlexeme⟩ := token?_eq_some ht
    rw [hk] at hform
    obtain ⟨word, hword, hpiece⟩ := eq_ofWord_of_form hform
    rw [hpiece] at hmem hlexeme hform
    exact ⟨word, hword, hlexeme, Form.lexeme.inj hform, hmem⟩

/-- A token that is spelled like a name is one. -/
theorem kind_of_lexeme {source : List Char} {t u : Token} (ht : t ∈ (scan source).tokens)
    (hu : u ∈ (scan source).tokens) (hk : u.kind = .identifier) (h : t.lexeme = u.lexeme) :
    t.kind = .identifier := by
  obtain ⟨word, hword, hlexeme, hname, _⟩ := exists_word_of_mem_scan hu hk
  rw [hlexeme] at h
  rcases mem_scan_cases ht with ⟨_, hempty⟩ | ⟨piece, _, ht, c, rest, rfl⟩
  · obtain ⟨d, ds, rfl, _⟩ := hword
    rw [h] at hempty
    exact absurd hempty (by simp)
  · obtain ⟨hform, hlexeme'⟩ := token?_eq_some ht
    have htext := String.ofList_injective (hlexeme'.symm.trans h)
    rw [eq_ofWord_of_text hword htext] at hform
    exact (Form.lexeme.inj hform).symm.trans hname

/-! ## Another word -/

namespace Piece

/-- Pieces from `p` on, with a word in the place of those at the picked positions. -/
def replaceAt (picked : Position → Bool) (word : List Char) (p : Position) :
    List Piece → List Piece
  | [] => []
  | piece :: rest =>
    (if picked p then ofWord word else piece) ::
      replaceAt picked word (p.after piece.text) rest

end Piece

/-- Does one of the tokens begin here? -/
def beginsAt (ts : List Token) (p : Position) : Bool :=
  ts.any (·.position = p)

/-- The source with a word in the place of some of its tokens. -/
def replaceTokens (ts : List Token) (word : String) (source : String) : String :=
  String.ofList (textOf (replaceAt (beginsAt ts) word.toList {} (pieces source.toList)))

/-- The same token elsewhere, with another lexeme if it was picked. -/
structure Reworded (picked : Position → Bool) (word : String) (t t' : Token) : Prop where
  kind : t'.kind = t.kind
  literal : t'.literal = t.literal
  lexeme : t'.lexeme = if picked t.position then word else t.lexeme

/-- What is picked of some pieces are names. -/
def PicksNames (picked : Position → Bool) (placed : List (Position × Piece)) : Prop :=
  ∀ x ∈ placed, picked x.1 = true → ∃ word, IsWord word ∧
    TokenKind.ofWord (String.ofList word) = .identifier ∧ x.2 = ofWord word

/-- A name that can be written in a source. -/
structure IsIdentifier (word : String) : Prop where
  letters : IsWord word.toList
  name : TokenKind.ofWord word = .identifier

namespace Piece

variable {picked : Position → Bool} {word : String} {p p' : Position} {ps : List Piece}

theorem replaces_replaceAt (hword : IsIdentifier word) (h : PicksNames picked (place p ps)) :
    List.Forall₂ Replaces ps (replaceAt picked word.toList p ps) := by
  induction ps generalizing p with
  | nil => exact .nil
  | cons piece rest ih =>
      obtain ⟨hpiece, hrest⟩ := List.forall_mem_cons.mp h
      refine .cons ?_ (ih hrest)
      split
      · next hp =>
          obtain ⟨old, hold, _, rfl⟩ := hpiece hp
          exact .inr ⟨old, word.toList, hold, hword.letters, rfl, rfl⟩
      · exact .inl rfl

theorem reworded_token? (hword : IsIdentifier word) {piece : Piece}
    (h : picked p = true → ∃ old, IsWord old ∧
      TokenKind.ofWord (String.ofList old) = .identifier ∧ piece = ofWord old) :
    List.Forall₂ (Reworded picked word) (piece.token? p).toList
      ((if picked p then ofWord word.toList else piece).token? p').toList := by
  cases hp : picked p with
  | true =>
      obtain ⟨old, _, hname, rfl⟩ := h hp
      have hname' : TokenKind.ofWord (String.ofList word.toList) = .identifier := by
        rw [String.ofList_toList]
        exact hword.name
      refine .cons ⟨hname'.trans hname.symm, ?_, ?_⟩ .nil
      · simp only [hname, hname', literal]
      · change _ = if picked p = true then word else _
        rw [if_pos hp]
        exact String.ofList_toList
  | false =>
      obtain ⟨form, text⟩ := piece
      cases form with
      | lexeme kind =>
          refine .cons ⟨rfl, rfl, ?_⟩ .nil
          change _ = if picked p = true then word else _
          rw [hp]
          rfl
      | _ => exact .nil

theorem tokensFrom_replaceAt (hword : IsIdentifier word) (h : PicksNames picked (place p ps)) :
    List.Forall₂ (Reworded picked word) (tokensFrom p ps)
      (tokensFrom p' (replaceAt picked word.toList p ps)) := by
  induction ps generalizing p p' with
  | nil => exact .nil
  | cons piece rest ih =>
      obtain ⟨hpiece, hrest⟩ := List.forall_mem_cons.mp h
      rw [replaceAt, tokensFrom_cons, tokensFrom_cons]
      exact List.rel_append (reworded_token? hword hpiece) (ih hrest)

end Piece

/-! ## The tokens of the other source -/

/-- Of different things, what each becomes is a function of it. -/
theorem exists_map_of_forall₂ {α : Type} {R : α → α → Prop} {l l' : List α}
    (h : List.Forall₂ R l l') (hl : l.Nodup) :
    ∃ f : α → α, l' = l.map f ∧ (∀ a ∈ l, R a (f a)) ∧ ∀ a, a ∉ l → f a = a := by
  classical
  induction h with
  | nil => exact ⟨id, rfl, fun _ ha => absurd ha List.not_mem_nil, fun _ _ => rfl⟩
  | @cons a a' l l' ha _ ih =>
      obtain ⟨hmem, hl⟩ := List.nodup_cons.mp hl
      obtain ⟨f, rfl, hf, hother⟩ := ih hl
      have hne : ∀ b ∈ l, b ≠ a := fun b hb heq => hmem (heq ▸ hb)
      refine ⟨Function.update f a a', ?_, List.forall_mem_cons.mpr ⟨?_, fun b hb => ?_⟩,
        fun b hb => ?_⟩
      · rw [List.map_cons, Function.update_self]
        exact congrArg _ (List.map_congr_left fun b hb =>
          (Function.update_of_ne (hne b hb) a' f).symm)
      · rw [Function.update_self]
        exact ha
      · rw [Function.update_of_ne (hne b hb)]
        exact hf b hb
      · rw [List.mem_cons, not_or] at hb
        rw [Function.update_of_ne hb.1]
        exact hother b hb.2

section

variable {source word : String} {ts : List Token}

/-- The tokens are names of the source. -/
def AreNames (source : String) (ts : List Token) : Prop :=
  ∀ t ∈ ts, t ∈ (scan source.toList).tokens ∧ t.kind = .identifier

theorem AreNames.picksNames (h : AreNames source ts) :
    PicksNames (beginsAt ts) (place {} (pieces source.toList)) := by
  rintro ⟨p, piece⟩ hmem hp
  obtain ⟨t, ht, heq⟩ := List.any_eq_true.mp hp
  obtain rfl : t.position = p := of_decide_eq_true heq
  obtain ⟨old, hold, _, hname, hplace⟩ := exists_word_of_mem_scan (h t ht).1 (h t ht).2
  have hdistinct : ((place {} (pieces source.toList)).map (·.1)).Nodup :=
    List.pairwise_map.mpr ((place_pairwise {} (pieces_text_ne_nil _)).imp fun h => h.ne)
  have hsame := List.inj_on_of_nodup_map hdistinct hmem hplace rfl
  exact ⟨old, hold, hname, congrArg (·.2) hsame⟩

/-- A token of the source is picked if it is one of those. -/
theorem AreNames.beginsAt_iff (h : AreNames source ts) {t : Token}
    (ht : t ∈ (scan source.toList).tokens) : beginsAt ts t.position = true ↔ t ∈ ts := by
  rw [beginsAt, List.any_eq_true]
  constructor
  · rintro ⟨u, hu, heq⟩
    have hposition : u.position = t.position := of_decide_eq_true heq
    have hsame := List.inj_on_of_nodup_map (scan_positions_nodup source.toList) (h u hu).1 ht
      hposition
    exact hsame ▸ hu
  · exact fun hmem => ⟨t, hmem, decide_eq_true rfl⟩

theorem Piece.fault?_replaces {ps ps' : List Piece} (h : List.Forall₂ Replaces ps ps')
    (hps : ∀ piece ∈ ps, piece.fault? = none) : ∀ piece ∈ ps', piece.fault? = none := by
  induction h with
  | nil => exact hps
  | cons hpiece _ ih =>
      rw [List.forall_mem_cons] at hps
      refine List.forall_mem_cons.mpr ⟨?_, ih hps.2⟩
      rcases hpiece with rfl | ⟨_, _, _, _, _, rfl⟩
      · exact hps.1
      · rfl

/-- The other source has the same tokens elsewhere, but for the word. -/
theorem scan_replaceTokens (hscanned : (scan source.toList).faults = [])
    (hword : IsIdentifier word) (hts : AreNames source ts) :
    (scan (replaceTokens ts word source).toList).faults = [] ∧
      List.Forall₂ (Reworded (beginsAt ts) word) (scan source.toList).tokens
        (scan (replaceTokens ts word source).toList).tokens := by
  obtain ⟨htiled, _⟩ := pieces_eq_iff.mp (rfl : pieces source.toList = _)
  have hpieces := scan_faults_eq_nil.mp hscanned
  have hreplaces := replaces_replaceAt hword hts.picksNames
  have htiled' : Tiled (replaceAt (beginsAt ts) word.toList {} (pieces source.toList) ++ []) :=
    tiled_replaces hreplaces htiled
      (fun piece hpiece => isOpen_of_fault? (hpieces piece hpiece)) .nil trivial
  rw [List.append_nil] at htiled'
  have hother := pieces_eq_iff.mpr ⟨htiled', rfl⟩
  rw [replaceTokens, String.toList_ofList]
  refine ⟨?_, ?_⟩
  · rw [scan_faults_eq_nil, hother]
    exact fault?_replaces hreplaces hpieces
  · rw [scan_tokens_eq, scan_tokens_eq, hother]
    refine List.rel_append (tokensFrom_replaceAt hword hts.picksNames)
      (.cons ⟨rfl, rfl, ?_⟩ .nil)
    -- The end of the input is no name.
    have hend := (scan_tokens_eq source.toList).symm ▸
      List.mem_append_right _ (List.mem_singleton_self _)
    rw [if_neg fun hp => nomatch (hts _ ((hts.beginsAt_iff hend).mp hp)).2]
    rfl

/-- So there is a function from the tokens of the source to those of the other one. -/
theorem exists_rewording (hscanned : (scan source.toList).faults = [])
    (hword : IsIdentifier word) (hts : AreNames source ts) :
    ∃ f, (scan (replaceTokens ts word source).toList).tokens =
        (scan source.toList).tokens.map f ∧
      KeepsKinds f ∧ (∀ t ∈ ts, (f t).lexeme = word) ∧ ∀ t, t ∉ ts → (f t).lexeme = t.lexeme := by
  obtain ⟨f, hmap, hf, hother⟩ := exists_map_of_forall₂
    (scan_replaceTokens hscanned hword hts).2 (scan_nodup source.toList)
  refine ⟨f, hmap, fun t => ?_, fun t ht => ?_, fun t ht => ?_⟩
  · by_cases hmem : t ∈ (scan source.toList).tokens
    · exact ⟨(hf t hmem).kind, (hf t hmem).literal⟩
    · rw [hother t hmem]
      exact ⟨rfl, rfl⟩
  · have hmem := (hts t ht).1
    rw [(hf t hmem).lexeme, if_pos ((hts.beginsAt_iff hmem).mpr ht)]
  · by_cases hmem : t ∈ (scan source.toList).tokens
    · rw [(hf t hmem).lexeme, if_neg fun hp => ht ((hts.beginsAt_iff hmem).mp hp)]
    · rw [hother t hmem]

end

end Lox
