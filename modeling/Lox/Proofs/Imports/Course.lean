import Mathlib.Logic.Relation
import Lox.Proofs.Imports.Outcomes

/-!
# The course of a parse along its tokens

The state of a parse keeps what was taken apart from what is ahead. Put together again they
are one list of tokens with the index of the next one, and there are only two things that
happen to it: the index moves past a token that does not end the input, or the tokens of a
file are put in at the index. So the index never goes back, and since the last token of the
list always ends the input, it never leaves the list.
-/

namespace Lox

/-- A list of tokens with the index of the next one. -/
structure Cursor where
  tokens : List Token
  index : Nat

namespace Cursor

variable {im : Importer} {c c' : Cursor}

/-- The index is one of the list, and the last token of the list ends the input. -/
structure Valid (c : Cursor) : Prop where
  index : c.index < c.tokens.length
  ends : ∃ eof, c.tokens.getLast? = some eof ∧ eof.kind = .eof

/-- What can happen to a cursor. -/
inductive Turn (im : Importer) : Cursor → Cursor → Prop
  | take {tokens : List Token} {i : Nat} {t : Token} :
      tokens[i]? = some t → t.kind ≠ .eof → Turn im ⟨tokens, i⟩ ⟨tokens, i + 1⟩
  | splice {tokens ts : List Token} {i : Nat} {path : AbsPath} :
      im.tokens? path = some ts →
      Turn im ⟨tokens, i⟩ ⟨tokens.take i ++ ts ++ tokens.drop i, i⟩

theorem Turn.index_le (h : Turn im c c') : c.index ≤ c'.index := by
  cases h with
  | take => exact Nat.le_succ _
  | splice => exact Nat.le_refl _

theorem Turn.valid (h : Turn im c c') (hc : c.Valid) : c'.Valid := by
  obtain ⟨hindex, eof, heof, hk⟩ := hc
  cases h with
  | @take tokens i t ht hne =>
      refine ⟨?_, eof, heof, hk⟩
      -- The token taken is not the last one, which ends the input.
      rcases Nat.lt_or_ge (i + 1) tokens.length with h | h
      · exact h
      · simp only at hindex heof
        have hlast : i = tokens.length - 1 := by omega
        rw [List.getLast?_eq_getElem?, ← hlast, ht] at heof
        cases heof
        exact absurd hk hne
  | @splice tokens ts i =>
      have hdrop : tokens.drop i ≠ [] := by
        simpa using hindex
      refine ⟨?_, eof, ?_, hk⟩
      · simp only [List.length_append, List.length_take, List.length_drop] at hindex ⊢
        omega
      · have hlast : ∀ front : List Token,
            (front ++ tokens.drop i).getLast? = (tokens.drop i).getLast? := fun front => by
          rw [List.getLast?_append, List.getLast?_eq_some_getLast hdrop]
          rfl
        have hall := hlast (tokens.take i)
        rw [List.take_append_drop] at hall
        rw [hlast, ← hall, heof]

/-- Any number of turns. -/
def Course (im : Importer) : Cursor → Cursor → Prop :=
  Relation.ReflTransGen (Turn im)

theorem Course.index_le (h : Course im c c') : c.index ≤ c'.index := by
  induction h with
  | refl => exact Nat.le_refl _
  | tail _ hturn ih => exact Nat.le_trans ih hturn.index_le

theorem Course.valid (h : Course im c c') (hc : c.Valid) : c'.Valid := by
  induction h with
  | refl => exact hc
  | tail _ hturn ih => exact hturn.valid ih

/-- Taking tokens one after the other, none of which ends the input. -/
theorem course_take (before : List Token) {ts after : List Token}
    (hts : ∀ t ∈ ts, t.kind ≠ .eof) :
    Course im ⟨before ++ ts ++ after, before.length⟩
      ⟨before ++ ts ++ after, before.length + ts.length⟩ := by
  induction ts generalizing before with
  | nil => exact .refl
  | cons t ts ih =>
      have htake : Turn im ⟨before ++ t :: ts ++ after, before.length⟩
          ⟨before ++ t :: ts ++ after, before.length + 1⟩ :=
        .take (by simp) (hts t List.mem_cons_self)
      have hrest := ih (before ++ [t]) fun u hu => hts u (List.mem_cons_of_mem t hu)
      rw [List.append_assoc before, List.singleton_append, List.length_append,
        List.length_singleton] at hrest
      rw [List.length_cons, Nat.add_comm ts.length, ← Nat.add_assoc]
      exact .head htake hrest

end Cursor

open Cursor

namespace ParseState

variable {im : Importer} {s s' : ParseState} {ts rest : List Token}

/-- A state as a list of tokens with an index, when `rest` follows the end of the input. -/
def cursor (s : ParseState) (rest : List Token) : Cursor where
  tokens := s.taken.reverse ++ s.ahead ++ s.finish :: rest
  index := s.position

/-- The input is at its end exactly where it seems to be. -/
structure Ended (s : ParseState) : Prop where
  ahead : ∀ t ∈ s.ahead, t.kind ≠ .eof
  finish : s.finish.kind = .eof

theorem Ended.moves (h : s.Ended) (hm : s.Moves ts s') : s'.Ended where
  ahead := fun t ht => h.ahead t (by rw [hm.ahead]; exact List.mem_append_right _ ht)
  finish := hm.finish ▸ h.finish

/-- The next token is the one at the index. -/
theorem cursor_current (s : ParseState) (rest : List Token) :
    (s.cursor rest).tokens[(s.cursor rest).index]? = some s.current := by
  rw [cursor, position, List.append_assoc, List.getElem?_append_right (by simp), current]
  cases s.ahead <;> simp

/-- Behind the first token, the one before the index can be looked back at. -/
theorem cursor_previous (h : 1 ≤ s.position) (rest : List Token) :
    ∃ t, Parse.previous s = .ok t s ∧
      (s.cursor rest).tokens[(s.cursor rest).index - 1]? = some t := by
  rw [position] at h
  cases htaken : s.taken with
  | nil => simp [htaken] at h
  | cons t earlier => exact ⟨t, by rw [Parse.previous, htaken], by simp [cursor, position, htaken]⟩

/-- Only at the end of the input is the next token one that ends it. -/
theorem Ended.current_kind (h : s.Ended) : s.current.kind = .eof ↔ s.ahead = [] := by
  rw [current]
  cases ha : s.ahead with
  | nil => simp [h.finish]
  | cons t rest => simpa using h.ahead t (ha ▸ List.mem_cons_self)

theorem Ended.course (h : s.Ended) (hm : s.Moves ts s') :
    Course im (s.cursor rest) (s'.cursor rest) := by
  have htokens : (s'.cursor rest).tokens =
      s.taken.reverse ++ ts ++ (s'.ahead ++ s.finish :: rest) := by
    simp only [cursor, hm.taken, hm.finish, List.reverse_append, List.reverse_reverse,
      List.append_assoc]
  have htokens' : (s.cursor rest).tokens =
      s.taken.reverse ++ ts ++ (s'.ahead ++ s.finish :: rest) := by
    simp only [cursor, hm.ahead, List.append_assoc]
  have hts : ∀ t ∈ ts, t.kind ≠ .eof := fun t ht =>
    h.ahead t (by rw [hm.ahead]; exact List.mem_append_left _ ht)
  have hstart : s.cursor rest = ⟨(s.cursor rest).tokens, s.taken.reverse.length⟩ := by
    rw [List.length_reverse]
    rfl
  have hend : s'.cursor rest =
      ⟨(s'.cursor rest).tokens, s.taken.reverse.length + ts.length⟩ := by
    rw [List.length_reverse]
    exact congrArg (Cursor.mk _) hm.position
  rw [hstart, hend, htokens, htokens']
  exact course_take _ hts

end ParseState

/-! ## Where a parse starts -/

open ParseState

/-- The tokens as they are before a parse: with the end of the input, if it is missing. -/
def withEnd (tokens : List Token) : List Token :=
  if tokens.getLast?.any (·.kind == .eof) then tokens
  else tokens ++ [Token.endOfInput ((tokens.getLast?.map (·.line)).getD 1) 0]

/-- What follows the first end of the input, which no parse gets to. -/
def afterEnd (tokens : List Token) : List Token :=
  ((withEnd tokens).dropWhile (·.kind != .eof)).tail

theorem ended_ofTokens (tokens : List Token) : (ofTokens tokens).Ended where
  ahead := fun t ht => by simpa using List.all_eq_true.mp List.all_takeWhile t ht
  finish := ofTokens_finish tokens

theorem cursor_ofTokens (tokens : List Token) :
    (ofTokens tokens).cursor (afterEnd tokens) = ⟨withEnd tokens, 0⟩ := by
  have hsplit : tokens.takeWhile (·.kind != .eof) ++ tokens.dropWhile (·.kind != .eof) = tokens :=
    List.takeWhile_append_dropWhile
  suffices htokens : tokens.takeWhile (·.kind != .eof) ++
      (ofTokens tokens).finish :: afterEnd tokens = withEnd tokens from
    congrArg (Cursor.mk · 0) htokens
  cases hdrop : tokens.dropWhile (·.kind != .eof) with
  | cons t rest =>
      have hfinish : (ofTokens tokens).finish = t := by rw [ofTokens, hdrop]
      rw [hdrop] at hsplit
      obtain ⟨us, hus⟩ : ∃ us, withEnd tokens = tokens ++ us := by
        rw [withEnd]
        split
        · exact ⟨[], (List.append_nil tokens).symm⟩
        · exact ⟨_, rfl⟩
      have hafter : afterEnd tokens = rest ++ us := by
        rw [afterEnd, hus, List.dropWhile_append, hdrop]
        rfl
      rw [hfinish, hafter, hus, ← List.cons_append, ← List.append_assoc, hsplit]
  | nil =>
      rw [hdrop, List.append_nil] at hsplit
      have hends : withEnd tokens =
          tokens ++ [Token.endOfInput ((tokens.getLast?.map (·.line)).getD 1) 0] := by
        refine if_neg fun h => ?_
        obtain ⟨t, ht, hk⟩ := (Option.any_eq_true _ _).mp h
        have hmem : t ∈ (ofTokens tokens).ahead := by
          rw [ofTokens, hsplit]
          exact List.mem_of_getLast? ht
        exact absurd (beq_iff_eq.mp hk) ((ended_ofTokens tokens).ahead t hmem)
      have hfinish : (ofTokens tokens).finish =
          Token.endOfInput ((tokens.getLast?.map (·.line)).getD 1) 0 := by rw [ofTokens, hdrop]
      have hafter : afterEnd tokens = [] := by
        rw [afterEnd, hends, List.dropWhile_append, hdrop]
        rfl
      rw [hfinish, hafter, hends, hsplit]

/-- A parse starts at a valid place. -/
theorem valid_withEnd (tokens : List Token) : (⟨withEnd tokens, 0⟩ : Cursor).Valid := by
  rw [withEnd]
  split
  · next h =>
      obtain ⟨eof, heof, hk⟩ := (Option.any_eq_true _ _).mp h
      have hne : tokens ≠ [] := List.ne_nil_of_mem (List.mem_of_getLast? heof)
      exact ⟨List.length_pos_iff.mpr hne, eof, heof, beq_iff_eq.mp hk⟩
  · exact ⟨by simp, _, List.getLast?_concat, rfl⟩

end Lox
