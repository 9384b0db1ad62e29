import Lox.Proofs.Grammar

/-!
# What a step of the parse does to its state

A judgment about a step, and a rule for every way to build a step.

`ReadsAt` says what a step may do at a state: it takes tokens from the front and
never puts any back, it only ever adds faults, it adds at least one when it fails,
and when it succeeds without adding any, what it took is related to what it gives.
The budget is part of the same judgment. A step that runs out of it did not have
enough, so that one walk over the parser shows both that it is right and that the
budgets it hands out suffice.
-/

namespace Lox

/-- The kind of the first of some tokens; after the last one the input is at its
end. -/
def headKind : List Token → TokenKind
  | [] => .eof
  | t :: _ => t.kind

namespace ParseState

/-- From `s` to `s'` the tokens `ts` were taken, and faults at most added. -/
structure Moves (s : ParseState) (ts : List Token) (s' : ParseState) : Prop where
  ahead : s.ahead = ts ++ s'.ahead
  finish : s'.finish = s.finish
  taken : s'.taken = ts.reverse ++ s.taken
  faults : s.faults <+: s'.faults

variable {s s' s'' : ParseState} {ts us : List Token}

theorem Moves.refl (s : ParseState) : s.Moves [] s :=
  ⟨rfl, rfl, rfl, List.prefix_rfl⟩

theorem Moves.trans (h : s.Moves ts s') (h' : s'.Moves us s'') : s.Moves (ts ++ us) s'' where
  ahead := by rw [h.ahead, h'.ahead, List.append_assoc]
  finish := h'.finish.trans h.finish
  taken := by rw [h'.taken, h.taken, List.reverse_append, List.append_assoc]
  faults := h.faults.trans h'.faults

theorem Moves.position (h : s.Moves ts s') : s'.position = s.position + ts.length := by
  rw [ParseState.position, ParseState.position, h.taken, List.length_append, List.length_reverse,
    Nat.add_comm]

theorem Moves.length (h : s.Moves ts s') : s.ahead.length = ts.length + s'.ahead.length := by
  rw [h.ahead, List.length_append]

theorem Moves.ahead_eq {rest : List Token} (h : s.Moves ts s') (ha : s.ahead = ts ++ rest) :
    s'.ahead = rest := by
  have := h.ahead
  rw [ha] at this
  exact (List.append_cancel_left this).symm

/-- No fault over both of two moves is no fault over either. -/
theorem Moves.clean (h : s.Moves ts s') (h' : s'.Moves us s'') (hc : s''.faults = s.faults) :
    s'.faults = s.faults ∧ s''.faults = s'.faults := by
  have hle := h.faults.length_le
  have hle' := h'.faults.length_le
  rw [hc] at hle'
  have hmid : s.faults = s'.faults := h.faults.eq_of_length (by omega)
  exact ⟨hmid.symm, hc.trans hmid⟩

theorem Moves.faults_nil (h : s.Moves ts s') (hc : s'.faults = []) : s.faults = [] :=
  List.prefix_nil.mp (hc ▸ h.faults)

theorem moves_advance {t : Token} {rest : List Token} (h : s.ahead = t :: rest) :
    s.Moves [t] s.advance :=
  ⟨by simp [advance, h], rfl, by simp [advance, h], List.prefix_rfl⟩

theorem ahead_advance {t : Token} {rest : List Token} (h : s.ahead = t :: rest) :
    s.advance.ahead = rest := by
  rw [advance, h]
  rfl

theorem taken_advance {t : Token} {rest : List Token} (h : s.ahead = t :: rest) :
    s.advance.taken = t :: s.taken := by
  rw [advance, h]
  rfl

/-- At the end of the input there is no token to take. -/
theorem advance_of_end (h : s.ahead = []) : s.advance = s := by
  cases s
  subst h
  rfl

theorem moves_record (s : ParseState) (f : SyntaxFault) : s.Moves [] (s.record f) :=
  ⟨rfl, rfl, rfl, List.prefix_append _ _⟩

theorem length_record (s : ParseState) (f : SyntaxFault) :
    (s.record f).faults.length = s.faults.length + 1 := by
  simp [record]

end ParseState

namespace Parse

open ParseState

variable {α β γ : Type}

theorem bind_apply (p : Parse α) (f : α → Parse β) (s : ParseState) :
    (p >>= f) s = match p s with
      | .ok a s' => f a s'
      | .failed s' => .failed s'
      | .spent s' => .spent s' := rfl

theorem bind_assoc (p : Parse α) (f : α → Parse β) (g : β → Parse γ) :
    p >>= f >>= g = p >>= fun a => f a >>= g := by
  funext s
  simp only [bind_apply]
  cases p s <;> rfl

theorem expect_eq (kind : TokenKind) (message : String) :
    expect kind message = accept kind >>= fun r =>
      match r with
      | some t => pure t
      | none => unexpected message := rfl

/-- What a step may do at a state. `k` is the least number of tokens it takes when
it succeeds, and `D` relates the tokens taken, those left, and the result. -/
def ReadsAt (enough : Prop) (k : Nat) (D : List Token → List Token → α → Prop)
    (s : ParseState) (p : Parse α) : Prop :=
  match p s with
  | .ok a s' => ∃ ts, s.Moves ts s' ∧ k ≤ ts.length ∧ (s'.faults = s.faults → D ts s'.ahead a)
  | .failed s' => (∃ ts, s.Moves ts s') ∧ s.faults.length < s'.faults.length
  | .spent _ => ¬ enough

variable {enough : Prop} {k : Nat} {D : List Token → List Token → α → Prop}
  {s : ParseState} {p : Parse α}

theorem readsAt_ok {a : α} {s' : ParseState} (hp : p s = .ok a s') (h : ReadsAt enough k D s p) :
    ∃ ts, s.Moves ts s' ∧ k ≤ ts.length ∧ (s'.faults = s.faults → D ts s'.ahead a) := by
  simpa only [ReadsAt, hp] using h

theorem readsAt_failed {s' : ParseState} (hp : p s = .failed s') (h : ReadsAt enough k D s p) :
    (∃ ts, s.Moves ts s') ∧ s.faults.length < s'.faults.length := by
  simpa only [ReadsAt, hp] using h

theorem readsAt_spent {s' : ParseState} (hp : p s = .spent s') (h : ReadsAt enough k D s p) :
    ¬ enough := by
  simpa only [ReadsAt, hp] using h

theorem ReadsAt.weaken {enough' : Prop} {k' : Nat} {D' : List Token → List Token → α → Prop}
    (h : ReadsAt enough k D s p) (he : enough' → enough) (hk : k' ≤ k)
    (hD : ∀ ts rest a, s.ahead = ts ++ rest → D ts rest a → D' ts rest a) :
    ReadsAt enough' k' D' s p := by
  unfold ReadsAt
  cases hp : p s with
  | ok a s' =>
      obtain ⟨ts, hm, hts, hd⟩ := readsAt_ok hp h
      exact ⟨ts, hm, Nat.le_trans hk hts, fun hc => hD _ _ _ hm.ahead (hd hc)⟩
  | failed s' => exact readsAt_failed hp h
  | spent s' => exact fun he' => readsAt_spent hp h (he he')

theorem readsAt_pure {a : α} (h : D [] s.ahead a) : ReadsAt enough 0 D s (pure a) :=
  ⟨[], Moves.refl s, Nat.le_refl _, fun _ => h⟩

theorem readsAt_unexpected {message : String} :
    ReadsAt enough k D s (unexpected message : Parse α) :=
  ⟨⟨[], moves_record _ _⟩, by rw [length_record]; omega⟩

theorem readsAt_of_not_enough (he : ¬ enough) : ReadsAt enough k D s (spent : Parse α) := he

/-- One step after another. What the first took stands in front of what the
second takes. -/
theorem ReadsAt.bind {enough' : Prop} {j : Nat} {E : List Token → List Token → β → Prop}
    {f : α → Parse β} (hp : ReadsAt enough' j D s p) (he : enough → enough')
    (hf : ∀ a s' ts, s.Moves ts s' → j ≤ ts.length →
      ReadsAt enough (k - j) (fun us rest b => D ts s'.ahead a → E (ts ++ us) rest b) s' (f a)) :
    ReadsAt enough k E s (p >>= f) := by
  unfold ReadsAt
  rw [bind_apply]
  cases h : p s with
  | failed s' => exact readsAt_failed h hp
  | spent s' => exact fun hE => readsAt_spent h hp (he hE)
  | ok a s' =>
      obtain ⟨ts, hm, hj, hd⟩ := readsAt_ok h hp
      have hfa := hf a s' ts hm hj
      simp only []
      cases h' : f a s' with
      | failed s'' =>
          obtain ⟨⟨us, hm'⟩, hlt⟩ := readsAt_failed h' hfa
          exact ⟨⟨ts ++ us, hm.trans hm'⟩, Nat.lt_of_le_of_lt hm.faults.length_le hlt⟩
      | spent s'' => exact readsAt_spent h' hfa
      | ok b s'' =>
          obtain ⟨us, hm', hk', he'⟩ := readsAt_ok h' hfa
          refine ⟨ts ++ us, hm.trans hm', ?_, fun hc => ?_⟩
          · rw [List.length_append]; omega
          · obtain ⟨hc₁, hc₂⟩ := hm.clean hm' hc
            exact he' hc₂ (hd hc₁)

/-- The tokens of a move, put in front of what a step takes after it. -/
theorem ReadsAt.after {s' : ParseState} {ts : List Token} (hm : s.Moves ts s')
    (hc : s'.faults = s.faults)
    (h : ReadsAt enough (k - ts.length) (fun us rest a => D (ts ++ us) rest a) s' p) :
    match p s' with
    | .ok a s'' => ∃ us, s.Moves us s'' ∧ k ≤ us.length ∧ (s''.faults = s.faults → D us s''.ahead a)
    | .failed s'' => (∃ us, s.Moves us s'') ∧ s.faults.length < s''.faults.length
    | .spent _ => ¬ enough := by
  cases hp : p s' with
  | ok a s'' =>
      obtain ⟨us, hm', hk, hd⟩ := readsAt_ok hp h
      refine ⟨ts ++ us, hm.trans hm', ?_, fun h' => hd (h'.trans hc.symm)⟩
      rw [List.length_append]; omega
  | failed s'' =>
      obtain ⟨⟨us, hm'⟩, hlt⟩ := readsAt_failed hp h
      exact ⟨⟨ts ++ us, hm.trans hm'⟩, by rwa [hc] at hlt⟩
  | spent s'' => exact readsAt_spent hp h

theorem readsAt_acceptIf_bind {wanted : TokenKind → Bool} {f : Option Token → Parse α}
    (hsome : ∀ t rest, s.ahead = t :: rest → wanted t.kind = true →
      ReadsAt enough (k - 1) (fun us rest a => D (t :: us) rest a) s.advance (f (some t)))
    (hnone : (∀ t rest, s.ahead = t :: rest → wanted t.kind = false) →
      ReadsAt enough k D s (f none)) :
    ReadsAt enough k D s (acceptIf wanted >>= f) := by
  unfold ReadsAt
  rw [bind_apply]
  cases ha : s.ahead with
  | nil =>
      simp only [acceptIf, ha]
      exact hnone (by simp [ha])
  | cons t rest =>
      by_cases hw : wanted t.kind = true
      · simp only [acceptIf, ha, hw, if_true]
        exact ReadsAt.after (moves_advance ha) rfl (hsome t rest ha hw)
      · simp only [acceptIf, ha, hw]
        refine hnone fun t' rest' ht => ?_
        rw [ha] at ht
        simp only [List.cons.injEq] at ht
        obtain ⟨rfl, -⟩ := ht
        simpa using hw

theorem readsAt_accept_bind {kind : TokenKind} {f : Option Token → Parse α}
    (hsome : ∀ t rest, s.ahead = t :: rest → t.kind = kind →
      ReadsAt enough (k - 1) (fun us rest a => D (t :: us) rest a) s.advance (f (some t)))
    (hnone : (kind ≠ .eof → headKind s.ahead ≠ kind) → ReadsAt enough k D s (f none)) :
    ReadsAt enough k D s (accept kind >>= f) := by
  refine readsAt_acceptIf_bind (fun t rest ht hk => hsome t rest ht (by simpa using hk))
    (fun h => hnone fun hne => ?_)
  cases ha : s.ahead with
  | nil => exact hne.symm
  | cons t rest => simpa [headKind] using h t rest ha

theorem readsAt_expect_bind {kind : TokenKind} {message : String} {f : Token → Parse α}
    (h : ∀ t rest, s.ahead = t :: rest → t.kind = kind →
      ReadsAt enough (k - 1) (fun us rest a => D (t :: us) rest a) s.advance (f t)) :
    ReadsAt enough k D s (expect kind message >>= f) := by
  rw [expect_eq, bind_assoc]
  exact readsAt_accept_bind (fun t rest ht hk => h t rest ht hk) fun _ => readsAt_unexpected

/-- A step that looks at the next token before it decides. Past the last token it
sees the end of the input. -/
theorem readsAt_current_bind {f : Token → Parse α}
    (hend : s.ahead = [] → ReadsAt enough k D s (f s.finish))
    (h : ∀ t rest, s.ahead = t :: rest → ReadsAt enough k D s (f t)) :
    ReadsAt enough k D s (current >>= f) := by
  have hcur : (current >>= f) s = f s.current s := rfl
  unfold ReadsAt
  rw [hcur]
  cases ha : s.ahead with
  | nil =>
      have hc : s.current = s.finish := by simp [ParseState.current, ha]
      rw [hc]
      exact hend ha
  | cons t rest =>
      have hc : s.current = t := by simp [ParseState.current, ha]
      rw [hc]
      exact h t rest ha

/-- Taking a token whose kind is known already. -/
theorem readsAt_accept_of_head {kind : TokenKind} {f : Option Token → Parse α} {t : Token}
    {rest : List Token} (ha : s.ahead = t :: rest) (hk : t.kind = kind)
    (h : ReadsAt enough (k - 1) (fun us rest a => D (t :: us) rest a) s.advance (f (some t))) :
    ReadsAt enough k D s (accept kind >>= f) := by
  refine readsAt_acceptIf_bind (fun t' rest' ht _ => ?_) (fun hno => ?_)
  · rw [ha] at ht
    simp only [List.cons.injEq] at ht
    obtain ⟨rfl, -⟩ := ht
    exact h
  · have := hno t rest ha
    simp [hk] at this

/-- Looking back at a token that was taken. -/
theorem readsAt_previous_bind {f : Token → Parse α} {t : Token} {earlier : List Token}
    (ht : s.taken = t :: earlier) (h : ReadsAt enough k D s (f t)) :
    ReadsAt enough k D s (previous >>= f) := by
  have hprev : (previous >>= f) s = f t s := by
    rw [bind_apply, previous, ht]
  unfold ReadsAt
  rw [hprev]
  exact h

/-- After a fault is noted, nothing is claimed about the result any more. -/
theorem readsAt_record_bind {fault : SyntaxFault} {f : Unit → Parse α}
    (h : ReadsAt enough k (fun _ _ _ => True) (s.record fault) (f ())) :
    ReadsAt enough k D s (record fault >>= f) := by
  have hrec : (record fault >>= f) s = f () (s.record fault) := rfl
  have hlen := length_record s fault
  unfold ReadsAt
  rw [hrec]
  cases hp : f () (s.record fault) with
  | ok a s' =>
      obtain ⟨ts, hm, hk, -⟩ := readsAt_ok hp h
      refine ⟨ts, (moves_record s fault).trans hm, hk, fun hc => ?_⟩
      have hle := hm.faults.length_le
      rw [hc] at hle
      omega
  | failed s' =>
      obtain ⟨⟨ts, hm⟩, hlt⟩ := readsAt_failed hp h
      exact ⟨⟨ts, (moves_record s fault).trans hm⟩, by omega⟩
  | spent s' => exact readsAt_spent hp h

/-- Looking ahead changes nothing. -/
theorem readsAt_check_bind {kind : TokenKind} {f : Bool → Parse α}
    (h : ReadsAt enough k D s (f (s.ahead.head?.any (·.kind == kind)))) :
    ReadsAt enough k D s (check kind >>= f) := h

theorem readsAt_atEnd_bind {f : Bool → Parse α} (h : ReadsAt enough k D s (f s.ahead.isEmpty)) :
    ReadsAt enough k D s (atEnd >>= f) := h

theorem readsAt_note_bind {note : Note} {f : Unit → Parse α}
    (h : ReadsAt enough k D (s.note note) (f ())) :
    ReadsAt enough k D s (Parse.note note >>= f) := by
  have hm : s.Moves [] (s.note note) := ⟨rfl, rfl, rfl, List.prefix_rfl⟩
  have hrest := ReadsAt.after (D := D) (k := k) hm rfl (by simpa using h)
  exact hrest

theorem readsAt_budgeted {factor : Nat} {f : Nat → Parse α}
    (h : ReadsAt enough k D s (f (factor * (s.ahead.length + 1)))) :
    ReadsAt enough k D s (budgeted factor f) := h

/-- Skipping finds the next statement. It looks back at a token, but not before it has
taken one. -/
theorem skip_eq_ok (n : Nat) (s : ParseState) (hn : s.ahead.length < n)
    (ht : s.ahead = [] ∨ s.taken ≠ []) :
    ∃ ts s', skip n s = .ok () s' ∧ s.Moves ts s' ∧ s'.faults = s.faults := by
  induction n generalizing s with
  | zero => omega
  | succ n ih =>
      rw [skip, bind_apply, atEnd]
      cases ha : s.ahead with
      | nil => exact ⟨[], s, by simp only [List.isEmpty_nil, if_true]; rfl, Moves.refl s, rfl⟩
      | cons t rest =>
          have htaken := ht.resolve_left (ha ▸ List.cons_ne_nil t rest)
          obtain ⟨last, earlier, hlast⟩ := List.exists_cons_of_ne_nil htaken
          simp only [List.isEmpty_cons, Bool.false_eq_true, if_false]
          rw [bind_apply, previous, hlast]
          simp only []
          rw [bind_apply, current]
          simp only []
          split
          · exact ⟨[], s, rfl, Moves.refl s, rfl⟩
          · have hlen : s.advance.ahead.length < n := by
              rw [ahead_advance ha]
              rw [ha, List.length_cons] at hn
              omega
            obtain ⟨ts, s', hskip, hm, hf⟩ := ih s.advance hlen
              (.inr (by rw [taken_advance ha]; exact List.cons_ne_nil _ _))
            exact ⟨t :: ts, s', hskip, (moves_advance ha).trans hm, hf⟩

/-- Skipping to the next statement takes a token if there is one. -/
theorem synchronize_eq_ok (s : ParseState) :
    ∃ ts s', synchronize s = .ok () s' ∧ s.Moves ts s' ∧ s'.faults = s.faults ∧
      (s.ahead = [] ∨ ts ≠ []) := by
  have hn : s.advance.ahead.length < 1 * (s.advance.ahead.length + 1) := by omega
  cases ha : s.ahead with
  | nil =>
      have hadvance : s.advance = s := advance_of_end ha
      obtain ⟨ts, s', hskip, hm, hf⟩ := skip_eq_ok _ s.advance hn (.inl (by rw [hadvance, ha]))
      rw [hadvance] at hm hf
      exact ⟨ts, s', hskip, hm, hf, .inl rfl⟩
  | cons t rest =>
      obtain ⟨ts, s', hskip, hm, hf⟩ := skip_eq_ok _ s.advance hn
        (.inr (by rw [taken_advance ha]; exact List.cons_ne_nil _ _))
      exact ⟨t :: ts, s', hskip, (moves_advance ha).trans hm, hf, .inr (List.cons_ne_nil _ _)⟩

/-- After a failure the next statement is found. -/
theorem rescue_of_failed {s₁ : ParseState} (hp : p s = .failed s₁) :
    ∃ ts s', rescue p s = .ok none s' ∧ s₁.Moves ts s' ∧ s'.faults = s₁.faults ∧
      (s₁.ahead = [] ∨ ts ≠ []) := by
  obtain ⟨ts, s', hskip, hm⟩ := synchronize_eq_ok s₁
  refine ⟨ts, s', ?_, hm⟩
  rw [rescue, hp]
  simp only [bind_apply, hskip]
  rfl

/-- What fails is skipped, so a rescued step does not fail. -/
theorem rescue_ne_failed (p : Parse α) (s s' : ParseState) : rescue p s ≠ .failed s' := by
  intro h
  cases hp : p s with
  | ok a s₁ | spent s₁ => simp only [rescue, hp, reduceCtorEq] at h
  | failed s₁ =>
      obtain ⟨_, s₂, heq, _⟩ := rescue_of_failed hp
      rw [heq] at h
      cases h

/-- A declaration that fails is skipped, and the step succeeds without a result. -/
theorem readsAt_rescue (h : ReadsAt enough 1 D s p) :
    ReadsAt enough (min 1 s.ahead.length)
      (fun ts rest r => ∃ a, r = some a ∧ D ts rest a) s (rescue p) := by
  unfold ReadsAt
  cases hp : p s with
  | ok a s' =>
      obtain ⟨ts, hm, hk, hd⟩ := readsAt_ok hp h
      rw [rescue, hp]
      exact ⟨ts, hm, by omega, fun hc => ⟨a, rfl, hd hc⟩⟩
  | failed s₁ =>
      obtain ⟨⟨ts, hm⟩, hlt⟩ := readsAt_failed hp h
      obtain ⟨us, s', heq, hm', hf, hne⟩ := rescue_of_failed hp
      rw [heq]
      refine ⟨ts ++ us, hm.trans hm', ?_, fun hc => ?_⟩
      · have hlen := hm.length
        rw [List.length_append]
        rcases hne with hnil | hne
        · rw [hnil] at hlen
          simp only [List.length_nil] at hlen
          omega
        · have := List.length_pos_iff.mpr hne
          omega
      · rw [← hf, hc] at hlt
        omega
  | spent s' =>
      rw [rescue, hp]
      exact readsAt_spent hp h

theorem length_advance {t : Token} {rest : List Token} (ha : s.ahead = t :: rest) :
    s.ahead.length = s.advance.ahead.length + 1 := by
  simp [advance, ha]

end Parse
end Lox
