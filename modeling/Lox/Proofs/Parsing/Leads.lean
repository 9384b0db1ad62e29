import Lox.Proofs.Parsing.Steps

/-!
# Where a step of the parse leads

The converse of the contracts. From a state a step leads over some tokens to
another step if it takes exactly those tokens, finds no fault, and then does what
the other step would do from there. Where the other step is a plain result, the
first has given it. The budget is left out: a step may always run out of it, and
that it does not is known from the contracts.

What a loop has read so far is an argument of the loop, so a phrase that is built
to the left leads from the beginning of the loop to a later round of it.
-/

namespace Lox
namespace Parse

open ParseState

variable {α β : Type}

/-- From `s` the step takes `ts` without a fault and goes on as `q`. -/
def LeadsTo (s : ParseState) (p : Parse α) (ts : List Token) (q : Parse α) : Prop :=
  (∃ s', s.Moves ts s' ∧ s'.faults = s.faults ∧ p s = q s') ∨ ∃ s', p s = .spent s'

variable {s : ParseState} {p q r : Parse α} {ts us : List Token}

theorem leadsTo_refl : LeadsTo s p [] p :=
  .inl ⟨s, Moves.refl s, rfl, rfl⟩

theorem leadsTo_spent : LeadsTo s (spent : Parse α) ts q :=
  .inr ⟨s, rfl⟩

theorem LeadsTo.trans (h : LeadsTo s p ts q)
    (h' : ∀ s', s.Moves ts s' → LeadsTo s' q us r) : LeadsTo s p (ts ++ us) r := by
  rcases h with ⟨s', hm, hc, hp⟩ | hp
  · rcases h' s' hm with ⟨s'', hm', hc', hq⟩ | ⟨s'', hq⟩
    · exact .inl ⟨s'', hm.trans hm', hc'.trans hc, hp.trans hq⟩
    · exact .inr ⟨s'', hp.trans hq⟩
  · exact .inr hp

/-- A step that does from here what another does from there. -/
theorem leadsTo_step {s' : ParseState} (hm : s.Moves ts s') (hc : s'.faults = s.faults)
    (hp : p s = q s') (h : LeadsTo s' q us r) : LeadsTo s p (ts ++ us) r := by
  rcases h with ⟨s'', hm', hc', hq⟩ | ⟨s'', hq⟩
  · exact .inl ⟨s'', hm.trans hm', hc'.trans hc, hp.trans hq⟩
  · exact .inr ⟨s'', hp.trans hq⟩

/-- A step that begins by another goes on with what that one gave. -/
theorem LeadsTo.bind {p : Parse β} {b : β} {f : β → Parse α} (h : LeadsTo s p ts (pure b))
    (h' : ∀ s', s.Moves ts s' → LeadsTo s' (f b) us r) :
    LeadsTo s (p >>= f) (ts ++ us) r := by
  refine LeadsTo.trans (q := f b) ?_ h'
  rcases h with ⟨s', hm, hc, hp⟩ | ⟨s', hp⟩
  · refine .inl ⟨s', hm, hc, ?_⟩
    rw [bind_apply, hp]
    rfl
  · refine .inr ⟨s', ?_⟩
    rw [bind_apply, hp]

theorem leadsTo_acceptIf_bind {wanted : TokenKind → Bool} {f : Option Token → Parse α} {t : Token}
    {rest : List Token} (ha : s.ahead = t :: rest) (hw : wanted t.kind = true)
    (h : LeadsTo s.advance (f (some t)) ts r) :
    LeadsTo s (acceptIf wanted >>= f) (t :: ts) r := by
  refine leadsTo_step (moves_advance ha) rfl ?_ h
  rw [bind_apply]
  simp only [acceptIf, ha, hw, if_true, advance, List.tail_cons]

theorem leadsTo_acceptIf_none {wanted : TokenKind → Bool} {f : Option Token → Parse α}
    (hw : wanted (headKind s.ahead) = false) (h : LeadsTo s (f none) ts r) :
    LeadsTo s (acceptIf wanted >>= f) ts r := by
  refine leadsTo_step (Moves.refl s) rfl ?_ h
  rw [bind_apply]
  cases ha : s.ahead with
  | nil => simp only [acceptIf, ha]
  | cons t rest =>
      rw [ha, headKind] at hw
      simp only [acceptIf, ha, hw]
      rfl

theorem leadsTo_accept_bind {kind : TokenKind} {f : Option Token → Parse α} {t : Token}
    {rest : List Token} (ha : s.ahead = t :: rest) (hk : t.kind = kind)
    (h : LeadsTo s.advance (f (some t)) ts r) :
    LeadsTo s (accept kind >>= f) (t :: ts) r :=
  leadsTo_acceptIf_bind ha (by simpa using hk) h

theorem leadsTo_accept_none {kind : TokenKind} {f : Option Token → Parse α}
    (hk : headKind s.ahead ≠ kind) (h : LeadsTo s (f none) ts r) :
    LeadsTo s (accept kind >>= f) ts r :=
  leadsTo_acceptIf_none (by simpa using hk) h

theorem leadsTo_expect_bind {kind : TokenKind} {message : String} {f : Token → Parse α} {t : Token}
    {rest : List Token} (ha : s.ahead = t :: rest) (hk : t.kind = kind)
    (h : LeadsTo s.advance (f t) ts r) :
    LeadsTo s (expect kind message >>= f) (t :: ts) r := by
  rw [expect_eq, bind_assoc]
  exact leadsTo_accept_bind ha hk h

theorem leadsTo_current_bind {f : Token → Parse α} {t : Token} {rest : List Token}
    (ha : s.ahead = t :: rest) (h : LeadsTo s (f t) ts r) :
    LeadsTo s (current >>= f) ts r := by
  refine leadsTo_step (Moves.refl s) rfl ?_ h
  have hc : s.current = t := by simp [ParseState.current, ha]
  rw [bind_apply, current, hc]

theorem leadsTo_previous_bind {f : Token → Parse α} {t : Token} {earlier : List Token}
    (ht : s.taken = t :: earlier) (h : LeadsTo s (f t) ts r) :
    LeadsTo s (previous >>= f) ts r := by
  refine leadsTo_step (Moves.refl s) rfl ?_ h
  rw [bind_apply, previous, ht]

theorem leadsTo_check_bind {kind : TokenKind} {f : Bool → Parse α}
    (h : LeadsTo s (f (s.ahead.head?.any (·.kind == kind))) ts r) :
    LeadsTo s (check kind >>= f) ts r := h

theorem leadsTo_atEnd_bind {f : Bool → Parse α} (h : LeadsTo s (f s.ahead.isEmpty) ts r) :
    LeadsTo s (atEnd >>= f) ts r := h

theorem leadsTo_budgeted {factor : Nat} {f : Nat → Parse α}
    (h : LeadsTo s (f (factor * (s.ahead.length + 1))) ts r) :
    LeadsTo s (budgeted factor f) ts r := h

theorem leadsTo_note_bind {note : Note} {f : Unit → Parse α}
    (h : LeadsTo (s.note note) (f ()) ts r) : LeadsTo s (Parse.note note >>= f) ts r := by
  have hm : s.Moves [] (s.note note) := ⟨rfl, rfl, rfl, List.prefix_rfl⟩
  exact leadsTo_step hm rfl rfl h

end Parse
end Lox
