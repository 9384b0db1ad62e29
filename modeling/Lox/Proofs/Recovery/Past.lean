import Lox.Proofs.Imports.Progress

/-!
# What came before does not matter to a parse

A parse looks back only at tokens that it has taken itself, and it never looks at the
faults and notes it has made. So it goes on the same way whatever came before it, and adds
to that what it adds to nothing: `Composed.after` says so of a step, and `program_after` of
a whole program, as long as the limit of faults stays out of reach. With it goes that a
program which ends within a budget ends the same way within a greater one.
-/

namespace Lox

/-- What a parse has done up to some point. -/
structure Past where
  /-- The tokens that were taken, the last one first. -/
  taken : List Token
  faults : List SyntaxFault
  notes : List Note

/-- The state, when what it tells of came after the past. -/
def ParseState.after (past : Past) (s : ParseState) : ParseState :=
  { s with
    taken := s.taken ++ past.taken
    faults := past.faults ++ s.faults
    notes := past.notes ++ s.notes }

/-- The end of a step that began after the past. -/
def Step.after {α : Type} (past : Past) : Step α → Step α
  | .ok a s => .ok a (s.after past)
  | .failed s => .failed (s.after past)
  | .spent s => .spent (s.after past)

namespace ParseState

variable {past : Past}

theorem advance_after (s : ParseState) : (s.after past).advance = s.advance.after past := by
  simp only [advance, after, List.append_assoc]

theorem record_after (s : ParseState) (fault : SyntaxFault) :
    (s.after past).record fault = (s.record fault).after past := by
  simp only [record, after, List.append_assoc]

theorem note_after (s : ParseState) (n : Note) :
    (s.after past).note n = (s.note n).after past := by
  simp only [note, after, List.append_assoc]

end ParseState

/-- The end of a parse that began after the past. -/
def ParseResult.after (past : Past) (r : ParseResult) : ParseResult :=
  { r with state := r.state.after past }

/-- The limit is reached by no number of faults up to `n`. -/
def ErrorLimit.Above (limit : ErrorLimit) (n : Nat) : Prop :=
  ∀ k ≤ n, limit.reachedBy k = some false

namespace Parse

open ParseState

variable {α β : Type} {past : Past} {s : ParseState}

/-! ## Steps -/

/-- The step does the same after the past, unless it looks back further than to what it has
taken itself: there it is spent. -/
def IgnoresPast (past : Past) (p : Parse α) : Prop :=
  ∀ s, ¬ IsSpent p s → p (s.after past) = (p s).after past

theorem ignoresPast_previous : IgnoresPast past previous := by
  intro s hs
  cases ht : s.taken with
  | nil => exact absurd ⟨s, by rw [previous, ht]⟩ hs
  | cons t earlier =>
      have ht' : (s.after past).taken = t :: (earlier ++ past.taken) := by
        rw [ParseState.after, ht, List.cons_append]
      rw [previous, previous, ht, ht']
      rfl

theorem ignoresPast_acceptIf (wanted : TokenKind → Bool) :
    IgnoresPast past (acceptIf wanted) := by
  intro s _
  have hahead : (s.after past).ahead = s.ahead := rfl
  rw [acceptIf, acceptIf, hahead, advance_after]
  split
  · split <;> rfl
  · rfl

theorem ignoresPast_discard : IgnoresPast past discard :=
  fun s _ => congrArg (Step.ok ()) (advance_after s)

theorem IgnoresPast.bind {p : Parse α} {f : α → Parse β} (hp : IgnoresPast past p)
    (hf : ∀ a, IgnoresPast past (f a)) : IgnoresPast past (p >>= f) := by
  intro s hs
  have hfirst : ¬ IsSpent p s := fun ⟨s₁, h⟩ => hs ⟨s₁, by rw [bind_apply, h]⟩
  rw [bind_apply, bind_apply, hp s hfirst]
  cases hps : p s with
  | ok a s₁ => exact hf a s₁ fun ⟨s₂, h⟩ => hs ⟨s₂, by rw [bind_apply, hps, ← h]⟩
  | failed s₁ | spent s₁ => rfl

theorem IgnoresPast.ite {c : Prop} [Decidable c] {p q : Parse α} (hp : IgnoresPast past p)
    (hq : IgnoresPast past q) : IgnoresPast past (if c then p else q) := by
  split
  · exact hp
  · exact hq

theorem ignoresPast_skip (n : Nat) : IgnoresPast past (skip n) := by
  induction n with
  | zero => exact fun s hs => absurd ⟨s, rfl⟩ hs
  | succ n ih =>
      have hnext : ∀ last : Token, IgnoresPast past (current >>= fun next =>
          if last.kind = .semicolon ∨ next.kind.startsStatement then pure ()
          else discard >>= fun _ => skip n) :=
        fun last => .bind (fun _ _ => rfl) fun next =>
          .ite (fun _ _ => rfl) (ignoresPast_discard.bind fun _ => ih)
      exact .bind (p := atEnd) (fun _ _ => rfl) fun _ =>
        .ite (fun _ _ => rfl) (ignoresPast_previous.bind hnext)

theorem ignoresPast_synchronize : IgnoresPast past synchronize :=
  ignoresPast_discard.bind fun _ s hs => ignoresPast_skip _ s hs

theorem IgnoresPast.rescue {p : Parse α} (hp : IgnoresPast past p) :
    IgnoresPast past (rescue p) := by
  intro s hs
  have hinner : ¬ IsSpent p s := by
    rintro ⟨s₁, h⟩
    exact hs ⟨s₁, by rw [Parse.rescue, h]⟩
  rw [Parse.rescue, Parse.rescue, hp s hinner]
  cases hps : p s with
  | ok a s₁ | spent s₁ => rfl
  | failed s₁ =>
      have hskip : IgnoresPast past (synchronize >>= fun _ => (pure none : Parse (Option α))) :=
        ignoresPast_synchronize.bind fun _ _ _ => rfl
      refine hskip s₁ ?_
      rintro ⟨s₂, h⟩
      exact hs ⟨s₂, by rw [Parse.rescue, hps, ← h]⟩

theorem Composed.ignoresPast {p : Parse α} (h : Composed p) : IgnoresPast past p := by
  induction h with
  | pure | spent | current | atEnd | check => exact fun _ _ => rfl
  | previous => exact ignoresPast_previous
  | acceptIf wanted => exact ignoresPast_acceptIf wanted
  | discard => exact ignoresPast_discard
  | record fault => exact fun s _ => congrArg (Step.ok ()) (record_after s fault)
  | unexpected message => exact fun s _ => congrArg Step.failed (record_after s _)
  | note n => exact fun s _ => congrArg (Step.ok ()) (note_after s n)
  | bind _ _ ihp ihf => exact ihp.bind ihf
  | rescue _ ih => exact ih.rescue
  | budgeted factor _ ih => exact fun s hs => ih _ s hs

/-! ## Imports -/

theorem load_after (im : Importer) (t : Token) (path : AbsPath) (seen : List AbsPath)
    (s : ParseState) :
    im.load t path seen (s.after past) =
      (im.load t path seen s).map fun r => (r.1.after past, r.2) := by
  simp only [Importer.load]
  split
  · exact congrArg (fun s => Except.ok (s, seen)) (record_after s _)
  · exact congrArg (fun s => Except.ok (s, seen)) (record_after s _)
  · exact congrArg (fun s => Except.ok (s, seen)) (record_after s _)
  · split
    · rfl
    · split
      · simp only [ParseState.note, ParseState.after, List.append_assoc, Except.map]
      · rw [Importer.foldl_record, Importer.foldl_record]
        simp only [ParseState.note, ParseState.after, List.append_assoc, Except.map]

theorem run_after (im : Importer) (t : Token) (seen : List AbsPath) (s : ParseState) :
    im.run t seen (s.after past) = (im.run t seen s).map fun r => (r.1.after past, r.2) := by
  simp only [Importer.run]
  split
  · split
    · exact congrArg (fun s => Except.ok (s, seen)) (note_after s _)
    · exact load_after im t _ seen s
  · rfl

/-! ## Programs -/

variable {im : Importer} {limit : ErrorLimit} {seen : List AbsPath}

theorem skipSemicolons_after (s : ParseState) :
    skipSemicolons (s.after past) = (skipSemicolons s).after past := by
  simp only [skipSemicolons, ParseState.after, List.append_assoc]

/-- A parse that goes on after a past with the limit out of reach, goes on as it would have
begun. -/
theorem program_after (n : Nat) (hs : s.Ended)
    (hlimit : limit.Above (program im limit n seen (s.after past)).faults.length) :
    program im limit n seen (s.after past) = (program im limit n seen s).after past := by
  induction n generalizing seen s with
  | zero => rfl
  | succ n ih =>
      have hle : past.faults.length + s.faults.length ≤
          (program im limit (n + 1) seen (s.after past)).faults.length := by
        rw [← List.length_append]
        exact (program_faults im limit (n + 1) seen (s := s.after past) hs.finish).length_le
      have hwith : limit.reachedBy ((skipSemicolons s).after past).faults.length = some false := by
        refine hlimit _ (Nat.le_trans (Nat.le_of_eq ?_) hle)
        exact List.length_append
      have hwithout : limit.reachedBy (skipSemicolons s).faults.length = some false :=
        hlimit _ (Nat.le_trans (Nat.le_add_left _ _) hle)
      have hs₁ : (skipSemicolons s).Ended := hs.moves (moves_skipSemicolons s)
      have hahead : ((skipSemicolons s).after past).ahead = (skipSemicolons s).ahead := rfl
      simp only [program, skipSemicolons_after, hahead, hwith, hwithout] at hlimit ⊢
      generalize skipSemicolons s = s₁ at hlimit hs₁ ⊢
      cases ha : s₁.ahead with
      | nil => rfl
      | cons t rest =>
          simp only [ha] at hlimit ⊢
          by_cases hk : t.kind = .importWord
          · have hpath : rescue importPath (s₁.advance.after past) =
                (rescue importPath s₁.advance).after past :=
              composed_importPath.rescue.ignoresPast s₁.advance (not_isSpent_importPath _)
            simp only [if_pos hk, advance_after, hpath] at hlimit ⊢
            obtain ⟨ts, hm⟩ := composed_importPath.rescue.moves s₁.advance
            cases hp : rescue importPath s₁.advance with
            | failed s₂ => exact absurd hp (rescue_ne_failed _ _ _)
            | spent s₂ => exact absurd ⟨s₂, hp⟩ (not_isSpent_importPath _)
            | ok r s₂ =>
                rw [hp] at hlimit hm
                have hs₂ : s₂.Ended := (hs₁.moves (moves_advance ha)).moves hm
                cases r with
                | none => exact ih hs₂ hlimit
                | some path =>
                    simp only [Step.after, run_after] at hlimit ⊢
                    cases hrun : im.run path seen s₂ with
                    | error halt => rfl
                    | ok next =>
                        rw [hrun] at hlimit
                        exact ih (run_ended hs₂ hrun) hlimit
          · have hdecl : topDeclaration (s₁.after past) = (topDeclaration s₁).after past :=
              composed_topDeclaration.ignoresPast s₁ (not_isSpent_topDeclaration hs₁)
            simp only [if_neg hk, hdecl] at hlimit ⊢
            obtain ⟨ts, hm⟩ := composed_topDeclaration.moves s₁
            cases hd : topDeclaration s₁ with
            | failed s₂ => exact absurd hd (topDeclaration_ne_failed _ s₂)
            | spent s₂ => exact absurd ⟨s₂, hd⟩ (not_isSpent_topDeclaration hs₁)
            | ok stmt s₂ =>
                rw [hd] at hlimit hm
                have hrest : program im limit n seen (s₂.after past) =
                    (program im limit n seen s₂).after past := ih (hs₁.moves hm) hlimit
                simp only [Step.after, hrest, ParseResult.after]

/-- A parse that ends within a budget ends the same way within a greater one. -/
theorem program_more {n m : Nat} (hs : s.Ended) (hnm : n ≤ m)
    (hn : (program im limit n seen s).halt ≠ some .spent) :
    program im limit m seen s = program im limit n seen s := by
  induction n generalizing m seen s with
  | zero => exact absurd rfl hn
  | succ n ih =>
      obtain ⟨m, rfl⟩ : ∃ k, m = k + 1 := ⟨m - 1, by omega⟩
      obtain ⟨r, hround, hr⟩ := program_round im limit seen hs.finish
      rw [hr n] at hn
      rw [hr m, hr n]
      cases hround with
      | ends | stops | unordered | halts => rfl
      | imports _ _ hm _ hrun => exact ih (run_ended (hs.moves hm) hrun) (by omega) hn
      | broken _ _ hm => exact ih (hs.moves hm) (by omega) hn
      | @declares _ s₁ s₂ stmt _ hm _ _ hd =>
          obtain ⟨us, hm'⟩ := composed_topDeclaration.moves s₁
          rw [hd] at hm'
          have hrest : program im limit m seen s₂ = program im limit n seen s₂ :=
            ih ((hs.moves hm).moves hm') (by omega) hn
          exact congrArg (fun r => { r with program := stmt.toList ++ r.program }) hrest

/-- The budget that a program is given suffices. -/
theorem program_supply (limit : ErrorLimit) (tokens : List Token) {n : Nat}
    (hn : im.supply tokens + 1 ≤ n) :
    program im limit n [] (ofTokens tokens) =
      program im limit (im.supply tokens + 1) [] (ofTokens tokens) := by
  have hs := ended_ofTokens tokens
  have hends := (program_finishes limit _ hs (unreadAt_ofTokens_lt im tokens)).1
  refine program_more hs hn fun hspent => ?_
  cases hends with
  | garbled hh => rw [hspent] at hh; cases hh
  | stops h =>
      cases h with
      | atEnd hh | atLimit hh | unordered hh | pathNotText hh => rw [hspent] at hh; cases hh

end Parse
end Lox
