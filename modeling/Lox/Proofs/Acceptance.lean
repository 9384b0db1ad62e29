import Lox.Proofs.Imports.Rounds
import Lox.Proofs.WellFormed
import Lox.Session

/-!
# Accepted units

A unit that is read without a fault has a program whose trees are well-formed and
resolved without a fault. Imports make no difference: the tokens of an imported file
are those of a scan like any other, and what a file adds in front of the rest of the
unit is parsed like the rest.
-/

namespace Lox

/-- The program was resolved without a fault, from well-formed trees. -/
def Accepted (program : List (Stmt Slot)) : Prop :=
  ∃ parsed, Stmt.WellFormedAll parsed ∧ Stmt.scopeFaultsAll {} [] parsed = [] ∧
    program = Stmt.resolveAll .none [] parsed

theorem Token.IsLexeme.spelled {t : Token} (h : t.IsLexeme) : t.Spelled :=
  h.kind

namespace Parse

open ParseState

/-- A later state of a parse over spelled tokens. -/
structure Continues (s s' : ParseState) : Prop where
  spelled : (∀ t ∈ s.ahead, t.Spelled) → ∀ t ∈ s'.ahead, t.Spelled
  finish : s'.finish = s.finish

variable {s s' s'' : ParseState}

theorem Continues.trans (h : Continues s s') (h' : Continues s' s'') : Continues s s'' where
  spelled := fun hs => h'.spelled (h.spelled hs)
  finish := h'.finish.trans h.finish

theorem continues_of_moves {ts : List Token} (h : s.Moves ts s') : Continues s s' where
  spelled := fun hs t ht => hs t (by rw [h.ahead]; exact List.mem_append_right _ ht)
  finish := h.finish

/-! ## Imports -/

variable {im : Importer} {seen seen' : List AbsPath}

/-- The tokens of a scan but for the last are lexemes. -/
theorem spelled_scan (text : List Char) : ∀ t ∈ (scan text).tokens.dropLast, t.Spelled := by
  obtain ⟨ts, eof, htokens, _, hlex⟩ := scan_tokens text
  rw [htokens, List.dropLast_concat]
  exact fun t ht => (hlex t ht).spelled

theorem run_continues {t : Token} (h : im.run t seen s = .ok (s', seen')) : Continues s s' := by
  obtain ⟨name, _, houtcome⟩ := Importer.run_eq_ok h
  cases houtcome with
  | skipped _ hm _ | failed _ _ _ hm _ _ => exact continues_of_moves hm
  | @spliced _ ts _ htokens hm _ =>
      obtain ⟨_, text, _, _, _, rfl⟩ := Importer.tokens?_eq_some htokens
      have hspliced : Continues s
          { s with ahead := (scan (unifyNewlines text)).tokens.dropLast ++ s.ahead } :=
        ⟨fun hs => List.forall_mem_append.mpr ⟨spelled_scan _, hs⟩, rfl⟩
      exact hspliced.trans (continues_of_moves hm)

/-! ## Programs -/

/-- What a parse without a fault gives is well-formed. -/
theorem program_wellFormed (im : Importer) (limit : ErrorLimit) (n : Nat) (seen : List AbsPath)
    (hs : s.finish.kind = .eof) (hspelled : ∀ t ∈ s.ahead, t.Spelled)
    (hc : (program im limit n seen s).state.faults = []) :
    Stmt.WellFormedAll (program im limit n seen s).program := by
  induction n generalizing s seen with
  | zero => exact trivial
  | succ n ih =>
      obtain ⟨r, hround, hr⟩ := program_round im limit seen hs
      rw [hr n] at hc ⊢
      -- Going on from a later state is all that most rounds do.
      have hnext : ∀ {s₂ seen}, Continues s s₂ → (program im limit n seen s₂).state.faults = [] →
          Stmt.WellFormedAll (program im limit n seen s₂).program :=
        fun h hc => ih _ (h.finish ▸ hs) (h.spelled hspelled) hc
      cases hround with
      | ends | stops | unordered | halts => exact trivial
      | imports _ _ hm _ hrun => exact hnext ((continues_of_moves hm).trans (run_continues hrun)) hc
      | broken _ _ hm => exact hnext (continues_of_moves hm) hc
      | @declares _ s₁ s₂ _ _ hm _ hf hd =>
          have hs₁ : s₁.finish.kind = .eof := hm.finish ▸ hs
          obtain ⟨ts, hm₂, _, hderive⟩ := readsAt_ok hd (topDeclaration_reads s₁ hs₁)
          have hcontinues := (continues_of_moves hm).trans (continues_of_moves hm₂)
          have hc₂ : s₂.faults = [] :=
            List.prefix_nil.mp (hc ▸ program_faults im limit n seen (hcontinues.finish ▸ hs))
          obtain ⟨stmt, rfl, _, hstmt, _⟩ := hderive (hc₂.trans (hm₂.faults_nil hc₂).symm)
          have hspelled₁ := (continues_of_moves hm).spelled hspelled
          have hts : ∀ t ∈ ts, t.Spelled := fun t ht =>
            hspelled₁ t (by rw [hm₂.ahead]; exact List.mem_append_left _ ht)
          exact ⟨hstmt.wellFormed hts, hnext hcontinues hc⟩

/-! ## Units -/

/-- Tokens that are spelled, but for the end of the input. -/
theorem ofTokens_spelled {tokens : List Token}
    (h : ∀ t ∈ tokens, t.Spelled ∨ t.kind = .eof) : ∀ t ∈ (ofTokens tokens).ahead, t.Spelled := by
  intro t ht
  have hne : (t.kind != .eof) = true := List.all_eq_true.mp List.all_takeWhile t ht
  exact (h t ((List.takeWhile_sublist _).mem ht)).resolve_right (by simpa using hne)

theorem spelled_scan_or_eof (text : List Char) :
    ∀ t ∈ (scan text).tokens, t.Spelled ∨ t.kind = .eof := by
  obtain ⟨ts, eof, htokens, hk, hlex⟩ := scan_tokens text
  rw [htokens]
  intro t ht
  rcases List.mem_append.mp ht with ht | ht
  · exact .inl (hlex t ht).spelled
  · rw [List.mem_singleton.mp ht]
    exact .inr hk

/-- Closing a unit adds at most a semicolon. -/
theorem mem_closeUnit {tokens : List Token} {t : Token} (h : t ∈ closeUnit tokens) :
    t ∈ tokens ∨ ∃ line column, t = ⟨.semicolon, ";", .nil, line, column⟩ := by
  rw [closeUnit] at h
  split at h
  · next last finish _ hfinish =>
      split at h
      · exact .inl h
      · simp only [List.mem_append, List.mem_cons, List.not_mem_nil, or_false] at h
        rcases h with h | rfl | rfl
        · exact .inl (List.dropLast_subset _ h)
        · exact .inr ⟨_, _, rfl⟩
        · exact .inl (List.mem_of_getLast? hfinish)
  · exact .inl h

theorem spelled_closeUnit {tokens : List Token} (h : ∀ t ∈ tokens, t.Spelled ∨ t.kind = .eof) :
    ∀ t ∈ closeUnit tokens, t.Spelled ∨ t.kind = .eof := by
  intro t ht
  rcases mem_closeUnit ht with ht | ⟨line, column, rfl⟩
  · exact h t ht
  · exact .inl (.inl rfl)

theorem ofTokens_accepted {im : Importer} {limit : ErrorLimit} {name : Option String}
    {tokens : List Token} {found : List Diagnostic}
    (h : ∀ t ∈ tokens, t.Spelled ∨ t.kind = .eof)
    (hfaults : (UnitReading.ofTokens im limit name tokens found).faults = [])
    (hhalt : (UnitReading.ofTokens im limit name tokens found).halt = none) :
    Accepted (UnitReading.ofTokens im limit name tokens found).program := by
  generalize hr : program im limit (im.supply tokens + 1) [] (ofTokens tokens) = r
  have hwell := program_wellFormed im limit (im.supply tokens + 1) []
    (ofTokens_finish tokens) (ofTokens_spelled h)
  rw [hr] at hwell
  rw [UnitReading.ofTokens] at hfaults hhalt ⊢
  dsimp only at hfaults hhalt ⊢
  split at hfaults
  · next halt hh =>
      rw [hh] at hhalt
      cases hhalt
  · next hh =>
      have hnone : r.halt = none := by
        rw [parseProgram, hr] at hh
        cases hrh : r.halt with
        | none => rfl
        | some halt => simp [hrh] at hh
      obtain ⟨_, hprogram, hparsed, _⟩ := parseProgram_of_halt_none name hr hnone
      split at hfaults
      · next hempty =>
          rw [if_pos hempty]
          have hc : r.state.faults = [] := by
            have hdiagnostics := (List.append_eq_nil_iff.mp (List.isEmpty_iff.mp hempty)).2
            rw [ParseResult.diagnostics, hparsed] at hdiagnostics
            exact List.map_eq_nil_iff.mp hdiagnostics
          refine ⟨_, hprogram ▸ hwell hc, ?_, rfl⟩
          exact List.map_eq_nil_iff.mp hfaults
      · next hempty =>
          dsimp only at hfaults
          exact absurd (List.isEmpty_iff.mpr hfaults) hempty

end Parse

/-- A unit that is read without a fault has an accepted program. -/
theorem UnitReading.ofSource_accepted {im : Importer} {limit : ErrorLimit}
    {name : Option String} {typed : Bool} {source : String}
    (hfaults : (UnitReading.ofSource im limit name typed source).faults = [])
    (hhalt : (UnitReading.ofSource im limit name typed source).halt = none) :
    Accepted (UnitReading.ofSource im limit name typed source).program := by
  refine Parse.ofTokens_accepted ?_ hfaults hhalt
  split
  · exact Parse.spelled_closeUnit (Parse.spelled_scan_or_eof _)
  · exact Parse.spelled_scan_or_eof _

end Lox
