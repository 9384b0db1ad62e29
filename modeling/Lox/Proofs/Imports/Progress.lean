import Lox.Proofs.Imports.Course
import Lox.Proofs.Imports.Rounds
import Lox.Proofs.Parsing.Parts

/-!
# A parse ends, and on its way it never leaves its tokens

The parse of a program ends at the end of the input or at the limit of faults, whatever the
tokens are and whatever the files import. Every step on the way lies on one course of the
index along the tokens, from the first of them to where the parse ends: the index never goes
back and never leaves the list, and nothing looks back from the first token.

Tokens that no source gives have two more ways to end a parse, and a file that is not text
has one. They are named in `ParseResult.Ends`.
-/

namespace Lox

open ParseState Cursor

/-- How the parse of a program is over: at the end of the input, at the limit of faults, or
over tokens and limits that no caller has a use for. -/
inductive ParseResult.Stops (limit : ErrorLimit) (r : ParseResult) : Prop
  | atEnd : r.halt = none → r.state.current.kind = .eof → Stops limit r
  | atLimit : r.halt = none → limit.reachedBy r.faults.length = some true → Stops limit r
  /-- The limit is nothing that a number of faults could reach. -/
  | unordered : r.halt = some .unorderedLimit → limit = .unordered → Stops limit r
  /-- A token was made to look like a string without being one. -/
  | pathNotText {t : Token} :
      r.halt = some .pathNotText → t ∈ r.state.taken → t.kind = .string →
      (∀ name, t.literal ≠ .text name) → Stops limit r

/-- How a parse is over when its files may be anything. -/
inductive ParseResult.Ends (im : Importer) (limit : ErrorLimit) (r : ParseResult) : Prop
  | stops : r.Stops limit → Ends im limit r
  | garbled {path : AbsPath} {e : EncodingError} :
      r.halt = some (.undecodable e) → im.Garbled path e → Ends im limit r

/-- What a parse has read changes nothing about how it is over. -/
theorem ParseResult.Ends.of_state {im : Importer} {limit : ErrorLimit} {r r' : ParseResult}
    (h : r.Ends im limit) (hhalt : r'.halt = r.halt) (hcurrent : r'.state.current = r.state.current)
    (hfaults : r'.faults = r.faults) (htaken : r'.state.taken = r.state.taken) :
    r'.Ends im limit := by
  cases h with
  | garbled hh hg => exact .garbled (hhalt.trans hh) hg
  | stops h =>
      refine .stops ?_
      cases h with
      | atEnd hh hk => exact .atEnd (hhalt.trans hh) (hcurrent ▸ hk)
      | atLimit hh hl => exact .atLimit (hhalt.trans hh) (hfaults ▸ hl)
      | unordered hh hl => exact .unordered (hhalt.trans hh) hl
      | pathNotText hh ht hk hl => exact .pathNotText (hhalt.trans hh) (htaken ▸ ht) hk hl

namespace Importer

variable {im : Importer} {path : AbsPath} {ts : List Token}

/-- No token of a file ends the input. -/
theorem tokens?_ne_eof (h : im.tokens? path = some ts) : ∀ t ∈ ts, t.kind ≠ .eof := by
  obtain ⟨_, text, _, _, _, rfl⟩ := tokens?_eq_some h
  obtain ⟨us, eof, htokens, _, hlex⟩ := scan_tokens (unifyNewlines text)
  rw [htokens, List.dropLast_concat]
  exact fun t ht => (hlex t ht).ne_eof

end Importer

namespace Parse

variable {im : Importer} {limit : ErrorLimit} {seen seen' : List AbsPath} {s s' : ParseState}
  {rest : List Token}

/-! ## Imports -/

theorem run_ended {t : Token} (hs : s.Ended) (h : im.run t seen s = .ok (s', seen')) :
    s'.Ended := by
  obtain ⟨name, _, houtcome⟩ := Importer.run_eq_ok h
  cases houtcome with
  | skipped _ hm _ | failed _ _ _ hm _ _ => exact hs.moves hm
  | @spliced _ ts _ htokens hm _ =>
      have hspliced : ({ s with ahead := ts ++ s.ahead } : ParseState).Ended :=
        ⟨List.forall_mem_append.mpr ⟨Importer.tokens?_ne_eof htokens, hs.ahead⟩, hs.finish⟩
      exact hspliced.moves hm

/-- The tokens of a file are put in at the index. -/
theorem turn_splice {path : AbsPath} {ts : List Token} (h : im.tokens? path = some ts)
    (s : ParseState) (rest : List Token) :
    Turn im (s.cursor rest) (({ s with ahead := ts ++ s.ahead } : ParseState).cursor rest) := by
  have htake : (s.cursor rest).tokens.take s.position = s.taken.reverse := by
    rw [cursor, List.append_assoc]
    exact List.take_left' List.length_reverse
  have hdrop : (s.cursor rest).tokens.drop s.position = s.ahead ++ s.finish :: rest := by
    rw [cursor, List.append_assoc]
    exact List.drop_left' List.length_reverse
  have hturn := @Turn.splice im (s.cursor rest).tokens ts s.position path h
  rw [htake, hdrop] at hturn
  have hend : ({ s with ahead := ts ++ s.ahead } : ParseState).cursor rest =
      ⟨s.taken.reverse ++ ts ++ (s.ahead ++ s.finish :: rest), s.position⟩ := by
    simp only [cursor, List.append_assoc]
    rfl
  rw [hend]
  exact hturn

theorem run_course {t : Token} (hs : s.Ended) (h : im.run t seen s = .ok (s', seen')) :
    Course im (s.cursor rest) (s'.cursor rest) := by
  obtain ⟨name, _, houtcome⟩ := Importer.run_eq_ok h
  cases houtcome with
  | skipped _ hm _ | failed _ _ _ hm _ _ => exact hs.course hm
  | @spliced _ ts _ htokens hm _ =>
      have hspliced : ({ s with ahead := ts ++ s.ahead } : ParseState).Ended :=
        ⟨List.forall_mem_append.mpr ⟨Importer.tokens?_ne_eof htokens, hs.ahead⟩, hs.finish⟩
      exact .head (turn_splice htokens s rest) (hspliced.course hm)

/-! ## From one round to the next -/

/-- There is something to read in a round that begins at `s`, and `t` is the first token of
it. -/
structure Active (limit : ErrorLimit) (s : ParseState) (t : Token) : Prop where
  ahead : ∃ rest, (skipSemicolons s).ahead = t :: rest
  unreached : limit.reachedBy (skipSemicolons s).faults.length = some false

/-- From the files imported and the state where a round begins to those of the next. -/
inductive Next (im : Importer) (limit : ErrorLimit) :
    List AbsPath × ParseState → List AbsPath × ParseState → Prop
  | declaration {seen : List AbsPath} {s s' : ParseState} {t : Token}
      {stmt : Option (Stmt Unit)} :
      Active limit s t → t.kind ≠ .importWord → topDeclaration (skipSemicolons s) = .ok stmt s' →
      Next im limit (seen, s) (seen, s')
  | broken {seen : List AbsPath} {s s' : ParseState} {t : Token} :
      Active limit s t → t.kind = .importWord →
      rescue importPath (skipSemicolons s).advance = .ok none s' →
      Next im limit (seen, s) (seen, s')
  | imported {seen seen' : List AbsPath} {s s₁ s' : ParseState} {t path : Token} :
      Active limit s t → t.kind = .importWord →
      rescue importPath (skipSemicolons s).advance = .ok (some path) s₁ →
      im.run path seen s₁ = .ok (s', seen') →
      Next im limit (seen, s) (seen', s')

/-- A parse goes on as it does from the next round. -/
theorem Next.program_eq (h : Next im limit (seen, s) (seen', s')) (n : Nat) :
    (program im limit (n + 1) seen s).state = (program im limit n seen' s').state ∧
      (program im limit (n + 1) seen s).halt = (program im limit n seen' s').halt := by
  cases h with
  | declaration hactive hk hd =>
      obtain ⟨⟨rest, ha⟩, hlimit⟩ := hactive
      simp only [program, ha, hlimit, if_neg hk, hd]
      exact ⟨trivial, trivial⟩
  | broken hactive hk hp =>
      obtain ⟨⟨rest, ha⟩, hlimit⟩ := hactive
      simp only [program, ha, hlimit, if_pos hk, hp]
      exact ⟨trivial, trivial⟩
  | imported hactive hk hp hrun =>
      obtain ⟨⟨rest, ha⟩, hlimit⟩ := hactive
      simp only [program, ha, hlimit, if_pos hk, hp, hrun]
      exact ⟨trivial, trivial⟩

/-- The next round has less to read, and the index has not gone back. -/
structure Advances (im : Importer) (seen : List AbsPath) (s : ParseState) (seen' : List AbsPath)
    (s' : ParseState) : Prop where
  less : unreadAt im seen' s' < unreadAt im seen s
  ended : s'.Ended
  course : ∀ rest, Course im (s.cursor rest) (s'.cursor rest)

theorem advances_moves (im : Importer) (seen : List AbsPath) {ts : List Token}
    (hs : s.Ended) (hm : s.Moves ts s') (hne : ts ≠ []) :
    Advances im seen s seen s' where
  less := by
    have hmoved := unreadAt_moves im seen hm
    have := List.length_pos_iff.mpr hne
    omega
  ended := hs.moves hm
  course := fun _ => hs.course hm

/-- The first token of a round that reads something. -/
theorem Active.moves {t : Token} (h : Active limit s t) :
    ∃ ts, s.Moves (ts ++ [t]) (skipSemicolons s).advance := by
  obtain ⟨rest, ha⟩ := h.ahead
  exact ⟨_, (moves_skipSemicolons s).trans (moves_advance ha)⟩

theorem rescue_eq_some {α : Type} {p : Parse α} {a : α} (h : rescue p s = .ok (some a) s') :
    p s = .ok a s' := by
  cases hp : p s with
  | ok b s₁ =>
      rw [rescue, hp] at h
      cases h
      rfl
  | failed s₁ =>
      obtain ⟨_, s₂, heq, _⟩ := rescue_of_failed hp
      rw [heq] at h
      cases h
  | spent s₁ =>
      rw [rescue, hp] at h
      cases h

/-- An import, read or not, takes at least its first word. -/
theorem Active.moves_import {t : Token} {r : Option Token} (h : Active limit s t)
    (hp : rescue importPath (skipSemicolons s).advance = .ok r s') :
    ∃ ts, ts ≠ [] ∧ s.Moves ts s' := by
  obtain ⟨ts, hm⟩ := h.moves
  obtain ⟨us, hm'⟩ := composed_importPath.rescue.moves (skipSemicolons s).advance
  rw [hp] at hm'
  exact ⟨ts ++ [t] ++ us, by simp, hm.trans hm'⟩

theorem Active.moves_declaration {t : Token} {stmt : Option (Stmt Unit)} (hs : s.Ended)
    (h : Active limit s t) (hd : topDeclaration (skipSemicolons s) = .ok stmt s') :
    ∃ ts, ts ≠ [] ∧ s.Moves ts s' := by
  have hm := moves_skipSemicolons s
  obtain ⟨rest, ha⟩ := h.ahead
  obtain ⟨us, hm', hpos, _⟩ := readsAt_ok hd (topDeclaration_reads _ (hs.moves hm).finish)
  rw [ha, List.length_cons] at hpos
  refine ⟨_, List.append_ne_nil_of_right_ne_nil _ ?_, hm.trans hm'⟩
  exact List.length_pos_iff.mp (by omega)

theorem Next.advances (h : Next im limit (seen, s) (seen', s')) (hs : s.Ended) :
    Advances im seen s seen' s' := by
  cases h with
  | declaration hactive _ hd =>
      obtain ⟨ts, hne, hm⟩ := hactive.moves_declaration hs hd
      exact advances_moves im seen hs hm hne
  | broken hactive _ hp =>
      obtain ⟨ts, hne, hm⟩ := hactive.moves_import hp
      exact advances_moves im seen hs hm hne
  | imported hactive _ hp hrun =>
      obtain ⟨ts, hne, hm⟩ := hactive.moves_import hp
      have hread := advances_moves im seen hs hm hne
      exact ⟨Nat.lt_of_le_of_lt (unreadAt_run hrun) hread.less, run_ended hread.ended hrun,
        fun rest => (hread.course rest).trans (run_course hread.ended hrun)⟩

/-- An import that cannot be taken up ends the parse. -/
theorem ends_of_run_error {path : Token} {halt : Halt} (hp : importPath s = .ok path s')
    (hrun : im.run path seen s' = .error halt) :
    (⟨[], seen, s', some halt⟩ : ParseResult).Ends im limit := by
  rcases Importer.run_eq_error hrun with ⟨_, _, hgarbled, rfl⟩ | ⟨hname, rfl⟩
  · exact .garbled rfl hgarbled
  · obtain ⟨hk, semicolon, _, hm, _⟩ := importPath_eq_ok hp
    have hmem : path ∈ s'.taken := by
      rw [hm.taken]
      exact List.mem_append_left _ (by simp)
    exact .stops (.pathNotText rfl hmem hk hname)

/-- A round that is not the last leads to a next one. -/
theorem program_ends_or_next (im : Importer) (limit : ErrorLimit) (seen : List AbsPath)
    (hs : s.Ended) :
    (∃ r : ParseResult, r.Ends im limit ∧ (∃ ts, s.Moves ts r.state) ∧ r.faults = s.faults ∧
      ∀ n, program im limit (n + 1) seen s = r) ∨
    ∃ seen' s', Next im limit (seen, s) (seen', s') := by
  have hm := moves_skipSemicolons s
  have hs₁ := hs.moves hm
  cases ha : (skipSemicolons s).ahead with
  | nil =>
      refine .inl ⟨⟨[], seen, skipSemicolons s, none⟩,
        .stops (.atEnd rfl (hs₁.current_kind.mpr ha)), ⟨_, hm⟩, rfl, fun n => ?_⟩
      simp only [program, ha]
  | cons t rest =>
      cases hlimit : limit.reachedBy (skipSemicolons s).faults.length with
      | none =>
          have hunordered : limit = .unordered := by
            cases limit with
            | unordered => rfl
            | _ => cases hlimit
          refine .inl ⟨⟨[], seen, skipSemicolons s, some .unorderedLimit⟩,
            .stops (.unordered rfl hunordered), ⟨_, hm⟩, rfl, fun n => ?_⟩
          simp only [program, ha, hlimit]
      | some reached =>
          cases reached with
          | true =>
              refine .inl ⟨⟨[], seen, skipSemicolons s, none⟩, .stops (.atLimit rfl hlimit),
                ⟨_, hm⟩, rfl, fun n => ?_⟩
              simp only [program, ha, hlimit]
          | false =>
              have hactive : Active limit s t := ⟨⟨rest, ha⟩, hlimit⟩
              by_cases hk : t.kind = .importWord
              · cases hp : rescue importPath (skipSemicolons s).advance with
                | failed s₂ => exact absurd hp (rescue_ne_failed _ _ _)
                | spent s₂ =>
                    exact absurd trivial (readsAt_spent hp (readsAt_rescue (importPath_reads _)))
                | ok r s₂ =>
                    cases r with
                    | none => exact .inr ⟨seen, s₂, .broken hactive hk hp⟩
                    | some path =>
                        cases hrun : im.run path seen s₂ with
                        | ok next => exact .inr ⟨next.2, next.1, .imported hactive hk hp hrun⟩
                        | error halt =>
                            obtain ⟨ts, _, hm₂⟩ := hactive.moves_import hp
                            have hpath := rescue_eq_some hp
                            obtain ⟨_, _, _, _, hfaults⟩ := importPath_eq_ok hpath
                            refine .inl ⟨⟨[], seen, s₂, some halt⟩, ?_, ⟨ts, hm₂⟩, hfaults,
                              fun n => ?_⟩
                            · exact ends_of_run_error hpath hrun
                            · simp only [program, ha, hlimit, if_pos hk, hp, hrun]
              · cases hd : topDeclaration (skipSemicolons s) with
                | ok stmt s₂ => exact .inr ⟨seen, s₂, .declaration hactive hk hd⟩
                | failed s₂ => exact absurd hd (topDeclaration_ne_failed _ s₂)
                | spent s₂ =>
                    exact absurd trivial (readsAt_spent hd (topDeclaration_reads _ hs₁.finish))

/-! ## Whole parses -/

/-- A parse with a budget that is larger than what there is to read comes to an end, and its
index has only gone forwards. -/
theorem program_finishes (limit : ErrorLimit) (n : Nat) (hs : s.Ended)
    (hn : unreadAt im seen s < n) :
    (program im limit n seen s).Ends im limit ∧
      ∀ rest, Course im (s.cursor rest) ((program im limit n seen s).state.cursor rest) := by
  induction n generalizing seen s with
  | zero => omega
  | succ n ih =>
      rcases program_ends_or_next im limit seen hs with
        ⟨r, hends, ⟨ts, hm⟩, _, heq⟩ | ⟨seen', s', hnext⟩
      · rw [heq n]
        exact ⟨hends, fun _ => hs.course hm⟩
      · obtain ⟨hstate, hhalt⟩ := hnext.program_eq n
        have hadvances := hnext.advances hs
        have hless := hadvances.less
        obtain ⟨hends, hcourse⟩ := @ih seen' s' hadvances.ended (by omega)
        refine ⟨hends.of_state hhalt (by rw [hstate]) (congrArg ParseState.faults hstate)
          (by rw [hstate]), fun rest => ?_⟩
        rw [hstate]
        exact (hadvances.course rest).trans (hcourse rest)

/-- A parse does not leave the end of the input among the tokens ahead of it. -/
theorem program_ended (limit : ErrorLimit) (n : Nat) (hs : s.Ended)
    (hn : unreadAt im seen s < n) : (program im limit n seen s).state.Ended := by
  induction n generalizing seen s with
  | zero => omega
  | succ n ih =>
      rcases program_ends_or_next im limit seen hs with
        ⟨r, _, ⟨ts, hm⟩, _, heq⟩ | ⟨seen', s', hnext⟩
      · rw [heq n]
        exact hs.moves hm
      · have hadvances := hnext.advances hs
        have hless := hadvances.less
        rw [(hnext.program_eq n).1]
        exact ih hadvances.ended (by omega)

/-- The rounds of a parse, from the one that begins at `start` on. -/
def Rounds (im : Importer) (limit : ErrorLimit) (start : ParseState) (seen : List AbsPath)
    (s : ParseState) : Prop :=
  Relation.ReflTransGen (Next im limit) ([], start) (seen, s)

/-- A round begins on the course of the parse, and the parse goes on from there. -/
theorem Rounds.program_eq {start : ParseState} (h : Rounds im limit start seen s)
    (hs : start.Ended) {n : Nat} (hn : unreadAt im [] start < n) :
    s.Ended ∧ (∀ rest, Course im (start.cursor rest) (s.cursor rest)) ∧
      ∃ m, unreadAt im seen s < m ∧
        (program im limit n [] start).state = (program im limit m seen s).state := by
  suffices hpair : ∀ next, Relation.ReflTransGen (Next im limit) ([], start) next →
      next.2.Ended ∧ (∀ rest, Course im (start.cursor rest) (next.2.cursor rest)) ∧
        ∃ m, unreadAt im next.1 next.2 < m ∧
          (program im limit n [] start).state = (program im limit m next.1 next.2).state from
    hpair _ h
  intro next hrounds
  induction hrounds with
  | refl => exact ⟨hs, fun _ => .refl, n, hn, rfl⟩
  | tail _ hnext ih =>
      obtain ⟨hended, hcourse, m, hm, hstate⟩ := ih
      have hadvances := hnext.advances hended
      have hless := hadvances.less
      refine ⟨hadvances.ended, fun rest => (hcourse rest).trans (hadvances.course rest), ?_⟩
      obtain ⟨k, rfl⟩ : ∃ k, m = k + 1 := ⟨m - 1, by omega⟩
      exact ⟨k, by omega, hstate.trans (hnext.program_eq k).1⟩

/-! ## On the way -/

/-- The step `q` runs from `s'` in the parse of a program that starts at `start`. -/
inductive Visits {β : Type} (im : Importer) (limit : ErrorLimit) (start : ParseState)
    (q : Parse β) (s' : ParseState) : Prop
  | declaration {seen : List AbsPath} {s : ParseState} {t : Token} :
      Rounds im limit start seen s → Active limit s t → t.kind ≠ .importWord →
      Runs q s' topDeclaration (skipSemicolons s) → Visits im limit start q s'
  | importing {seen : List AbsPath} {s : ParseState} {t : Token} :
      Rounds im limit start seen s → Active limit s t → t.kind = .importWord →
      Runs q s' (rescue importPath) (skipSemicolons s).advance → Visits im limit start q s'

/-- A step from `before` to `after` lies on the course from `first` to `last`. The index does
not go back, and it is one of the list. -/
structure OnCourse (im : Importer) (first before after last : Cursor) : Prop where
  reached : Course im first before
  step : Course im before after
  remaining : Course im after last
  forwards : before.index ≤ after.index ∧ after.index ≤ last.index
  valid : before.Valid ∧ after.Valid

theorem onCourse_of_courses {first before after last : Cursor} (hreached : Course im first before)
    (hstep : Course im before after) (hremaining : Course im after last) (hfirst : first.Valid) :
    OnCourse im first before after last where
  reached := hreached
  step := hstep
  remaining := hremaining
  forwards := ⟨hstep.index_le, hremaining.index_le⟩
  valid := ⟨hreached.valid hfirst, hstep.valid (hreached.valid hfirst)⟩

theorem not_isSpent_topDeclaration (hs : s.Ended) : ¬ IsSpent topDeclaration s := fun ⟨_, h⟩ =>
  readsAt_spent h (topDeclaration_reads s hs.finish) trivial

theorem not_isSpent_importPath (s : ParseState) : ¬ IsSpent (rescue importPath) s := fun ⟨_, h⟩ =>
  readsAt_spent h (readsAt_rescue (importPath_reads s)) trivial

/-- The parts of a step lie on its course. -/
theorem Runs.courses (im : Importer) (rest : List Token) {α β : Type} {p : Parse α}
    {q : Parse β} (h : Runs q s' p s) (hq : Composed q) (hs : s.Ended) :
    Course im (s.cursor rest) (s'.cursor rest) ∧
      Course im (s'.cursor rest) ((q s').state.cursor rest) ∧
      Course im ((q s').state.cursor rest) ((p s).state.cursor rest) := by
  obtain ⟨ts, hm⟩ := h.moves
  obtain ⟨us, hm'⟩ := hq.moves s'
  obtain ⟨vs, hm''⟩ := h.moves_after
  have hs' := hs.moves hm
  exact ⟨hs.course hm, hs'.course hm', (hs'.moves hm').course hm''⟩

/-- After an import, read or not, the parse goes on. -/
theorem course_after_import {t : Token} {r : Option Token} {m : Nat} (hs : s.Ended)
    (hactive : Active limit s t) (hk : t.kind = .importWord)
    (hp : rescue importPath (skipSemicolons s).advance = .ok r s') (hm : unreadAt im seen s < m) :
    Course im (s'.cursor rest) ((program im limit m seen s).state.cursor rest) := by
  obtain ⟨m, rfl⟩ : ∃ k, m = k + 1 := ⟨m - 1, by omega⟩
  have hgo : ∀ {seen₂ s₂}, Next im limit (seen, s) (seen₂, s₂) →
      Course im (s₂.cursor rest) ((program im limit (m + 1) seen s).state.cursor rest) := by
    intro seen₂ s₂ hnext
    have hadvances := hnext.advances hs
    have hless := hadvances.less
    rw [(hnext.program_eq m).1]
    exact (program_finishes limit m hadvances.ended (by omega)).2 rest
  obtain ⟨ts, _, hmoves⟩ := hactive.moves_import hp
  cases r with
  | none => exact hgo (.broken hactive hk hp)
  | some path =>
      cases hrun : im.run path seen s' with
      | ok next =>
          exact (run_course (hs.moves hmoves) hrun).trans (hgo (.imported hactive hk hp hrun))
      | error halt =>
          obtain ⟨⟨_, ha⟩, hlimit⟩ := hactive
          simp only [program, ha, hlimit, if_pos hk, hp, hrun]
          exact .refl

theorem course_after_declaration {t : Token} {stmt : Option (Stmt Unit)} {m : Nat} (hs : s.Ended)
    (hactive : Active limit s t) (hk : t.kind ≠ .importWord)
    (hd : topDeclaration (skipSemicolons s) = .ok stmt s') (hm : unreadAt im seen s < m) :
    Course im (s'.cursor rest) ((program im limit m seen s).state.cursor rest) := by
  obtain ⟨m, rfl⟩ : ∃ k, m = k + 1 := ⟨m - 1, by omega⟩
  have hnext : Next im limit (seen, s) (seen, s') := .declaration hactive hk hd
  have hadvances := hnext.advances hs
  have hless := hadvances.less
  rw [(hnext.program_eq m).1]
  exact (program_finishes limit m hadvances.ended (by omega)).2 rest

/-- Whatever runs in a parse lies on its course. -/
theorem Visits.onCourse {β : Type} {q : Parse β} {start : ParseState} {n : Nat}
    (h : Visits im limit start q s') (hq : Composed q) (hs : start.Ended)
    (hstart : (start.cursor rest).Valid) (hn : unreadAt im [] start < n) :
    OnCourse im (start.cursor rest) (s'.cursor rest) ((q s').state.cursor rest)
      ((program im limit n [] start).state.cursor rest) := by
  cases h with
  | @declaration seen s t hrounds hactive hk hruns =>
      obtain ⟨hended, hcourse, m, hm, hstate⟩ := hrounds.program_eq hs hn
      have hmoves := moves_skipSemicolons s
      have hended₁ := hended.moves hmoves
      obtain ⟨hreached, hstep, hleft⟩ := hruns.courses im _ hq hended₁
      have hfirst := (hcourse rest).trans ((hended.course hmoves).trans hreached)
      refine onCourse_of_courses hfirst hstep ?_ hstart
      rw [hstate]
      cases hd : topDeclaration (skipSemicolons s) with
      | ok stmt s₂ =>
          rw [hd] at hleft
          exact hleft.trans (course_after_declaration hended hactive hk hd hm)
      | failed s₂ => exact absurd hd (topDeclaration_ne_failed _ s₂)
      | spent s₂ => exact absurd ⟨s₂, hd⟩ (not_isSpent_topDeclaration hended₁)
  | @importing seen s t hrounds hactive hk hruns =>
      obtain ⟨hended, hcourse, m, hm, hstate⟩ := hrounds.program_eq hs hn
      obtain ⟨ts, hmoves⟩ := hactive.moves
      have hended₁ := hended.moves hmoves
      obtain ⟨hreached, hstep, hleft⟩ := hruns.courses im _ hq hended₁
      have hfirst := (hcourse rest).trans ((hended.course hmoves).trans hreached)
      refine onCourse_of_courses hfirst hstep ?_ hstart
      rw [hstate]
      cases hp : rescue importPath (skipSemicolons s).advance with
      | ok r s₂ =>
          rw [hp] at hleft
          exact hleft.trans (course_after_import hended hactive hk hp hm)
      | failed s₂ => exact absurd hp (rescue_ne_failed _ _ _)
      | spent s₂ => exact absurd ⟨s₂, hp⟩ (not_isSpent_importPath _)

/-- Nothing in a parse looks back from the first token. -/
theorem Visits.position_pos {start : ParseState} (h : Visits im limit start previous s')
    (hs : start.Ended) : 1 ≤ s'.position := by
  refine List.length_pos_iff.mpr ?_
  cases h with
  | declaration hrounds _ _ hruns =>
      have hended := (hrounds.program_eq hs (Nat.lt_succ_self _)).1
      exact hruns.taken_ne_nil (not_isSpent_topDeclaration (hended.moves (moves_skipSemicolons _)))
  | importing _ _ _ hruns => exact hruns.taken_ne_nil (not_isSpent_importPath _)

end Parse

open Parse

/-- How the parse of a program goes. It comes to its end, and whatever is run on the way lies on
one course of the index along the tokens. -/
structure ParseResult.Progresses (im : Importer) (limit : ErrorLimit) (tokens : List Token)
    (r : ParseResult) : Prop where
  composed : Composed topDeclaration ∧ Composed (rescue importPath)
  stops : r.Stops limit
  onCourse : ∀ {β : Type} (q : Parse β) (s : ParseState), Composed q →
    Visits im limit (ofTokens tokens) q s →
    OnCourse im ⟨withEnd tokens, 0⟩ (s.cursor (afterEnd tokens))
      ((q s).state.cursor (afterEnd tokens)) (r.state.cursor (afterEnd tokens))
  /-- The token that is looked at is the one at the index. -/
  looksAt : ∀ {β : Type} (q : Parse β) (s : ParseState), Composed q →
    Visits im limit (ofTokens tokens) q s →
    (s.cursor (afterEnd tokens)).tokens[(s.cursor (afterEnd tokens)).index]? = some s.current
  /-- The token that is looked back at is the one before the index. -/
  looksBack : ∀ s, Visits im limit (ofTokens tokens) previous s →
    1 ≤ s.position ∧ ∃ t, previous s = .ok t s ∧
      (s.cursor (afterEnd tokens)).tokens[(s.cursor (afterEnd tokens)).index - 1]? = some t
  course : Course im ⟨withEnd tokens, 0⟩ (r.state.cursor (afterEnd tokens))
  valid : (r.state.cursor (afterEnd tokens)).Valid

/-- How the parse of an expression goes. -/
structure ExpressionProgresses (im : Importer) (tokens : List Token) : Prop where
  composed : Composed expression
  stops : ¬ IsSpent expression (ofTokens tokens)
  onCourse : ∀ {β : Type} (q : Parse β) (s : ParseState), Composed q →
    Runs q s expression (ofTokens tokens) →
    OnCourse im ⟨withEnd tokens, 0⟩ (s.cursor (afterEnd tokens))
      ((q s).state.cursor (afterEnd tokens)) ((parseExpression tokens).2.cursor (afterEnd tokens))
  looksAt : ∀ {β : Type} (q : Parse β) (s : ParseState), Composed q →
    Runs q s expression (ofTokens tokens) →
    (s.cursor (afterEnd tokens)).tokens[(s.cursor (afterEnd tokens)).index]? = some s.current
  looksBack : ∀ s, Runs previous s expression (ofTokens tokens) →
    1 ≤ s.position ∧ ∃ t, previous s = .ok t s ∧
      (s.cursor (afterEnd tokens)).tokens[(s.cursor (afterEnd tokens)).index - 1]? = some t

theorem parseProgram_state (im : Importer) (limit : ErrorLimit) (tokens : List Token)
    (name : Option String) :
    ∃ notes, (parseProgram im limit tokens name).state =
      { (program im limit (im.supply tokens + 1) [] (ofTokens tokens)).state with notes := notes } ∧
      (parseProgram im limit tokens name).halt =
        (program im limit (im.supply tokens + 1) [] (ofTokens tokens)).halt := by
  rw [parseProgram]
  dsimp only
  split
  · exact ⟨_, rfl, rfl⟩
  · exact ⟨_, rfl, rfl⟩

theorem unreadAt_ofTokens_lt (im : Importer) (tokens : List Token) :
    unreadAt im [] (ofTokens tokens) < im.supply tokens + 1 := by
  have hlen : (ofTokens tokens).ahead.length ≤ tokens.length :=
    (List.takeWhile_sublist _).length_le
  rw [unreadAt, im.supply_eq]
  omega

theorem parseProgram_ends (im : Importer) (limit : ErrorLimit) (tokens : List Token)
    (name : Option String) : (parseProgram im limit tokens name).Ends im limit := by
  obtain ⟨notes, hstate, hhalt⟩ := parseProgram_state im limit tokens name
  have hends := (program_finishes limit _
    (ended_ofTokens tokens) (unreadAt_ofTokens_lt im tokens)).1
  refine hends.of_state hhalt ?_ ?_ ?_
  · rw [hstate]
    rfl
  · rw [ParseResult.faults, hstate]
    rfl
  · rw [hstate]

theorem parseProgram_course (im : Importer) (limit : ErrorLimit) (tokens : List Token)
    (name : Option String) :
    Course im ⟨withEnd tokens, 0⟩
      ((parseProgram im limit tokens name).state.cursor (afterEnd tokens)) := by
  obtain ⟨notes, hstate, _⟩ := parseProgram_state im limit tokens name
  have hcourse := (program_finishes limit _ (ended_ofTokens tokens)
    (unreadAt_ofTokens_lt im tokens)).2 (afterEnd tokens)
  rw [cursor_ofTokens] at hcourse
  rw [hstate]
  exact hcourse

theorem expression_progresses (im : Importer) (tokens : List Token) :
    ExpressionProgresses im tokens := by
  have hs := ended_ofTokens tokens
  have hstart := cursor_ofTokens tokens
  have hspent : ¬ IsSpent expression (ofTokens tokens) := fun ⟨_, h⟩ =>
    readsAt_spent h (expression_reads _ hs.finish) trivial
  have hstate : (parseExpression tokens).2 = (expression (ofTokens tokens)).state := by
    rw [parseExpression]
    cases expression (ofTokens tokens) <;> rfl
  refine ⟨composed_expression, hspent, fun q s hq hruns => ?_,
    fun _ s _ _ => s.cursor_current _, fun s hruns => ?_⟩
  · obtain ⟨hreached, hstep, hleft⟩ := hruns.courses im _ hq hs
    rw [hstart] at hreached
    rw [hstate]
    exact onCourse_of_courses hreached hstep hleft (valid_withEnd tokens)
  · have hpos : 1 ≤ s.position := List.length_pos_iff.mpr (hruns.taken_ne_nil hspent)
    exact ⟨hpos, cursor_previous hpos _⟩

/-- Every parse comes to its end, and nothing in it leaves its tokens. That is so for any
tokens, any limit of faults, and any files that are text, whatever they import. -/
theorem parse_progresses (im : Importer) (limit : ErrorLimit) (tokens : List Token)
    (name : Option String)
    (hfiles : ∀ file ∈ im.files.contents, ∃ text, decodeUtf8 file.2 = .ok text) :
    (parseProgram im limit tokens name).Progresses im limit tokens ∧
      ExpressionProgresses im tokens := by
  have hs := ended_ofTokens tokens
  have hn := unreadAt_ofTokens_lt im tokens
  have hvalid : ((ofTokens tokens).cursor (afterEnd tokens)).Valid := by
    rw [cursor_ofTokens]
    exact valid_withEnd tokens
  obtain ⟨notes, hstate, _⟩ := parseProgram_state im limit tokens name
  have hcursor : (parseProgram im limit tokens name).state.cursor (afterEnd tokens) =
      (program im limit (im.supply tokens + 1) [] (ofTokens tokens)).state.cursor
        (afterEnd tokens) := by
    rw [hstate]
    rfl
  have hcourse := parseProgram_course im limit tokens name
  refine ⟨⟨⟨composed_topDeclaration, composed_importPath.rescue⟩, ?_, fun q s hq hvisits => ?_,
    fun _ s _ _ => s.cursor_current _, fun s hvisits => ?_, hcourse,
    Course.valid hcourse (valid_withEnd tokens)⟩, expression_progresses im tokens⟩
  · cases parseProgram_ends im limit tokens name with
    | stops h => exact h
    | @garbled path _ _ hgarbled =>
        obtain ⟨bytes, hentry, herror⟩ := hgarbled
        obtain ⟨before, after, hcontents, _⟩ :=
          List.lookup_eq_some_iff.mp (Files.lookup_of_entry hentry)
        have hmem : (path.names, bytes) ∈ im.files.contents := by
          rw [hcontents]
          exact List.mem_append_right _ List.mem_cons_self
        obtain ⟨text, htext⟩ := hfiles _ hmem
        rw [htext] at herror
        cases herror
  · have honCourse := hvisits.onCourse hq hs hvalid hn
    rwa [cursor_ofTokens, ← hcursor] at honCourse
  · have hpos := hvisits.position_pos hs
    exact ⟨hpos, cursor_previous hpos _⟩

/-- Two files that import each other, and tokens with an end of the input in the middle. -/
theorem parse_progresses_mutual :
    let files := [(["a"], "import \"b\"; \x7d".toList.map Char.toUInt8),
      (["b"], "import \"a\"; ;".toList.map Char.toUInt8)]
    let im : Importer := ⟨⟨[], false⟩, { contents := files }⟩
    let tokens := (scan "import \"a\"; (".toList).tokens ++ (scan "else".toList).tokens
    (∀ file ∈ im.files.contents, ∃ text, decodeUtf8 file.2 = .ok text) ∧
      (parseProgram im (.count 2) tokens).Progresses im (.count 2) tokens ∧
      ExpressionProgresses im tokens := by
  intro files im tokens
  have hfiles : ∀ file ∈ im.files.contents, ∃ text, decodeUtf8 file.2 = .ok text := by
    simp only [im, files, List.forall_mem_cons]
    exact ⟨⟨_, rfl⟩, ⟨_, rfl⟩, by simp⟩
  exact ⟨hfiles, parse_progresses im (.count 2) tokens none hfiles⟩

end Lox
