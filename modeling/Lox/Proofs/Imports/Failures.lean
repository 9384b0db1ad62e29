import Lox.Proofs.Acceptance
import Lox.Proofs.Imports.Progress
import Lox.Proofs.Traces

/-!
# What a failing import does

A failing import is one or more faults at the token of its path. The tokens after it and the
files imported before it stay as they are, and the parse goes on.

One kind of failure does not keep to this: a file that can be opened but is not text ends the
parse with an error of its own, which neither the parse nor the session that asked for it
turns into a fault. `import_contained` says that this is the only one.
-/

namespace Lox

open ParseState Parse Cursor

/-! ## Tokens of sources -/

/-- A string stands for a text. -/
def Token.StringHasText (t : Token) : Prop :=
  t.kind = .string → ∃ name, t.literal = .text name

theorem Token.IsLexeme.stringHasText {t : Token} (h : t.IsLexeme) : t.StringHasText := by
  obtain ⟨p, c, rest, h⟩ := h
  rw [Piece.token?] at h
  split at h
  · next kind _ =>
      cases h
      rintro (rfl : kind = .string)
      exact ⟨_, rfl⟩
  · cases h

theorem stringHasText_scan (text : List Char) : ∀ t ∈ (scan text).tokens, t.StringHasText := by
  obtain ⟨ts, eof, htokens, hk, hlex⟩ := scan_tokens text
  rw [htokens]
  refine List.forall_mem_append.mpr ⟨fun t ht => (hlex t ht).stringHasText, ?_⟩
  intro t ht hstring
  rw [List.mem_singleton.mp ht, hk] at hstring
  cases hstring

theorem stringHasText_closeUnit {tokens : List Token} (h : ∀ t ∈ tokens, t.StringHasText) :
    ∀ t ∈ closeUnit tokens, t.StringHasText := by
  intro t ht
  rcases mem_closeUnit ht with ht | ⟨line, column, rfl⟩
  · exact h t ht
  · exact fun hk => nomatch hk

/-- The tokens of a parse are those it was given and those of files. -/
theorem Cursor.Course.forall_tokens {im : Importer} {c c' : Cursor} {P : Token → Prop}
    (h : Course im c c') (hfiles : ∀ path ts, im.tokens? path = some ts → ∀ t ∈ ts, P t)
    (hc : ∀ t ∈ c.tokens, P t) : ∀ t ∈ c'.tokens, P t := by
  induction h with
  | refl => exact hc
  | tail _ hturn ih =>
      cases hturn with
      | take => exact ih
      | splice htokens =>
          intro t ht
          rcases List.mem_append.mp ht with ht | ht
          · rcases List.mem_append.mp ht with ht | ht
            · exact ih t (List.mem_of_mem_take ht)
            · exact hfiles _ _ htokens t ht
          · exact ih t (List.mem_of_mem_drop ht)

theorem stringHasText_withEnd {tokens : List Token} (h : ∀ t ∈ tokens, t.StringHasText) :
    ∀ t ∈ withEnd tokens, t.StringHasText := by
  rw [withEnd]
  split
  · exact h
  · refine List.forall_mem_append.mpr ⟨h, fun t ht hk => ?_⟩
    rw [List.mem_singleton.mp ht] at hk
    cases hk

theorem Importer.stringHasText_tokens {im : Importer} (path : AbsPath) (ts : List Token)
    (h : im.tokens? path = some ts) : ∀ t ∈ ts, t.StringHasText := by
  obtain ⟨_, text, _, _, _, rfl⟩ := tokens?_eq_some h
  exact fun t ht => stringHasText_scan _ t (List.dropLast_subset _ ht)

/-! ## What ends a parse before its time -/

/-- What can end the parse of a program whose strings are texts: a file that is not text, or a
limit that is no number. -/
inductive Halt.Explained (im : Importer) (limit : ErrorLimit) : Halt → Prop
  | garbled {path : AbsPath} {e : EncodingError} :
      im.Garbled path e → Explained im limit (.undecodable e)
  | unordered : limit = .unordered → Explained im limit .unorderedLimit

theorem parseProgram_halt {im : Importer} {limit : ErrorLimit} {tokens : List Token}
    {name : Option String} {halt : Halt} (htokens : ∀ t ∈ tokens, t.StringHasText)
    (h : (parseProgram im limit tokens name).halt = some halt) : halt.Explained im limit := by
  cases parseProgram_ends im limit tokens name with
  | garbled hh hgarbled =>
      rw [h] at hh
      cases hh
      exact .garbled hgarbled
  | stops hstops =>
      cases hstops with
      | atEnd hh | atLimit hh =>
          rw [h] at hh
          cases hh
      | unordered hh hlimit =>
          rw [h] at hh
          cases hh
          exact .unordered hlimit
      | @pathNotText t _ ht hk hname =>
          have hcourse := parseProgram_course im limit tokens name
          have hmem : t ∈ ((parseProgram im limit tokens name).state.cursor
              (afterEnd tokens)).tokens := by
            rw [cursor, List.append_assoc]
            exact List.mem_append_left _ (List.mem_reverse.mpr ht)
          obtain ⟨text, htext⟩ := Course.forall_tokens hcourse Importer.stringHasText_tokens
            (stringHasText_withEnd htokens) t hmem hk
          exact absurd htext (hname text)

/-- A session that cannot read a unit says what ended its parse. -/
theorem Session.run_halt {s : Session} {source : String} {name : Option String} {typed : Bool}
    {halt : Halt} (h : (s.run source name typed).1.outcome = .escaped (.halt halt)) :
    (UnitReading.ofSource s.importer s.settings.errorLimit name typed source).halt = some halt := by
  rw [run_report, respond] at h
  show (s.reading source name typed).halt = some halt
  cases hhalt : (s.reading source name typed).halt with
  | some halt' =>
      rw [hhalt] at h
      cases h
      rfl
  | none =>
      rw [hhalt] at h
      simp only at h
      split at h
      · simp only [executed] at h
        split at h <;> cases h
      · cases h

theorem UnitReading.ofTokens_halt (im : Importer) (limit : ErrorLimit) (name : Option String)
    (tokens : List Token) (found : List Diagnostic) :
    (ofTokens im limit name tokens found).halt = (parseProgram im limit tokens name).halt := by
  rw [ofTokens]
  dsimp only
  cases hhalt : (parseProgram im limit tokens name).halt with
  | some halt => rfl
  | none =>
      simp only
      split <;> rfl

theorem UnitReading.ofSource_halt {im : Importer} {limit : ErrorLimit} {name : Option String}
    {typed : Bool} {source : String} {halt : Halt}
    (h : (ofSource im limit name typed source).halt = some halt) : halt.Explained im limit := by
  have htokens : ∀ t ∈ (if typed then closeUnit (scan source.toList).tokens
      else (scan source.toList).tokens), t.StringHasText := by
    split
    · exact stringHasText_closeUnit (stringHasText_scan _)
    · exact stringHasText_scan _
  rw [ofSource] at h
  dsimp only at h
  rw [ofTokens_halt] at h
  exact parseProgram_halt htokens h

/-! ## One import -/

/-- What reading an import in front of `s` does to a parse. Either the parse goes on after it:
the import was skipped, or it was spliced in, or it left a fault at the token of its path. Or
the file is not text. -/
inductive ImportContained (im : Importer) (limit : ErrorLimit) (seen : List AbsPath)
    (s : ParseState) (path : Token) (target : AbsPath) (s₁ : ParseState) : Prop
  | goesOn {s₂ : ParseState} {seen₂ : List AbsPath} :
      im.Outcome path target seen s₁ (.ok (s₂, seen₂)) →
      (∀ f ∈ s₂.faults, f ∈ s.faults ∨
        f.toDiagnostic.code = "E104" ∧ f.toDiagnostic.token = some path) →
      (∀ n, program im limit (n + 1) seen s = program im limit n seen₂ s₂) →
      ImportContained im limit seen s path target s₁
  | garbled {e : EncodingError} :
      target ∉ seen → im.Garbled target e →
      (∀ n, program im limit (n + 1) seen s = ⟨[], seen, s₁, some (.undecodable e)⟩) →
      ImportContained im limit seen s path target s₁

variable {im : Importer} {limit : ErrorLimit} {seen : List AbsPath} {s : ParseState}
  {word path semicolon : Token} {rest : List Token}

theorem importPath_of_words (ha : s.ahead = path :: semicolon :: rest)
    (hpath : path.kind = .string) (hsemicolon : semicolon.kind = .semicolon) :
    importPath s = .ok path s.advance.advance := by
  have hnext : s.advance.ahead = semicolon :: rest := ahead_advance ha
  have hfirst : ∀ message, expect .string message s = .ok path s.advance := fun message => by
    simp [expect, accept, acceptIf, bind_apply, ha, hpath]
    rfl
  have hsecond : ∀ message, expect .semicolon message s.advance = .ok semicolon s.advance.advance :=
    fun message => by
      simp [expect, accept, acceptIf, bind_apply, hnext, hsemicolon]
      rfl
  rw [importPath, bind_apply, hfirst]
  simp only [bind_apply, hsecond]
  rfl

/-- Faults that an import leaves are failed imports at its path. -/
theorem Importer.Outcome.faults {target : AbsPath} {s₁ s₂ : ParseState} {seen₂ : List AbsPath}
    (h : im.Outcome path target seen s₁ (.ok (s₂, seen₂))) :
    ∀ f ∈ s₂.faults, f ∈ s₁.faults ∨
      f.toDiagnostic.code = "E104" ∧ f.toDiagnostic.token = some path := by
  intro f hf
  cases h with
  | skipped _ _ hfaults | spliced _ _ _ hfaults => exact .inl (hfaults ▸ hf)
  | failed _ _ _ _ _ hfaults =>
      rw [hfaults] at hf
      rcases List.mem_append.mp hf with hf | hf
      · exact .inl hf
      · obtain ⟨reason, _, rfl⟩ := List.mem_map.mp hf
        exact .inr ⟨rfl, rfl⟩

theorem program_import {name : String} (ha : s.ahead = word :: path :: semicolon :: rest)
    (hwords : ImportWords word path semicolon) (hname : path.literal = .text name)
    (hlimit : limit.reachedBy s.faults.length = some false) :
    ∃ s₁, s.Moves [word, path, semicolon] s₁ ∧ s₁.faults = s.faults ∧
      ImportContained im limit seen s path (im.base.follow name) s₁ := by
  have hnext : s.advance.ahead = path :: semicolon :: rest := ahead_advance ha
  have hp := importPath_of_words hnext hwords.path hwords.semicolon
  have hrescue : rescue importPath s.advance = .ok (some path) s.advance.advance.advance := by
    rw [rescue, hp]
  have hm := (moves_advance ha).trans
    ((moves_advance hnext).trans (moves_advance (ahead_advance hnext)))
  have hsemi : skipSemicolons s = s := skipSemicolons_of_ne (by simp [ha, headKind, hwords.word])
  refine ⟨_, hm, rfl, ?_⟩
  have houtcome : im.Outcome path (im.base.follow name) seen s.advance.advance.advance
      (im.run path seen s.advance.advance.advance) := Importer.run_outcome hname
  cases hrun : im.run path seen s.advance.advance.advance with
  | ok next =>
      rw [hrun] at houtcome
      refine .goesOn houtcome houtcome.faults fun n => ?_
      simp only [program, hsemi, ha, hlimit, if_pos hwords.word, hrescue, hrun]
  | error halt =>
      rw [hrun] at houtcome
      cases houtcome with
      | garbled hseen hgarbled =>
          refine .garbled hseen hgarbled fun n => ?_
          simp only [program, hsemi, ha, hlimit, if_pos hwords.word, hrescue, hrun]

/-- In the parses of a session, an import is skipped, spliced in, or a fault at the token of
its path that changes nothing else, unless it names a file that is not text. Nothing else about
an import ends the parse of a program or the run of a unit: what is left is a limit of faults
that is no number. -/
theorem import_contained (session : Session) :
    (∀ (seen : List AbsPath) (s : ParseState) (word path semicolon : Token) (rest : List Token)
      (name : String),
      s.ahead = word :: path :: semicolon :: rest → ImportWords word path semicolon →
      path.literal = .text name →
      session.settings.errorLimit.reachedBy s.faults.length = some false →
      ∃ s₁, s.Moves [word, path, semicolon] s₁ ∧ s₁.faults = s.faults ∧
        ImportContained session.importer session.settings.errorLimit seen s path
          (session.base.follow name) s₁) ∧
    (∀ (tokens : List Token) (name : Option String) (halt : Halt),
      (∀ t ∈ tokens, t.StringHasText) →
      (parseProgram session.importer session.settings.errorLimit tokens name).halt = some halt →
      halt.Explained session.importer session.settings.errorLimit) ∧
    ∀ (source : String) (name : Option String) (typed : Bool) (halt : Halt),
      (session.run source name typed).1.outcome = .escaped (.halt halt) →
      halt.Explained session.importer session.settings.errorLimit :=
  ⟨fun _ _ _ _ _ _ _ ha hwords hname hlimit => program_import ha hwords hname hlimit,
    fun _ _ _ htokens hhalt => parseProgram_halt htokens hhalt,
    fun _ _ _ _ houtcome => UnitReading.ofSource_halt (Session.run_halt houtcome)⟩

example : (parseProgram ⟨⟨[], false⟩, { contents := [(["a"], [0xff])] }⟩ (.count 20)
    (scan "import \"a\"; print 1;".toList).tokens).halt matches
      some (.undecodable ⟨.invalidStart, 0, 1, 0xff⟩) := by
  decide +kernel

end Lox
