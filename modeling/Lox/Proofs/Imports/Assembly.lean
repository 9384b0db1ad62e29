import Lox.Proofs.Imports.Expansion
import Lox.Proofs.Imports.Failures

/-!
# The grammar of programs with imports

An import stands where a declaration can stand. The tokens of its file come in its place, and
what they leave open may be closed by what follows the import. `Assembles` is the grammar of
programs with this rule, and a parse without a fault is the same as a derivation in it.
-/

namespace Lox

open ParseState Parse Grammar

/-- `program → (declaration | import | ";")*`, for tokens that are read when the paths `seen`
were met before. -/
inductive Assembles (im : Importer) : List AbsPath → List Token → List (Stmt Unit) → Prop
  | finish {seen : List AbsPath} : Assembles im seen [] []
  | semicolon {seen : List AbsPath} {t : Token} {ts : List Token} {p : List (Stmt Unit)} :
      t.kind = .semicolon → Assembles im seen ts p → Assembles im seen (t :: ts) p
  | declaration {isOpen : Bool} {seen : List AbsPath} {ts us : List Token} {s : Stmt Unit}
      {p : List (Stmt Unit)} :
      Declaration .nearest isOpen ts s → Assembles im seen us p →
      Assembles im seen (ts ++ us) (s :: p)
  | again {seen : List AbsPath} {word path semicolon : Token} {name : String} {ts : List Token}
      {p : List (Stmt Unit)} :
      ImportWords word path semicolon → path.literal = .text name →
      im.base.follow name ∈ seen → Assembles im seen ts p →
      Assembles im seen (word :: path :: semicolon :: ts) p
  | first {seen : List AbsPath} {word path semicolon : Token} {name : String}
      {us ts : List Token} {p : List (Stmt Unit)} :
      ImportWords word path semicolon → path.literal = .text name →
      im.base.follow name ∉ seen → im.tokens? (im.base.follow name) = some us →
      Assembles im (seen ++ [im.base.follow name]) (us ++ ts) p →
      Assembles im seen (word :: path :: semicolon :: ts) p

/-- A parse has come to its end without a fault, with this program. -/
structure ParseResult.Gives (r : ParseResult) (p : List (Stmt Unit)) : Prop where
  halt : r.halt = none
  faults : r.faults = []
  program : r.program = p

variable {im : Importer} {limit : ErrorLimit} {seen : List AbsPath} {s : ParseState}

theorem Assembles.semicolons {ts us : List Token} {p : List (Stmt Unit)}
    (hts : ∀ t ∈ ts, t.kind = .semicolon) (h : Assembles im seen us p) :
    Assembles im seen (ts ++ us) p := by
  induction ts with
  | nil => exact h
  | cons t ts ih =>
      obtain ⟨ht, hts⟩ := List.forall_mem_cons.mp hts
      exact .semicolon ht (ih hts)

theorem Assembles.headKind_ne_else {ts : List Token} {p : List (Stmt Unit)}
    (h : Assembles im seen ts p) : headKind ts ≠ .elseWord := by
  cases h with
  | finish => simp [headKind]
  | semicolon hk => simp [headKind, hk]
  | again hwords | first hwords => simp [headKind, hwords.word]
  | @declaration _ _ _ us _ _ h =>
      intro heq
      have hbegin := h.begins.headKind us
      rw [heq] at hbegin
      exact absurd hbegin (by decide)

/-! ## A parse without a fault is a derivation -/

/-- An import that left no fault was skipped, or its file was put in. -/
theorem Importer.Outcome.assembles {path word semicolon : Token} {name : String}
    {s₁ s₂ : ParseState} {seen₂ : List AbsPath} {p : List (Stmt Unit)}
    (h : im.Outcome path (im.base.follow name) seen s₁ (.ok (s₂, seen₂)))
    (hwords : ImportWords word path semicolon) (hname : path.literal = .text name)
    (hclean : s₂.faults = []) (hrest : Assembles im seen₂ s₂.ahead p) :
    Assembles im seen (word :: path :: semicolon :: s₁.ahead) p := by
  cases h with
  | skipped hseen hm _ =>
      rw [← List.nil_append s₂.ahead, ← hm.ahead] at hrest
      exact .again hwords hname hseen hrest
  | spliced hseen htokens hm _ =>
      rw [← List.nil_append s₂.ahead, ← hm.ahead] at hrest
      exact .first hwords hname hseen htokens hrest
  | failed _ _ _ _ hreasons hfaults =>
      rw [hclean] at hfaults
      exact absurd (List.map_eq_nil_iff.mp (List.append_eq_nil_iff.mp hfaults.symm).2) hreasons

theorem Parse.program_assembles (hlimit : limit.reachedBy 0 = some false) (n : Nat)
    (hs : s.finish.kind = .eof) (hhalt : (program im limit n seen s).halt = none)
    (hfaults : (program im limit n seen s).state.faults = []) :
    Assembles im seen s.ahead (program im limit n seen s).program := by
  induction n generalizing seen s with
  | zero => cases hhalt
  | succ n ih =>
      obtain ⟨r, hround, hr⟩ := program_round im limit seen hs
      rw [hr n] at hhalt hfaults ⊢
      -- The end without a fault is one of every round before.
      have hclean : ∀ {seen₂ s₂}, s₂.finish.kind = .eof →
          (program im limit n seen₂ s₂).state.faults = [] → s₂.faults = [] :=
        fun hs₂ h => List.prefix_nil.mp (h ▸ program_faults im limit n _ hs₂)
      cases hround with
      | unordered | halts => cases hhalt
      | ends hsemi hm hend =>
          rw [hm.ahead, hend]
          exact .semicolons hsemi .finish
      | stops _ _ hreached =>
          simp only at hfaults
          rw [hfaults, List.length_nil, hlimit] at hreached
          cases hreached
      | broken _ _ hm hlt =>
          rw [hclean (hm.finish ▸ hs) hfaults] at hlt
          exact absurd hlt (Nat.not_lt_zero _)
      | imports hsemi hwords hm hf hrun =>
          obtain ⟨name, hname, houtcome⟩ := Importer.run_eq_ok hrun
          have hs₂ := houtcome.kept.1.trans hm.finish ▸ hs
          rw [hm.ahead, List.append_assoc]
          exact .semicolons hsemi
            (houtcome.assembles hwords hname (hclean hs₂ hfaults) (ih hs₂ hhalt hfaults))
      | @declares _ s₁ s₂ _ hsemi hm _ hf hd =>
          have hs₁ : s₁.finish.kind = .eof := hm.finish ▸ hs
          obtain ⟨us, hm₂, _, hderive⟩ := readsAt_ok hd (topDeclaration_reads s₁ hs₁)
          have hs₂ : s₂.finish.kind = .eof := hm₂.finish ▸ hs₁
          have hc₂ := hclean hs₂ hfaults
          obtain ⟨stmt, rfl, isOpen, hstmt, _⟩ := hderive (hc₂.trans (hm₂.faults_nil hc₂).symm)
          rw [hm.ahead, hm₂.ahead]
          exact .semicolons hsemi (.declaration hstmt (ih hs₂ hhalt hfaults))

/-! ## A derivation is what a parse finds -/

/-- No fault was found so far, and these tokens come before the end of the input. -/
structure ParseState.CleanAt (s : ParseState) (ts : List Token) : Prop where
  ahead : s.ahead = ts
  finish : s.finish.kind = .eof
  faults : s.faults = []

theorem Importer.not_garbled {path : AbsPath} {us : List Token} {e : EncodingError}
    (h : im.tokens? path = some us) : ¬ im.Garbled path e := by
  rintro ⟨bytes, hentry, htext⟩
  obtain ⟨bytes', text, hentry', htext', _⟩ := tokens?_eq_some h
  rw [hentry] at hentry'
  cases hentry'
  rw [htext] at htext'
  cases htext'

namespace Parse

section

variable {word path semicolon : Token} {name : String} {ts us : List Token}

theorem program_again (hlimit : limit.reachedBy 0 = some false)
    (hwords : ImportWords word path semicolon) (hname : path.literal = .text name)
    (hseen : im.base.follow name ∈ seen) (hs : s.CleanAt (word :: path :: semicolon :: ts)) :
    ∃ s', s'.CleanAt ts ∧ ∀ n, program im limit (n + 1) seen s = program im limit n seen s' := by
  have hlimit' : limit.reachedBy s.faults.length = some false := by rwa [hs.faults]
  obtain ⟨s₁, hm, hfaults, hcontained⟩ : ∃ s₁, s.Moves [word, path, semicolon] s₁ ∧
      s₁.faults = s.faults ∧ ImportContained im limit seen s path (im.base.follow name) s₁ :=
    program_import hs.ahead hwords hname hlimit'
  have hrest : s₁.ahead = ts := hm.ahead_eq hs.ahead
  cases hcontained with
  | garbled hseen' => exact absurd hseen hseen'
  | @goesOn s₂ _ houtcome _ hnext =>
      cases houtcome with
      | spliced hseen' | failed hseen' => exact absurd hseen hseen'
      | skipped _ hm₂ hfaults₂ =>
          refine ⟨s₂, ⟨hm₂.ahead_eq hrest, ?_, ?_⟩, hnext⟩
          · rw [hm₂.finish, hm.finish]
            exact hs.finish
          · rw [hfaults₂, hfaults, hs.faults]

theorem program_first (hlimit : limit.reachedBy 0 = some false)
    (hwords : ImportWords word path semicolon) (hname : path.literal = .text name)
    (hseen : im.base.follow name ∉ seen) (htokens : im.tokens? (im.base.follow name) = some us)
    (hs : s.CleanAt (word :: path :: semicolon :: ts)) :
    ∃ s', s'.CleanAt (us ++ ts) ∧ ∀ n, program im limit (n + 1) seen s =
      program im limit n (seen ++ [im.base.follow name]) s' := by
  have hlimit' : limit.reachedBy s.faults.length = some false := by rwa [hs.faults]
  obtain ⟨s₁, hm, hfaults, hcontained⟩ : ∃ s₁, s.Moves [word, path, semicolon] s₁ ∧
      s₁.faults = s.faults ∧ ImportContained im limit seen s path (im.base.follow name) s₁ :=
    program_import hs.ahead hwords hname hlimit'
  have hrest : s₁.ahead = ts := hm.ahead_eq hs.ahead
  cases hcontained with
  | garbled _ hgarbled => exact absurd hgarbled (Importer.not_garbled htokens)
  | @goesOn s₂ _ houtcome _ hnext =>
      cases houtcome with
      | skipped hseen' => exact absurd hseen' hseen
      | failed _ hnone =>
          rw [htokens] at hnone
          cases hnone
      | spliced _ htokens' hm₂ hfaults₂ =>
          rw [htokens] at htokens'
          cases htokens'
          refine ⟨s₂, ⟨hm₂.ahead_eq (by rw [hrest]; rfl), ?_, ?_⟩, hnext⟩
          · rw [hm₂.finish]
            exact hm.finish ▸ hs.finish
          · rw [hfaults₂, hfaults, hs.faults]

end

/-- A program that can be derived is read as the tree of its derivation. -/
theorem program_gives_assembled (hlimit : limit.reachedBy 0 = some false) {ts : List Token}
    {p : List (Stmt Unit)} (h : Assembles im seen ts p) (n : Nat) (hs : s.CleanAt ts)
    (hn : ts.length + im.unread seen < n) : (program im limit n seen s).Gives p := by
  induction h generalizing n s with
  | finish =>
      obtain ⟨n, rfl⟩ : ∃ k, n = k + 1 := ⟨n - 1, by omega⟩
      rw [program, skipSemicolons_of_ne (by simp [hs.ahead, headKind])]
      simp only [hs.ahead]
      exact ⟨rfl, hs.faults, rfl⟩
  | semicolon hk _ ih =>
      obtain ⟨n, rfl⟩ : ∃ k, n = k + 1 := ⟨n - 1, by omega⟩
      rw [← program_advance hs.ahead hk]
      rw [List.length_cons] at hn
      exact ih (n + 1) ⟨ahead_advance hs.ahead, hs.finish, hs.faults⟩ (by omega)
  | @declaration _ seen ts us stmt p hd hp ih =>
      obtain ⟨t, vs, hts, hbegin⟩ := hd.begins
      have hcons : s.ahead = t :: (vs ++ us) := by rw [hs.ahead, hts]; rfl
      have hsemi : headKind s.ahead ≠ .semicolon := by
        rw [hcons, headKind]
        exact fun hk => absurd (hk ▸ hbegin) (by decide)
      have himport : t.kind ≠ .importWord := fun hk => absurd (hk ▸ hbegin) (by decide)
      obtain ⟨s', hm, hf, heq⟩ := topDeclaration_eq_ok hd hs.finish hs.ahead hp.headKind_ne_else
      have hpos : 0 < ts.length := by rw [hts]; exact Nat.succ_pos _
      rw [List.length_append] at hn
      obtain ⟨n, rfl⟩ : ∃ k, n = k + 1 := ⟨n - 1, by omega⟩
      have hclean : s'.CleanAt us :=
        ⟨hm.ahead_eq hs.ahead, hm.finish ▸ hs.finish, hf.trans hs.faults⟩
      obtain ⟨hhalt, hfaults, hprogram⟩ := ih n hclean (by omega)
      rw [program, skipSemicolons_of_ne hsemi]
      simp only [hcons, hs.faults, List.length_nil, hlimit, if_neg himport, heq]
      exact ⟨hhalt, hfaults, congrArg (stmt :: ·) hprogram⟩
  | again hwords hname hseen _ ih =>
      simp only [List.length_cons] at hn
      obtain ⟨n, rfl⟩ : ∃ k, n = k + 1 := ⟨n - 1, by omega⟩
      obtain ⟨s', hs', hnext⟩ := program_again hlimit hwords hname hseen hs
      rw [hnext n]
      exact ih n hs' (by omega)
  | first hwords hname hseen htokens _ ih =>
      have hunread := Importer.unread_append hseen htokens
      simp only [List.length_cons] at hn
      obtain ⟨n, rfl⟩ : ∃ k, n = k + 1 := ⟨n - 1, by omega⟩
      obtain ⟨s', hs', hnext⟩ := program_first hlimit hwords hname hseen htokens hs
      rw [hnext n]
      exact ih n hs' (by rw [List.length_append]; omega)

end Parse

/-- A parse gives a program without a fault exactly if its tokens and the files of its imports
assemble to it. -/
theorem parseProgram_gives_iff {name : Option String} {ts : List Token} {eof : Token}
    {p : List (Stmt Unit)} (hlimit : limit.reachedBy 0 = some false)
    (hts : ∀ t ∈ ts, t.kind ≠ .eof) (hk : eof.kind = .eof) :
    (parseProgram im limit (ts ++ [eof]) name).Gives p ↔ Assembles im [] ts p := by
  obtain ⟨hahead, hfinish⟩ := ofTokens_ended hts hk
  obtain ⟨_, hstate, hhalt⟩ := parseProgram_state im limit (ts ++ [eof]) name
  generalize hr : Parse.program im limit (im.supply (ts ++ [eof]) + 1) []
    (ofTokens (ts ++ [eof])) = r at hstate hhalt
  constructor
  · rintro ⟨hhalt', hfaults, rfl⟩
    have hnone : r.halt = none := hhalt.symm.trans hhalt'
    have hclean : r.state.faults = [] := by
      rw [ParseResult.faults, hstate] at hfaults
      exact hfaults
    rw [(parseProgram_of_halt_none name hr hnone).2.1]
    subst hr
    have hassembles := program_assembles hlimit _ (ofTokens_finish (ts ++ [eof])) hnone hclean
    rwa [hahead] at hassembles
  · intro h
    have hs : (ofTokens (ts ++ [eof])).CleanAt ts := ⟨hahead, by rw [hfinish, hk], rfl⟩
    have hbudget : ts.length + im.unread [] < im.supply (ts ++ [eof]) + 1 := by
      rw [Importer.supply_eq, List.length_append]
      omega
    obtain ⟨hnone, hfaults, hprogram⟩ := hr ▸ program_gives_assembled hlimit h _ hs hbudget
    obtain ⟨hnone', hprogram', hfaults', _⟩ := parseProgram_of_halt_none name hr hnone
    exact ⟨hnone', hfaults'.trans hfaults, hprogram'.trans hprogram⟩

end Lox
