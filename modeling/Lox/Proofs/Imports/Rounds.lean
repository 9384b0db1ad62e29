import Lox.Proofs.Imports.Outcomes

/-!
# The rounds of a parse

A program is parsed in rounds. A round skips stray semicolons and then ends the parse, reads
one import, or reads one declaration. `program_round` lists what a round can do; what is
true of a whole parse follows from it by induction on the budget.

There are tokens enough for every parse. What is left to read is bounded by the tokens ahead
and by the bytes of the files that were not imported: a file gives at most one token for each
of its bytes, and it can be met under two paths, one below either root. Taking a token leaves
less to read, and importing a file leaves no more than there was.
-/

namespace Lox

namespace Parse

open ParseState

variable {α β : Type} {im : Importer} {limit : ErrorLimit} {seen : List AbsPath}
  {s s' : ParseState}

/-! ## What is between an import and its semicolon -/

theorem bind_eq_ok {p : Parse α} {f : α → Parse β} {b : β} (h : (p >>= f) s = .ok b s') :
    ∃ a s₁, p s = .ok a s₁ ∧ f a s₁ = .ok b s' := by
  rw [bind_apply] at h
  split at h
  · next a s₁ hp => exact ⟨a, s₁, hp, h⟩
  · cases h
  · cases h

theorem expect_eq_ok {kind : TokenKind} {message : String} {t : Token}
    (h : expect kind message s = .ok t s') :
    t.kind = kind ∧ s.Moves [t] s' ∧ s'.faults = s.faults := by
  rw [expect_eq] at h
  obtain ⟨r, s₁, hr, h⟩ := bind_eq_ok h
  rw [accept, acceptIf] at hr
  split at hr
  · next u rest ha =>
      split at hr
      · next hk =>
          cases hr
          cases h
          exact ⟨by simpa using hk, moves_advance ha, rfl⟩
      · cases hr
        cases h
  · cases hr
    cases h

/-- The path of an import and its semicolon. -/
theorem importPath_eq_ok {path : Token} (h : importPath s = .ok path s') :
    path.kind = .string ∧
      ∃ semicolon : Token, semicolon.kind = .semicolon ∧ s.Moves [path, semicolon] s' ∧
        s'.faults = s.faults := by
  obtain ⟨t, s₁, ht, h⟩ := bind_eq_ok h
  obtain ⟨semicolon, s₂, hsemicolon, h⟩ := bind_eq_ok h
  cases h
  obtain ⟨hk, hm, hf⟩ := expect_eq_ok ht
  obtain ⟨hk', hm', hf'⟩ := expect_eq_ok hsemicolon
  exact ⟨hk, semicolon, hk', hm.trans hm', hf'.trans hf⟩

theorem importPath_reads (s : ParseState) :
    ReadsAt True 1 (fun _ _ _ => True) s importPath :=
  readsAt_expect_bind fun _ _ _ _ => readsAt_expect_bind fun _ _ _ _ => readsAt_pure trivial

/-! ## Rounds -/

/-- The declaration of an import, as it stands in front of what follows it. -/
structure ImportWords (word path semicolon : Token) : Prop where
  word : word.kind = .importWord
  path : path.kind = .string
  semicolon : semicolon.kind = .semicolon

/-- What a round of a parse can do, given the budget of those after it. From `s` it goes over
some semicolons `ts` to `s₁`. -/
inductive Round (im : Importer) (limit : ErrorLimit) (seen : List AbsPath) (s : ParseState) :
    (Nat → ParseResult) → Prop
  | ends {ts : List Token} {s₁ : ParseState} :
      (∀ t ∈ ts, t.kind = .semicolon) → s.Moves ts s₁ → s₁.ahead = [] →
      Round im limit seen s fun _ => ⟨[], seen, s₁, none⟩
  | stops {ts : List Token} {s₁ : ParseState} :
      (∀ t ∈ ts, t.kind = .semicolon) → s.Moves ts s₁ →
      limit.reachedBy s₁.faults.length = some true →
      Round im limit seen s fun _ => ⟨[], seen, s₁, none⟩
  | unordered {ts : List Token} {s₁ : ParseState} :
      (∀ t ∈ ts, t.kind = .semicolon) → s.Moves ts s₁ →
      limit.reachedBy s₁.faults.length = none →
      Round im limit seen s fun _ => ⟨[], seen, s₁, some .unorderedLimit⟩
  | imports {ts : List Token} {word path semicolon : Token} {s₁ s₂ : ParseState}
      {seen₂ : List AbsPath} :
      (∀ t ∈ ts, t.kind = .semicolon) → ImportWords word path semicolon →
      s.Moves (ts ++ [word, path, semicolon]) s₁ → s₁.faults = s.faults →
      im.run path seen s₁ = .ok (s₂, seen₂) →
      Round im limit seen s fun n => program im limit n seen₂ s₂
  | halts {ts : List Token} {word path semicolon : Token} {s₁ : ParseState} {halt : Halt} :
      (∀ t ∈ ts, t.kind = .semicolon) → ImportWords word path semicolon →
      s.Moves (ts ++ [word, path, semicolon]) s₁ → s₁.faults = s.faults →
      im.run path seen s₁ = .error halt →
      Round im limit seen s fun _ => ⟨[], seen, s₁, some halt⟩
  | broken {ts us : List Token} {word : Token} {s₁ : ParseState} :
      (∀ t ∈ ts, t.kind = .semicolon) → word.kind = .importWord →
      s.Moves (ts ++ word :: us) s₁ → s.faults.length < s₁.faults.length →
      Round im limit seen s fun n => program im limit n seen s₁
  | declares {ts : List Token} {s₁ s₂ : ParseState} {stmt : Option (Stmt Unit)} :
      (∀ t ∈ ts, t.kind = .semicolon) → s.Moves ts s₁ → s₁.ahead ≠ [] →
      s₁.faults = s.faults → topDeclaration s₁ = .ok stmt s₂ →
      Round im limit seen s fun n =>
        { program im limit n seen s₂ with
          program := stmt.toList ++ (program im limit n seen s₂).program }

theorem program_round (im : Importer) (limit : ErrorLimit) (seen : List AbsPath)
    (hs : s.finish.kind = .eof) :
    ∃ r, Round im limit seen s r ∧ ∀ n, program im limit (n + 1) seen s = r n := by
  have hm := moves_skipSemicolons s
  have hsemi : ∀ t ∈ s.ahead.takeWhile (·.kind == .semicolon), t.kind = .semicolon :=
    fun t ht => by simpa using List.all_eq_true.mp List.all_takeWhile t ht
  have hfaults : (skipSemicolons s).faults = s.faults := rfl
  simp only [program]
  generalize s.ahead.takeWhile (·.kind == .semicolon) = ts at hm hsemi
  generalize skipSemicolons s = s₁ at hm hfaults
  have hs₁ : s₁.finish.kind = .eof := hm.finish ▸ hs
  cases ha : s₁.ahead with
  | nil => exact ⟨_, .ends hsemi hm ha, fun _ => rfl⟩
  | cons t rest =>
      cases hlimit : limit.reachedBy s₁.faults.length with
      | none => exact ⟨_, .unordered hsemi hm hlimit, fun _ => rfl⟩
      | some reached =>
          cases reached with
          | true => exact ⟨_, .stops hsemi hm hlimit, fun _ => rfl⟩
          | false =>
              simp only []
              by_cases hk : t.kind = .importWord
              · simp only [if_pos hk]
                have hm₁ := hm.trans (moves_advance ha)
                cases hp : importPath s₁.advance with
                | ok path s₂ =>
                    obtain ⟨hpath, semicolon, hsemicolon, hm₂, hf₂⟩ := importPath_eq_ok hp
                    have hall := hm₁.trans hm₂
                    rw [List.append_assoc] at hall
                    have hf := hf₂.trans hfaults
                    simp only [rescue, hp]
                    cases hrun : im.run path seen s₂ with
                    | ok next =>
                        exact ⟨_, .imports hsemi ⟨hk, hpath, hsemicolon⟩ hall hf hrun, fun _ => rfl⟩
                    | error halt =>
                        exact ⟨_, .halts hsemi ⟨hk, hpath, hsemicolon⟩ hall hf hrun, fun _ => rfl⟩
                | failed s₂ =>
                    obtain ⟨⟨us, hm₂⟩, hlt⟩ := readsAt_failed hp (importPath_reads s₁.advance)
                    obtain ⟨vs, s₃, heq, hm₃, _⟩ := rescue_of_failed hp
                    have hall := hm₁.trans (hm₂.trans hm₃)
                    rw [List.append_assoc] at hall
                    simp only [heq]
                    refine ⟨_, .broken hsemi hk hall ?_, fun _ => rfl⟩
                    rw [← hfaults]
                    exact Nat.lt_of_lt_of_le hlt hm₃.faults.length_le
                | spent s₂ => exact absurd trivial (readsAt_spent hp (importPath_reads s₁.advance))
              · simp only [if_neg hk]
                cases hd : topDeclaration s₁ with
                | ok stmt s₂ =>
                    refine ⟨_, .declares hsemi hm ?_ hfaults hd, fun _ => rfl⟩
                    rw [ha]
                    exact List.cons_ne_nil t rest
                | failed s₂ => exact absurd hd (topDeclaration_ne_failed s₁ s₂)
                | spent s₂ => exact absurd trivial (readsAt_spent hd (topDeclaration_reads s₁ hs₁))

/-- Faults are never dropped. -/
theorem program_faults (im : Importer) (limit : ErrorLimit) (n : Nat) (seen : List AbsPath)
    (hs : s.finish.kind = .eof) : s.faults <+: (program im limit n seen s).state.faults := by
  induction n generalizing s seen with
  | zero => exact List.prefix_rfl
  | succ n ih =>
      obtain ⟨r, hround, hr⟩ := program_round im limit seen hs
      rw [hr n]
      cases hround with
      | ends _ hm | stops _ hm | unordered _ hm | halts _ _ hm => exact hm.faults
      | broken _ _ hm => exact hm.faults.trans (ih seen (hm.finish ▸ hs))
      | imports _ _ hm _ hrun =>
          obtain ⟨_, _, houtcome⟩ := Importer.run_eq_ok hrun
          obtain ⟨hfinish, hfaults⟩ := houtcome.kept
          exact (hm.faults.trans hfaults).trans (ih _ (hfinish ▸ hm.finish ▸ hs))
      | @declares _ s₁ _ _ _ hm _ _ hd =>
          have hs₁ : s₁.finish.kind = .eof := hm.finish ▸ hs
          obtain ⟨_, hm', _⟩ := readsAt_ok hd (topDeclaration_reads s₁ hs₁)
          exact (hm.faults.trans hm'.faults).trans (ih seen (hm'.finish ▸ hs₁))

end Parse

/-! ## A token takes at least one byte -/

theorem Piece.length_cut_le (n : Nat) (text : List Char) : (Piece.cut n text).length ≤ n := by
  induction n generalizing text with
  | zero => exact Nat.le_refl 0
  | succ n ih =>
      cases text with
      | nil => exact Nat.zero_le _
      | cons c rest => exact Nat.succ_le_succ (ih _)

theorem Piece.length_place (p : Position) (ps : List Piece) :
    (Piece.place p ps).length = ps.length := by
  induction ps generalizing p with
  | nil => rfl
  | cons piece ps ih => exact congrArg (· + 1) (ih _)

theorem length_scan_le (text : List Char) : (scan text).tokens.dropLast.length ≤ text.length := by
  rw [scan, List.dropLast_concat]
  calc _ ≤ (Piece.place {} (pieces text)).length := List.length_filterMap_le _ _
    _ = (pieces text).length := Piece.length_place _ _
    _ ≤ text.length := Piece.length_cut_le _ _

theorem length_unifyNewlines_le (text : List Char) : (unifyNewlines text).length ≤ text.length := by
  fun_induction unifyNewlines text with
  | case1 => exact Nat.le_refl 0
  | case2 rest ih =>
      simp only [List.length_cons]
      omega
  | case3 c rest _ ih => exact Nat.succ_le_succ ih

theorem Utf8.length_decode_le {position n : Nat} {bytes : List UInt8} {text : List Char}
    (h : Utf8.decode position n bytes = .ok text) : text.length ≤ n := by
  induction n generalizing position bytes text with
  | zero =>
      cases h
      exact Nat.le_refl 0
  | succ n ih =>
      have hcons : ∀ {p rest c}, (do let cs ← Utf8.decode p n rest; return c :: cs) =
          (Except.ok text : Except EncodingError (List Char)) → text.length ≤ n + 1 := by
        intro p rest c h
        cases hd : Utf8.decode p n rest with
        | error e =>
            rw [hd] at h
            cases h
        | ok cs =>
            rw [hd] at h
            cases h
            exact Nat.succ_le_succ (ih hd)
      cases bytes with
      | nil =>
          cases h
          exact Nat.zero_le _
      | cons b rest =>
          rw [Utf8.decode] at h
          split at h
          · exact hcons h
          · split at h
            · cases h
            · split at h
              · cases h
              · exact hcons h

namespace Importer

variable {im : Importer} {path : AbsPath} {seen : List AbsPath} {ts : List Token}

/-- A file that can be imported has at least as many bytes as tokens. -/
theorem length_tokens_le (h : im.tokens? path = some ts) :
    ∃ bytes, im.files.contents.lookup path.names = some bytes ∧ ts.length ≤ bytes.length := by
  obtain ⟨bytes, text, hentry, htext, _, rfl⟩ := tokens?_eq_some h
  refine ⟨bytes, Files.lookup_of_entry hentry, ?_⟩
  calc (scan (unifyNewlines text)).tokens.dropLast.length
      ≤ (unifyNewlines text).length := length_scan_le _
    _ ≤ text.length := length_unifyNewlines_le _
    _ ≤ bytes.length := Utf8.length_decode_le htext

/-! ## What is left to import -/

/-- The bytes of the paths that were not imported, for some of the files. -/
def unreadOf (seen : List AbsPath) : List (List String × List UInt8) → Nat
  | [] => 0
  | (names, bytes) :: contents =>
    (if ⟨names, false⟩ ∈ seen then 0 else bytes.length) +
      (if ⟨names, true⟩ ∈ seen then 0 else bytes.length) + unreadOf seen contents

/-- The bytes that there are left to import. -/
def unread (im : Importer) (seen : List AbsPath) : Nat :=
  unreadOf seen im.files.contents

/-- A path that was met counts for nothing from then on. -/
theorem due_append_le (seen : List AbsPath) (path p : AbsPath) (n : Nat) :
    (if p ∈ seen ++ [path] then 0 else n) ≤ if p ∈ seen then 0 else n := by
  by_cases h : p ∈ seen
  · rw [if_pos (List.mem_append_left _ h)]
    exact Nat.zero_le _
  · rw [if_neg h]
    split <;> omega

theorem unreadOf_append_le (seen : List AbsPath) (path : AbsPath)
    (contents : List (List String × List UInt8)) :
    unreadOf (seen ++ [path]) contents ≤ unreadOf seen contents := by
  induction contents with
  | nil => exact Nat.le_refl _
  | cons file contents ih =>
      obtain ⟨names, bytes⟩ := file
      rw [unreadOf, unreadOf]
      have h₁ := due_append_le seen path ⟨names, false⟩ bytes.length
      have h₂ := due_append_le seen path ⟨names, true⟩ bytes.length
      omega

theorem unreadOf_append_of_lookup {bytes : List UInt8}
    {contents : List (List String × List UInt8)} (hseen : path ∉ seen)
    (h : contents.lookup path.names = some bytes) :
    unreadOf (seen ++ [path]) contents + bytes.length ≤ unreadOf seen contents := by
  induction contents with
  | nil => cases h
  | cons file contents ih =>
      obtain ⟨names, bytes'⟩ := file
      have h₁ := due_append_le seen path ⟨names, false⟩ bytes'.length
      have h₂ := due_append_le seen path ⟨names, true⟩ bytes'.length
      rw [unreadOf, unreadOf]
      rw [List.lookup_cons] at h
      split at h
      · next hnames =>
          cases h
          have hrest := unreadOf_append_le seen path contents
          have hmem : path ∈ seen ++ [path] := List.mem_append_right _ List.mem_cons_self
          obtain ⟨pathNames, doubled⟩ := path
          cases (beq_iff_eq.mp hnames : pathNames = names)
          cases doubled with
          | false =>
              rw [if_pos hmem, if_neg hseen]
              omega
          | true =>
              rw [if_pos hmem, if_neg hseen] at h₂ ⊢
              omega
      · have := ih h
        omega

/-- Importing a file takes its bytes from what is left to import. -/
theorem unread_append (hseen : path ∉ seen) (h : im.tokens? path = some ts) :
    im.unread (seen ++ [path]) + ts.length ≤ im.unread seen := by
  obtain ⟨bytes, hlookup, hlen⟩ := length_tokens_le h
  have := unreadOf_append_of_lookup hseen hlookup
  rw [unread, unread]
  omega

/-- Each file is due twice, once for each root. -/
theorem foldl_length_eq (contents : List (List String × List UInt8)) (k : Nat) :
    2 * contents.foldl (fun n (_, bytes) => n + bytes.length) k =
      2 * k + unreadOf [] contents := by
  induction contents generalizing k with
  | nil => rfl
  | cons file contents ih =>
      obtain ⟨names, bytes⟩ := file
      rw [List.foldl_cons, ih, unreadOf, if_neg List.not_mem_nil, if_neg List.not_mem_nil]
      dsimp only
      omega

theorem supply_eq (im : Importer) (tokens : List Token) :
    im.supply tokens = tokens.length + im.unread [] := by
  rw [supply, foldl_length_eq, unread]
  omega

end Importer

namespace Parse

open ParseState

variable {im : Importer} {seen seen' : List AbsPath} {s s' : ParseState}

/-! ## What is left to read -/

/-- How much there can be left to read: the tokens ahead, and those of the files that were not
imported. -/
def unreadAt (im : Importer) (seen : List AbsPath) (s : ParseState) : Nat :=
  s.ahead.length + im.unread seen

theorem unreadAt_moves (im : Importer) (seen : List AbsPath) {ts : List Token} (h : s.Moves ts s') :
    unreadAt im seen s' + ts.length = unreadAt im seen s := by
  rw [unreadAt, unreadAt, h.length]
  omega

theorem unreadAt_run {t : Token} (h : im.run t seen s = .ok (s', seen')) :
    unreadAt im seen' s' ≤ unreadAt im seen s := by
  obtain ⟨name, _, houtcome⟩ := Importer.run_eq_ok h
  cases houtcome with
  | skipped _ hm _ | failed _ _ _ hm _ _ =>
      have := unreadAt_moves im seen hm
      omega
  | @spliced _ ts hseen htokens hm _ =>
      have hunread := Importer.unread_append hseen htokens
      have hlen := hm.length
      simp only [List.length_append, List.length_nil] at hlen
      rw [unreadAt, unreadAt]
      omega

end Parse

end Lox
