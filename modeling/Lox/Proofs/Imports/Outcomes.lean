import Lox.Proofs.Parsing.Program

/-!
# What an import can do

An import names a path. If the path was met before, nothing happens. If the file there can
be opened, is text, and is scanned without a fault, its tokens come in front of what is still
ahead. Otherwise the import is a fault at the token of the path, or several, and the parse
goes on as if it were not there.

There is one exception. A file that can be opened but is not text ends the parse.
-/

namespace Lox

/-- What can be opened is one of the files. -/
theorem Files.lookup_of_entry {f : Files} {names : List String} {bytes : List UInt8}
    (h : f.entry names = .file bytes) : f.contents.lookup names = some bytes := by
  rw [entry] at h
  split at h
  · next hlookup =>
      cases h
      exact hlookup
  · cases h
  · split at h <;> cases h

namespace Importer

/-- The tokens that an import of the path stands for, if the file there can be imported. -/
def tokens? (im : Importer) (path : AbsPath) : Option (List Token) :=
  match im.files.entry path.names with
  | .file bytes =>
    match decodeUtf8 bytes with
    | .ok text =>
      let found := scan (unifyNewlines text)
      if found.faults.isEmpty then some found.tokens.dropLast else none
    | .error _ => none
  | _ => none

/-- The file at the path can be opened, but it is not text. -/
def Garbled (im : Importer) (path : AbsPath) (e : EncodingError) : Prop :=
  ∃ bytes, im.files.entry path.names = .file bytes ∧ decodeUtf8 bytes = .error e

/-- What the import of a path can do: to the state of the parse, and to the paths that
were imported before. -/
inductive Outcome (im : Importer) (t : Token) (path : AbsPath) (seen : List AbsPath)
    (s : ParseState) : Except Halt (ParseState × List AbsPath) → Prop
  | skipped {s' : ParseState} :
      path ∈ seen → s.Moves [] s' → s'.faults = s.faults → Outcome im t path seen s (.ok (s', seen))
  | spliced {s' : ParseState} {ts : List Token} :
      path ∉ seen → im.tokens? path = some ts → ({ s with ahead := ts ++ s.ahead }).Moves [] s' →
      s'.faults = s.faults → Outcome im t path seen s (.ok (s', seen ++ [path]))
  | failed {s' : ParseState} {reasons : List String} :
      path ∉ seen → im.tokens? path = none → (∀ e, ¬ im.Garbled path e) → s.Moves [] s' →
      reasons ≠ [] → s'.faults = s.faults ++ reasons.map (.importFailed t) →
      Outcome im t path seen s (.ok (s', seen))
  | garbled {e : EncodingError} :
      path ∉ seen → im.Garbled path e → Outcome im t path seen s (.error (.undecodable e))

variable {im : Importer} {t : Token} {path : AbsPath} {seen : List AbsPath} {s : ParseState}
  {ts : List Token}

/-- Tokens of a file are those of a clean scan of its text, without the end of the input. -/
theorem tokens?_eq_some (h : im.tokens? path = some ts) :
    ∃ bytes text, im.files.entry path.names = .file bytes ∧ decodeUtf8 bytes = .ok text ∧
      (scan (unifyNewlines text)).faults = [] ∧
      ts = (scan (unifyNewlines text)).tokens.dropLast := by
  rw [tokens?] at h
  split at h
  · next bytes hentry =>
      split at h
      · next text htext =>
          dsimp only at h
          split at h
          · next hclean =>
              cases h
              exact ⟨bytes, text, hentry, htext, List.isEmpty_iff.mp hclean, rfl⟩
          · cases h
      · cases h
  · cases h

/-- A file that cannot be opened is a fault of its own. -/
theorem outcome_unopened (hseen : path ∉ seen)
    (hentry : ∀ bytes, im.files.entry path.names ≠ .file bytes) (reason : String) :
    im.Outcome t path seen s (.ok (s.record (.importFailed t reason), seen)) := by
  have hnone : im.tokens? path = none := by
    rw [tokens?]
    split
    · next bytes h => exact absurd h (hentry bytes)
    · rfl
  have hopen : ∀ e, ¬ im.Garbled path e := fun e ⟨bytes, h, _⟩ => hentry bytes h
  exact .failed hseen hnone hopen (ParseState.moves_record s _) (List.cons_ne_nil reason []) rfl

/-- Faults that are reported one after the other. -/
theorem foldl_record {α : Type} (report : α → SyntaxFault) (l : List α) (s : ParseState) :
    l.foldl (fun s a => s.record (report a)) s =
      { s with faults := s.faults ++ l.map report } := by
  induction l generalizing s with
  | nil => simp
  | cons a l ih =>
      rw [List.foldl_cons, ih, ParseState.record, List.append_assoc]
      rfl

theorem load_outcome (hseen : path ∉ seen) :
    im.Outcome t path seen s (im.load t path seen s) := by
  rw [load]
  dsimp only
  split
  · next hentry => exact outcome_unopened hseen (by simp [hentry]) _
  · next hentry => exact outcome_unopened hseen (by simp [hentry]) _
  · next hentry => exact outcome_unopened hseen (by simp [hentry]) _
  · next bytes hentry =>
      split
      · next e htext => exact .garbled hseen ⟨bytes, hentry, htext⟩
      · next text htext =>
          split
          · next hclean =>
              have htokens :
                  im.tokens? path = some (scan (unifyNewlines text)).tokens.dropLast := by
                simp only [tokens?, hentry, htext, if_pos hclean]
              exact .spliced hseen htokens ⟨rfl, rfl, rfl, List.prefix_rfl⟩ rfl
          · next hfaults =>
              have htokens : im.tokens? path = none := by
                simp only [tokens?, hentry, htext, if_neg hfaults]
              have hopen : ∀ e, ¬ im.Garbled path e := by
                rintro e ⟨bytes', hentry', htext'⟩
                rw [hentry] at hentry'
                cases hentry'
                rw [htext] at htext'
                cases htext'
              have hreasons : (scan (unifyNewlines text)).faults.map (fun f =>
                  "'" ++ path.text ++ "'" ++ " [line " ++ toString f.2 ++ "]: " ++ f.1.message) ≠
                  [] := fun h => hfaults (List.isEmpty_iff.mpr (List.map_eq_nil_iff.mp h))
              rw [foldl_record]
              refine .failed hseen htokens hopen ⟨rfl, rfl, rfl, List.prefix_append _ _⟩ hreasons ?_
              rw [List.map_map]
              rfl

theorem run_outcome {name : String} (hname : t.literal = .text name) :
    im.Outcome t (im.base.follow name) seen s (im.run t seen s) := by
  rw [run, hname]
  dsimp only
  split
  · next hseen =>
      exact .skipped (List.contains_iff_mem.mp hseen) ⟨rfl, rfl, rfl, List.prefix_rfl⟩ rfl
  · next hseen => exact load_outcome fun h => hseen (List.contains_iff_mem.mpr h)

/-- No import drops a fault or moves the end of the input. -/
theorem Outcome.kept {s' : ParseState} {seen' : List AbsPath}
    (h : im.Outcome t path seen s (.ok (s', seen'))) :
    s'.finish = s.finish ∧ s.faults <+: s'.faults := by
  cases h with
  | skipped _ hm _ | failed _ _ _ hm _ _ => exact ⟨hm.finish, hm.faults⟩
  | spliced _ _ hm _ => exact ⟨hm.finish, hm.faults⟩

/-- The parse goes on after an import only if its path is a text. -/
theorem run_eq_ok {next : ParseState × List AbsPath} (h : im.run t seen s = .ok next) :
    ∃ name, t.literal = .text name ∧ im.Outcome t (im.base.follow name) seen s (.ok next) := by
  cases hname : t.literal with
  | text name => exact ⟨name, rfl, h ▸ run_outcome hname⟩
  | _ =>
      rw [run, hname] at h
      cases h

/-- An import ends the parse only over a file that is not text, or if the token of its path
is none of a scan. -/
theorem run_eq_error {halt : Halt} (h : im.run t seen s = .error halt) :
    (∃ path e, im.Garbled path e ∧ halt = .undecodable e) ∨
      (∀ name, t.literal ≠ .text name) ∧ halt = .pathNotText := by
  cases hname : t.literal with
  | text name =>
      have houtcome : im.Outcome t (im.base.follow name) seen s (im.run t seen s) :=
        run_outcome hname
      rw [h] at houtcome
      cases houtcome with
      | garbled _ hgarbled => exact .inl ⟨_, _, hgarbled, rfl⟩
  | _ =>
      rw [run, hname] at h
      cases h
      exact .inr ⟨by simp, rfl⟩

end Importer
end Lox
