import Lox.Proofs.Typed.Closings

/-!
# The last semicolon

A semicolon at the end of a program closes a declaration or an import, or it is a stray one. A
stray one can be left out. One that closes something can be replaced by any other; without it,
the tokens that stand for the program are not closed.

Tokens and what stands for them can differ in this: an import ends in a semicolon of its own,
and its file may all the same leave something open.
-/

namespace Lox

open Parse Grammar

variable {im : Importer} {seen seen' : List AbsPath} {ts us out : List Token} {t : Token}
  {p : List (Stmt Unit)}

/-- What a list with a last element begins with is all of it, or the element is behind it. -/
theorem append_eq_concat {α : Type} (before : List α) {rest xs : List α} {x : α}
    (h : before ++ rest = xs ++ [x]) :
    rest = [] ∧ before = xs ++ [x] ∨ ∃ rest', rest = rest' ++ [x] ∧ xs = before ++ rest' := by
  rcases List.eq_nil_or_concat' rest with rfl | ⟨rest, y, rfl⟩
  · exact .inl ⟨rfl, by rwa [List.append_nil] at h⟩
  · rw [← List.append_assoc] at h
    obtain ⟨hxs, hx⟩ := List.append_inj' h rfl
    exact .inr ⟨rest, by rw [List.singleton_inj.mp hx], hxs.symm⟩

theorem triple_eq_concat {α : Type} {xs : List α} {x y z w : α} (h : [x, y, z] = xs ++ [w]) :
    xs = [x, y] ∧ w = z := by
  have hconcat : [x, y] ++ [z] = xs ++ [w] := h
  obtain ⟨hxs, hw⟩ := List.append_inj' hconcat rfl
  exact ⟨hxs.symm, (List.singleton_inj.mp hw).symm⟩

/-- What closes a declaration with a semicolon has the end of a phrase in front of it. -/
theorem Grammar.Closes.phrase {D : List Token → Prop} (h : Closes D (ts ++ [t]))
    (ht : t.kind = .semicolon) :
    ∃ us u, ts = us ++ [u] ∧ u.kind.endsPhrase = true ∧
      ∀ t' : Token, t'.kind = .semicolon → D (ts ++ [t']) := by
  generalize hall : ts ++ [t] = all at h
  cases h with
  | @semicolon us u t' hu _ hd =>
      have hconcat : ts ++ [t] = (us ++ [u]) ++ [t'] := by rw [hall, List.append_assoc]; rfl
      obtain ⟨rfl, -⟩ := List.append_inj' hconcat rfl
      exact ⟨us, u, rfl, hu, fun t'' ht'' => by simpa using hd t'' ht''⟩
  | brace hk =>
      obtain ⟨-, heq⟩ := List.append_inj' hall rfl
      rw [← List.singleton_inj.mp heq, ht] at hk
      cases hk

/-! ## What stands for tokens with imports -/

namespace Expands

section

variable {word path semicolon : Token} {name : String}

theorem of_append (hts : ImportFree ts) (h : Expands im seen (ts ++ us) out seen') :
    ∃ out', out = ts ++ out' ∧ Expands im seen us out' seen' := by
  induction ts generalizing out with
  | nil => exact ⟨out, rfl, h⟩
  | cons t ts ih =>
      obtain ⟨ht, hts⟩ := importFree_cons.mp hts
      rw [List.cons_append] at h
      generalize hall : ts ++ us = all at h
      cases h with
      | again hwords | first hwords => exact absurd hwords.word ht
      | token _ h =>
          obtain ⟨out', rfl, h'⟩ := ih hts (hall ▸ h)
          exact ⟨out', rfl, h'⟩

theorem of_again (hwords : ImportWords word path semicolon) (hname : path.literal = .text name)
    (hseen : im.base.follow name ∈ seen)
    (h : Expands im seen (word :: path :: semicolon :: ts) out seen') :
    Expands im seen ts out seen' := by
  cases h with
  | token hk => exact absurd hwords.word hk
  | again _ _ _ h => exact h
  | first _ hname' hseen' =>
      rw [hname, Constant.text.injEq] at hname'
      exact absurd (hname' ▸ hseen) hseen'

theorem of_first (hwords : ImportWords word path semicolon) (hname : path.literal = .text name)
    (hseen : im.base.follow name ∉ seen) (htokens : im.tokens? (im.base.follow name) = some us)
    (h : Expands im seen (word :: path :: semicolon :: ts) out seen') :
    Expands im (seen ++ [im.base.follow name]) (us ++ ts) out seen' := by
  cases h with
  | token hk => exact absurd hwords.word hk
  | again _ hname' hseen' =>
      rw [hname, Constant.text.injEq] at hname'
      exact absurd (hname' ▸ hseen') hseen
  | first _ hname' _ htokens' h =>
      rw [hname, Constant.text.injEq] at hname'
      subst hname'
      rw [htokens, Option.some.injEq] at htokens'
      exact htokens' ▸ h

end

/-- The last token is kept, unless it is the semicolon of an import. -/
theorem of_concat (ht : t.kind ≠ .semicolon) (h : Expands im seen (ts ++ [t]) out seen') :
    ∃ out', out = out' ++ [t] := by
  generalize hall : ts ++ [t] = all at h
  induction h generalizing ts with
  | nil => simp at hall
  | @token _ _ u _ _ _ h ih =>
      rcases append_eq_concat [u] hall.symm with ⟨rfl, hu⟩ | ⟨rest, rfl, _⟩
      · cases h
        exact ⟨ts, hu⟩
      · obtain ⟨out', rfl⟩ := ih rfl
        exact ⟨u :: out', rfl⟩
  | @again _ _ word path semicolon _ _ _ hwords _ _ _ ih =>
      rcases append_eq_concat [word, path, semicolon] hall.symm with
        ⟨rfl, hu⟩ | ⟨rest, rfl, _⟩
      · obtain ⟨-, rfl⟩ := triple_eq_concat hu
        exact absurd hwords.semicolon ht
      · exact ih rfl
  | @first _ _ word path semicolon _ us _ _ hwords _ _ _ _ ih =>
      rcases append_eq_concat [word, path, semicolon] hall.symm with
        ⟨rfl, hu⟩ | ⟨rest, rfl, _⟩
      · obtain ⟨-, rfl⟩ := triple_eq_concat hu
        exact absurd hwords.semicolon ht
      · exact ih (List.append_assoc _ _ _)

/-- What closes nothing leaves the tokens open, also with the files of the imports. -/
theorem not_closedUnit (ht : t.kind.closesUnit = false)
    (h : Expands im seen (ts ++ [t]) out seen') : ¬ ClosedUnit out := by
  have hk : t.kind ≠ .semicolon := fun hk => by simp [hk, TokenKind.closesUnit] at ht
  obtain ⟨out', rfl⟩ := h.of_concat hk
  rw [ClosedUnit, lastIs_concat, ht]
  exact Bool.false_ne_true

end Expands

/-! ## The last semicolon of a program -/

namespace Assembles

/-- With the files of its imports, a program is closed. -/
theorem expands (h : Assembles im seen ts p) :
    ∃ out paths, Expands im seen ts out paths ∧ ClosedUnit out := by
  induction h with
  | finish => exact ⟨[], _, .nil, lastIs_nil⟩
  | @semicolon _ t _ _ hk _ ih =>
      obtain ⟨out, paths, hexpands, hclosed⟩ := ih
      exact ⟨t :: out, paths, .token (by simp [hk]) hexpands,
        (closedUnit_semicolon hk).append hclosed⟩
  | @declaration _ _ ds _ _ _ hd _ ih =>
      obtain ⟨out, paths, hexpands, hclosed⟩ := ih
      exact ⟨ds ++ out, paths, .append hd.importFree hexpands,
        hd.closes.closedUnit.append hclosed⟩
  | again hwords hname hseen _ ih =>
      obtain ⟨out, paths, hexpands, hclosed⟩ := ih
      exact ⟨out, paths, .again hwords hname hseen hexpands, hclosed⟩
  | first hwords hname hseen htokens _ ih =>
      obtain ⟨out, paths, hexpands, hclosed⟩ := ih
      exact ⟨out, paths, .first hwords hname hseen htokens hexpands, hclosed⟩

theorem concat (h : Assembles im seen ts p) (ht : t.kind = .semicolon) :
    Assembles im seen (ts ++ [t]) p := by
  induction h with
  | finish => exact .semicolon ht .finish
  | semicolon hk _ ih => exact .semicolon hk ih
  | declaration hd _ ih =>
      rw [List.append_assoc]
      exact .declaration hd ih
  | again hwords hname hseen _ ih => exact .again hwords hname hseen ih
  | first hwords hname hseen htokens _ ih =>
      rw [List.append_assoc] at ih
      exact .first hwords hname hseen htokens ih

/-- What the last semicolon of a program is for. -/
inductive Ending (im : Importer) (seen : List AbsPath) (ts : List Token) (p : List (Stmt Unit)) :
    Prop
  | stray : Assembles im seen ts p → Ending im seen ts p
  | closing :
      (∀ t : Token, t.kind = .semicolon → Assembles im seen (ts ++ [t]) p) →
      (∀ out paths, Expands im seen ts out paths → ¬ ClosedUnit out) → Ending im seen ts p

theorem Ending.after {ds : List Token} {s : Stmt Unit} {isOpen : Bool}
    (h : Ending im seen ts p) (hd : Declaration .nearest isOpen ds s) :
    Ending im seen (ds ++ ts) (s :: p) := by
  cases h with
  | stray h => exact .stray (.declaration hd h)
  | closing h hopen =>
      refine .closing (fun t ht => ?_) fun out paths hexpands hclosed => ?_
      · rw [List.append_assoc]
        exact .declaration hd (h t ht)
      · obtain ⟨out', rfl, hexpands'⟩ := hexpands.of_append hd.importFree
        exact hopen out' paths hexpands' hclosed.of_append

theorem ending (h : Assembles im seen (ts ++ [t]) p) (ht : t.kind = .semicolon) :
    Ending im seen ts p := by
  generalize hall : ts ++ [t] = all at h
  induction h generalizing ts with
  | finish => simp at hall
  | @semicolon _ u _ _ hu hp ih =>
      rcases append_eq_concat [u] hall.symm with ⟨rfl, hlast⟩ | ⟨rest, rfl, rfl⟩
      · have hnil : [] ++ [u] = ts ++ [t] := hlast
        obtain ⟨rfl, -⟩ := List.append_inj' hnil rfl
        exact .stray hp
      · cases ih rfl with
        | stray h => exact .stray (.semicolon hu h)
        | closing h hopen =>
            refine .closing (fun t ht => .semicolon hu (h t ht))
              fun out paths hexpands hclosed => ?_
            have hfree : ImportFree [u] := by simp [hu]
            obtain ⟨out', rfl, hexpands'⟩ := hexpands.of_append hfree
            exact hopen out' paths hexpands' hclosed.of_append
  | @declaration _ _ ds _ _ _ hd hp ih =>
      rcases append_eq_concat _ hall.symm with ⟨rfl, hlast⟩ | ⟨rest, rfl, rfl⟩
      · obtain ⟨us, u, rfl, hu, hclose⟩ := (hlast ▸ hd.closes).phrase ht
        refine .closing (fun t' ht' => ?_) fun out paths hexpands =>
          hexpands.not_closedUnit (TokenKind.closesUnit_of_endsPhrase hu)
        have hclosed := Assembles.declaration (hclose t' ht') hp
        rwa [List.append_nil] at hclosed
      · exact (ih rfl).after hd
  | @again _ word path semicolon _ _ _ hwords hname hseen hp ih =>
      rcases append_eq_concat [word, path, semicolon] hall.symm with
        ⟨rfl, hlast⟩ | ⟨rest, rfl, rfl⟩
      · obtain ⟨rfl, rfl⟩ := triple_eq_concat hlast
        have hpath : path.kind.closesUnit = false := by simp [hwords.path, TokenKind.closesUnit]
        exact .closing (fun t' ht' => .again ⟨hwords.word, hwords.path, ht'⟩ hname hseen hp)
          fun out paths (hexpands : Expands im _ ([word] ++ [path]) out paths) =>
            hexpands.not_closedUnit hpath
      · cases ih rfl with
        | stray h => exact .stray (.again hwords hname hseen h)
        | closing h hopen =>
            exact .closing (fun t' ht' => .again hwords hname hseen (h t' ht'))
              fun out paths hexpands => hopen out paths (hexpands.of_again hwords hname hseen)
  | @first _ word path semicolon _ us _ _ hwords hname hseen htokens hp ih =>
      rcases append_eq_concat [word, path, semicolon] hall.symm with
        ⟨rfl, hlast⟩ | ⟨rest, rfl, rfl⟩
      · obtain ⟨rfl, rfl⟩ := triple_eq_concat hlast
        have hpath : path.kind.closesUnit = false := by simp [hwords.path, TokenKind.closesUnit]
        exact .closing (fun t' ht' => .first ⟨hwords.word, hwords.path, ht'⟩ hname hseen htokens hp)
          fun out paths (hexpands : Expands im _ ([word] ++ [path]) out paths) =>
            hexpands.not_closedUnit hpath
      · cases ih (List.append_assoc us rest [t]) with
        | stray h => exact .stray (.first hwords hname hseen htokens h)
        | closing h hopen =>
            refine .closing (fun t' ht' => .first hwords hname hseen htokens ?_)
              fun out paths hexpands =>
                hopen out paths (hexpands.of_first hwords hname hseen htokens)
            have hrest := h t' ht'
            rwa [List.append_assoc] at hrest

/-- In front of the last semicolon of a program a phrase ends, or something is closed. -/
theorem endsPhrase_or_closesUnit (h : Assembles im seen (ts ++ [t]) p) (ht : t.kind = .semicolon) :
    LastIs (fun kind => kind.endsPhrase || kind.closesUnit) ts := by
  have hclosed : ∀ {us}, ClosedUnit us →
      LastIs (fun kind => kind.endsPhrase || kind.closesUnit) us :=
    LastIs.mono fun kind hkind => by simp [hkind]
  have himport : ∀ {word path semicolon}, ImportWords word path semicolon →
      LastIs (fun kind => kind.endsPhrase || kind.closesUnit) [word, path] := fun hwords =>
    (lastIs_concat.mpr (by rw [hwords.path]; rfl) : LastIs _ ([_] ++ [_]))
  generalize hall : ts ++ [t] = all at h
  induction h generalizing ts with
  | finish => simp at hall
  | @semicolon _ u _ _ hu hp ih =>
      rcases append_eq_concat [u] hall.symm with ⟨rfl, hlast⟩ | ⟨rest, rfl, rfl⟩
      · have hnil : [] ++ [u] = ts ++ [t] := hlast
        obtain ⟨rfl, -⟩ := List.append_inj' hnil rfl
        exact lastIs_nil
      · exact (hclosed (closedUnit_semicolon hu)).append (ih rfl)
  | declaration hd hp ih =>
      rcases append_eq_concat _ hall.symm with ⟨rfl, hlast⟩ | ⟨rest, rfl, rfl⟩
      · obtain ⟨us, u, rfl, hu, -⟩ := (hlast ▸ hd.closes).phrase ht
        exact lastIs_concat.mpr (by simp [hu])
      · exact (hclosed hd.closes.closedUnit).append (ih rfl)
  | @again _ word path semicolon _ _ _ hwords _ _ _ ih =>
      rcases append_eq_concat [word, path, semicolon] hall.symm with
        ⟨rfl, hlast⟩ | ⟨rest, rfl, rfl⟩
      · obtain ⟨rfl, -⟩ := triple_eq_concat hlast
        exact himport hwords
      · exact (hclosed (ClosedUnit.imports hwords lastIs_nil)).append (ih rfl)
  | @first _ word path semicolon _ us _ _ hwords _ _ _ _ ih =>
      rcases append_eq_concat [word, path, semicolon] hall.symm with
        ⟨rfl, hlast⟩ | ⟨rest, rfl, rfl⟩
      · obtain ⟨rfl, -⟩ := triple_eq_concat hlast
        exact himport hwords
      · exact (hclosed (ClosedUnit.imports hwords lastIs_nil)).append
          (LastIs.of_append (ih (List.append_assoc us rest [t])))

end Assembles

/-- Without its last semicolon a program can be typed in, as long as it is not open where its
tokens are closed. Where it is, what is typed in is no program at all. -/
theorem closeUnit_assembles_iff (eof : Token) (h : Assembles im [] (ts ++ [t]) p)
    (ht : t.kind = .semicolon) :
    ∃ us, closeUnit (ts ++ [eof]) = us ++ [eof] ∧ (∀ u ∈ us, u ∈ ts ∨ u.kind = .semicolon) ∧
      ((ClosedUnit ts → ∃ out paths, Expands im [] ts out paths ∧ ClosedUnit out) →
        Assembles im [] us p) ∧
      ∀ q, Assembles im [] us q → ClosedUnit ts →
        ∃ out paths, Expands im [] ts out paths ∧ ClosedUnit out := by
  by_cases hclosed : ClosedUnit ts
  · refine ⟨ts, closeUnit_of_closed eof hclosed, fun u hu => .inl hu, ?_, fun _ h _ => h.expands⟩
    intro hexpands
    obtain ⟨out, paths, hexpands, hout⟩ := hexpands hclosed
    cases h.ending ht with
    | stray h => exact h
    | closing _ hopen => exact absurd hout (hopen out paths hexpands)
  · obtain ⟨semicolon, hk, hunit⟩ := closeUnit_of_not_closed eof hclosed
    refine ⟨ts ++ [semicolon], by simpa using hunit, ?_, fun _ => ?_,
      fun _ _ h => absurd h hclosed⟩
    · intro u hu
      rcases List.mem_append.mp hu with hu | hu
      · exact .inl hu
      · exact .inr (List.mem_singleton.mp hu ▸ hk)
    · cases h.ending ht with
      | stray h => exact h.concat hk
      | closing h _ => exact h semicolon hk

end Lox
