import Lox.Parse.Program
import Lox.Proofs.Parsing.Productions
import Lox.Proofs.Spelling

/-!
# The parser accepts exactly the programs of the grammar

Without imports the parse of a program is a walk along its declarations, and what
is known about one declaration carries over. In one direction every program the
parser finds nothing wrong with is derived under the nearest rule; in the other
it gives the tree of every derivation under that rule. A list that is derived
under the free rule has a derivation under the nearest one too, though maybe of
another tree, so both rules have the same programs.
-/

namespace Lox
namespace Grammar

/-! ## The nearest rule loses no program -/

mutual

theorem Declaration.free {rule : ElseRule} {isOpen : Bool} {ts : List Token} {s : Stmt Unit}
    (h : Declaration rule isOpen ts s) : Declaration .free isOpen ts s := by
  match h with
  | .classDecl hw hn hp hb hms hk => exact .classDecl hw hn hp hb hms.free hk
  | .function hw hf => exact .function hw hf.free
  | .var h => exact .var h
  | .statement h => exact .statement h.free

theorem Function.free {rule : ElseRule} {ts : List Token} {f : FunDecl Unit}
    (h : Function rule ts f) : Function .free ts f := by
  match h with
  | .mk hn hb hp hk hbody => exact .mk hn hb hp hk hbody.free

theorem Functions.free {rule : ElseRule} {ts : List Token} {fs : List (FunDecl Unit)}
    (h : Functions rule ts fs) : Functions .free ts fs := by
  match h with
  | .nil => exact .nil
  | .cons hf hfs => exact .cons hf.free hfs.free

theorem Block.free {rule : ElseRule} {ts : List Token} {body : List (Stmt Unit)}
    (h : Block rule ts body) : Block .free ts body := by
  match h with
  | .mk hb h hk => exact .mk hb h.free hk

theorem Declarations.free {rule : ElseRule} {ts : List Token} {body : List (Stmt Unit)}
    (h : Declarations rule ts body) : Declarations .free ts body := by
  match h with
  | .nil => exact .nil
  | .cons h hs => exact .cons h.free hs.free

theorem Statement.free {rule : ElseRule} {isOpen : Bool} {ts : List Token} {s : Stmt Unit}
    (h : Statement rule isOpen ts s) : Statement .free isOpen ts s := by
  match h with
  | .expression h => exact .expression h
  | .print hw he hk => exact .print hw he hk
  | .ret hw hv hk => exact .ret hw hv hk
  | .block h => exact .block h.free
  | .whileLoop hw hb hc hk h => exact .whileLoop hw hb hc hk h.free
  | .forLoop hw hb hi hc hsemi hinc hk h => exact .forLoop hw hb hi hc hsemi hinc hk h.free
  | .ifThen hw hb hc hk h => exact .ifThen hw hb hc hk h.free
  | .ifElse hw hb hc hk hthen _ ho helse =>
      exact .ifElse hw hb hc hk hthen.free (fun h => nomatch h) ho helse.free

end

theorem Program.free {rule : ElseRule} {ts : List Token} {p : List (Stmt Unit)}
    (h : Program rule ts p) : Program .free ts p := by
  induction h with
  | finish hk => exact .finish hk
  | semicolon hk _ ih => exact .semicolon hk ih
  | declaration h _ ih => exact .declaration h.free ih

/-- An `else` that the open statement in front of it could take is taken by the
nearest `if` inside. -/
theorem Statement.attach {us vs : List Token} {s s' : Stmt Unit} {otherwise : Token}
    {isOpen isOpen' : Bool} (h : Statement .nearest isOpen us s)
    (ho : otherwise.kind = .elseWord) (he : Statement .nearest isOpen' vs s') :
    isOpen = true → ∃ isOpen'' s'', Statement .nearest isOpen'' (us ++ otherwise :: vs) s'' := by
  match h with
  | .whileLoop hw hb hc hk hbody =>
      intro hopen
      obtain ⟨isOpen'', s'', h⟩ := hbody.attach ho he hopen
      exact ⟨isOpen'', _, by simpa using Statement.whileLoop hw hb hc hk h⟩
  | .forLoop hw hb hi hc hsemi hinc hk hbody =>
      intro hopen
      obtain ⟨isOpen'', s'', h⟩ := hbody.attach ho he hopen
      exact ⟨isOpen'', _, by simpa using Statement.forLoop hw hb hi hc hsemi hinc hk h⟩
  | @Statement.ifThen _ isOpen₁ _ _ _ _ _ _ _ hw hb hc hk hthen =>
      intro _
      by_cases hopen₁ : isOpen₁ = true
      · obtain ⟨_, s'', h⟩ := hthen.attach ho he hopen₁
        exact ⟨true, _, by simpa using Statement.ifThen hw hb hc hk h⟩
      · exact ⟨isOpen', _, by
          simpa using Statement.ifElse hw hb hc hk hthen (fun _ => by simpa using hopen₁) ho he⟩
  | .ifElse hw hb hc hk hthen hadmits ho' helse =>
      intro hopen
      obtain ⟨isOpen'', s'', h⟩ := helse.attach ho he hopen
      exact ⟨isOpen'', _, by simpa using Statement.ifElse hw hb hc hk hthen hadmits ho' h⟩
  | .expression _ | .print .. | .ret .. | .block _ => exact fun hopen => absurd hopen (by decide)

mutual

theorem Declaration.nearest {isOpen : Bool} {ts : List Token} {s : Stmt Unit}
    (h : Declaration .free isOpen ts s) : ∃ isOpen' s', Declaration .nearest isOpen' ts s' := by
  match h with
  | .classDecl hw hn hp hb hms hk =>
      obtain ⟨methods, hms⟩ := hms.nearest
      exact ⟨_, _, .classDecl hw hn hp hb hms hk⟩
  | .function hw hf =>
      obtain ⟨f, hf⟩ := hf.nearest
      exact ⟨_, _, .function hw hf⟩
  | .var h => exact ⟨_, _, .var h⟩
  | .statement h =>
      obtain ⟨isOpen', s', h⟩ := h.nearest
      exact ⟨_, _, .statement h⟩

theorem Function.nearest {ts : List Token} {f : FunDecl Unit} (h : Function .free ts f) :
    ∃ f', Function .nearest ts f' := by
  match h with
  | .mk hn hb hp hk hbody =>
      obtain ⟨body, hbody⟩ := hbody.nearest
      exact ⟨_, .mk hn hb hp hk hbody⟩

theorem Functions.nearest {ts : List Token} {fs : List (FunDecl Unit)}
    (h : Functions .free ts fs) : ∃ fs', Functions .nearest ts fs' := by
  match h with
  | .nil => exact ⟨_, .nil⟩
  | .cons hf hfs =>
      obtain ⟨f, hf⟩ := hf.nearest
      obtain ⟨fs, hfs⟩ := hfs.nearest
      exact ⟨_, .cons hf hfs⟩

theorem Block.nearest {ts : List Token} {body : List (Stmt Unit)} (h : Block .free ts body) :
    ∃ body', Block .nearest ts body' := by
  match h with
  | .mk hb h hk =>
      obtain ⟨body, h⟩ := h.nearest
      exact ⟨_, .mk hb h hk⟩

theorem Declarations.nearest {ts : List Token} {body : List (Stmt Unit)}
    (h : Declarations .free ts body) : ∃ body', Declarations .nearest ts body' := by
  match h with
  | .nil => exact ⟨_, .nil⟩
  | .cons h hs =>
      obtain ⟨isOpen, s, h⟩ := h.nearest
      obtain ⟨ss, hs⟩ := hs.nearest
      exact ⟨_, .cons h hs⟩

theorem Statement.nearest {isOpen : Bool} {ts : List Token} {s : Stmt Unit}
    (h : Statement .free isOpen ts s) : ∃ isOpen' s', Statement .nearest isOpen' ts s' := by
  match h with
  | .expression h => exact ⟨_, _, .expression h⟩
  | .print hw he hk => exact ⟨_, _, .print hw he hk⟩
  | .ret hw hv hk => exact ⟨_, _, .ret hw hv hk⟩
  | .block h =>
      obtain ⟨body, h⟩ := h.nearest
      exact ⟨_, _, .block h⟩
  | .whileLoop hw hb hc hk h =>
      obtain ⟨isOpen', s', h⟩ := h.nearest
      exact ⟨_, _, .whileLoop hw hb hc hk h⟩
  | .forLoop hw hb hi hc hsemi hinc hk h =>
      obtain ⟨isOpen', s', h⟩ := h.nearest
      exact ⟨_, _, .forLoop hw hb hi hc hsemi hinc hk h⟩
  | .ifThen hw hb hc hk h =>
      obtain ⟨isOpen', s', h⟩ := h.nearest
      exact ⟨_, _, .ifThen hw hb hc hk h⟩
  | .ifElse hw hb hc hk hthen _ ho helse =>
      obtain ⟨isOpen₁, s₁, hthen⟩ := hthen.nearest
      obtain ⟨isOpen₂, s₂, helse⟩ := helse.nearest
      cases isOpen₁ with
      | false => exact ⟨_, _, .ifElse hw hb hc hk hthen (fun _ => rfl) ho helse⟩
      | true =>
          obtain ⟨isOpen', s', h⟩ := hthen.attach ho helse rfl
          exact ⟨true, _, by simpa using Statement.ifThen hw hb hc hk h⟩

end

theorem Program.nearest {ts : List Token} {p : List (Stmt Unit)} (h : Program .free ts p) :
    ∃ p', Program .nearest ts p' := by
  induction h with
  | finish hk => exact ⟨_, .finish hk⟩
  | semicolon hk _ ih =>
      obtain ⟨p', ih⟩ := ih
      exact ⟨_, .semicolon hk ih⟩
  | declaration h _ ih =>
      obtain ⟨isOpen', s', h⟩ := h.nearest
      obtain ⟨p', ih⟩ := ih
      exact ⟨_, .declaration h ih⟩

/-- A program is its declarations and the end of the input. -/
theorem Program.ends {rule : ElseRule} {ts : List Token} {p : List (Stmt Unit)}
    (h : Program rule ts p) : ∃ us eof, ts = us ++ [eof] ∧ eof.kind = .eof := by
  induction h with
  | finish hk => exact ⟨[], _, rfl, hk⟩
  | semicolon _ _ ih =>
      obtain ⟨us, eof, rfl, hk⟩ := ih
      exact ⟨_ :: us, eof, rfl, hk⟩
  | @declaration _ vs _ _ _ _ _ ih =>
      obtain ⟨us, eof, rfl, hk⟩ := ih
      exact ⟨vs ++ us, eof, by simp, hk⟩

/-- The declarations of one program in front of those of another. -/
theorem Program.append {rule : ElseRule} {ts us : List Token} {p q : List (Stmt Unit)}
    (h : Program rule ts p) (h' : Program rule us q) :
    Program rule (ts.dropLast ++ us) (p ++ q) := by
  have hne : ∀ {vs r}, Program rule vs r → vs ≠ [] := by
    intro vs r hr
    obtain ⟨_, _, rfl, _⟩ := hr.ends
    exact List.append_ne_nil_of_right_ne_nil _ (List.cons_ne_nil _ _)
  induction h with
  | finish _ => exact h'
  | semicolon hk hp ih =>
      rw [List.dropLast_cons_of_ne_nil (hne hp)]
      exact .semicolon hk ih
  | declaration h hp ih =>
      rw [List.dropLast_append_of_ne_nil (hne hp), List.append_assoc]
      exact .declaration h ih

/-- What comes after a declaration of a program is no `else`. -/
theorem Program.headKind_ne_else {rule : ElseRule} {ts : List Token} {p : List (Stmt Unit)}
    (h : Program rule ts p) : headKind ts ≠ .elseWord := by
  cases h with
  | finish hk => simp [headKind, hk]
  | semicolon hk _ => simp [headKind, hk]
  | @declaration _ us vs _ _ h _ =>
      intro heq
      have hbegin := h.begins.headKind vs
      rw [heq] at hbegin
      exact absurd hbegin (by decide)

end Grammar

namespace Parse

open Grammar ParseState

/-! ## Along the declarations -/

/-- Nothing asks for an import. -/
def ImportFree (ts : List Token) : Prop :=
  ∀ t ∈ ts, t.kind ≠ .importWord

theorem moves_skipSemicolons (s : ParseState) :
    s.Moves (s.ahead.takeWhile (·.kind == .semicolon)) (skipSemicolons s) :=
  ⟨List.takeWhile_append_dropWhile.symm, rfl, rfl, List.prefix_rfl⟩

theorem skipSemicolons_of_ne {s : ParseState} (h : headKind s.ahead ≠ .semicolon) :
    skipSemicolons s = s := by
  have hnone : s.ahead.dropWhile (·.kind == .semicolon) = s.ahead ∧
      s.ahead.takeWhile (·.kind == .semicolon) = [] := by
    cases ha : s.ahead with
    | nil => exact ⟨rfl, rfl⟩
    | cons t rest =>
        rw [ha, headKind] at h
        have hk : ¬ (t.kind == .semicolon) = true := by simpa using h
        exact ⟨List.dropWhile_cons_of_neg hk, List.takeWhile_cons_of_neg hk⟩
  simp only [skipSemicolons, hnone.1, hnone.2, List.reverse_nil, List.nil_append]

theorem skipSemicolons_advance {s : ParseState} {t : Token} {rest : List Token}
    (ha : s.ahead = t :: rest) (hk : t.kind = .semicolon) :
    skipSemicolons s.advance = skipSemicolons s := by
  simp [skipSemicolons, advance, ha, hk]

/-- Failing at a declaration skips it, so the step for one does not fail. -/
theorem topDeclaration_ne_failed (s s' : ParseState) : topDeclaration s ≠ .failed s' := by
  intro h
  have hn : topDeclaration s = declaration (8 * (s.ahead.length + 1)) s := rfl
  rw [hn] at h
  cases hm : 8 * (s.ahead.length + 1) with
  | zero => omega
  | succ n =>
      rw [hm, declaration] at h
      exact rescue_ne_failed _ s s' h

variable {im : Importer} {limit : ErrorLimit} {seen : List AbsPath}

/-- Stray semicolons stand for nothing. -/
theorem Program.semicolons {rule : ElseRule} {ts us : List Token} {p : List (Stmt Unit)}
    (hts : ∀ t ∈ ts, t.kind = .semicolon) (h : Program rule us p) : Program rule (ts ++ us) p := by
  induction ts with
  | nil => exact h
  | cons t ts ih =>
      exact .semicolon (hts t List.mem_cons_self) (ih fun u hu => hts u (List.mem_cons_of_mem t hu))

/-- A limit that no fault has not reached can be compared with any number. -/
theorem reachedBy_ne_none (hlimit : limit.reachedBy 0 = some false) (k : Nat) :
    limit.reachedBy k ≠ none := by
  cases limit with
  | unordered => cases hlimit
  | _ => exact fun h => nomatch h

/-- What the parse of a program has done when it is over: nothing ended it before
its time, and if it found no fault, it took everything and the grammar derives it. -/
def ReadsProgram (s : ParseState) (r : ParseResult) : Prop :=
  r.halt = none ∧ ∃ ts, s.Moves ts r.state ∧
    (r.state.faults = [] → r.state.ahead = [] ∧ Program .nearest (ts ++ [s.finish]) r.program)

theorem program_reads (hlimit : limit.reachedBy 0 = some false) (n : Nat) (s : ParseState)
    (hs : s.finish.kind = .eof) (hfree : ImportFree s.ahead) (hn : s.ahead.length < n) :
    ReadsProgram s (program im limit n seen s) := by
  induction n generalizing s with
  | zero => omega
  | succ n ih =>
      have hm₁ := moves_skipSemicolons s
      have hsemi : ∀ t ∈ s.ahead.takeWhile (·.kind == .semicolon), t.kind = .semicolon :=
        fun t ht => by simpa using List.all_eq_true.mp List.all_takeWhile t ht
      generalize s.ahead.takeWhile (·.kind == .semicolon) = us at hm₁ hsemi
      have hlen₁ := hm₁.length
      rw [program]
      generalize skipSemicolons s = s₁ at hm₁ hlen₁
      have hs₁ : s₁.finish.kind = .eof := hm₁.finish ▸ hs
      have hfree₁ : ImportFree s₁.ahead := fun t ht =>
        hfree t (by rw [hm₁.ahead]; exact List.mem_append_right _ ht)
      split
      · next ha =>
          refine ⟨rfl, us, hm₁, fun _ => ⟨ha, ?_⟩⟩
          exact Program.semicolons hsemi (.finish hs)
      · next t rest ha =>
          split
          · next hnone => exact absurd hnone (reachedBy_ne_none hlimit _)
          · next hreached =>
              refine ⟨rfl, us, hm₁, fun hc => ?_⟩
              simp only at hc
              rw [hc, List.length_nil, hlimit] at hreached
              cases hreached
          · rw [if_neg (hfree₁ t (by rw [ha]; exact List.mem_cons_self))]
            have hread := topDeclaration_reads s₁ hs₁
            split
            · next stmt s₂ hd =>
                obtain ⟨ts, hm₂, hpos, hderive⟩ := readsAt_ok hd hread
                have hlen₂ := hm₂.length
                have hsome : 0 < s₁.ahead.length := by rw [ha]; exact Nat.succ_pos _
                have hfree₂ : ImportFree s₂.ahead := fun t ht =>
                  hfree₁ t (by rw [hm₂.ahead]; exact List.mem_append_right _ ht)
                have hs₂ : s₂.finish.kind = .eof := hm₂.finish ▸ hs₁
                obtain ⟨hhalt, vs, hm₃, hrest⟩ := ih s₂ hs₂ hfree₂ (by omega)
                refine ⟨hhalt, us ++ (ts ++ vs), hm₁.trans (hm₂.trans hm₃), fun hc => ?_⟩
                have hc₂ : s₂.faults = [] := hm₃.faults_nil hc
                obtain ⟨stmt, rfl, _, hstmt, _⟩ := hderive (hc₂.trans (hm₂.faults_nil hc₂).symm)
                obtain ⟨hend, hprogram⟩ := hrest hc
                refine ⟨hend, ?_⟩
                rw [List.append_assoc, List.append_assoc, ← hm₁.finish, ← hm₂.finish]
                exact Program.semicolons hsemi (.declaration hstmt hprogram)
            · next s₂ hd => exact absurd hd (topDeclaration_ne_failed s₁ s₂)
            · next s₂ hd => exact absurd trivial (readsAt_spent hd hread)

theorem program_advance {n : Nat} {s : ParseState} {t : Token} {rest : List Token}
    (ha : s.ahead = t :: rest) (hk : t.kind = .semicolon) :
    program im limit (n + 1) seen s.advance = program im limit (n + 1) seen s := by
  rw [program, program, skipSemicolons_advance ha hk]

/-- The budget of a declaration suffices, so what it leads to is reached. -/
theorem topDeclaration_eq_ok {isOpen : Bool} {s : ParseState} {ts rest : List Token}
    {stmt : Stmt Unit} (h : Declaration .nearest isOpen ts stmt) (hs : s.finish.kind = .eof)
    (ha : s.ahead = ts ++ rest) (hnext : headKind rest ≠ .elseWord) :
    ∃ s', s.Moves ts s' ∧ s'.faults = s.faults ∧ topDeclaration s = .ok (some stmt) s' := by
  have hlead : LeadsTo s topDeclaration ts (pure (some stmt)) :=
    leadsTo_budgeted (h.leads _ s rest ha fun _ => hnext)
  rcases hlead with ⟨s', hm, hc, heq⟩ | ⟨s', hspent⟩
  · exact ⟨s', hm, hc, heq⟩
  · exact absurd trivial (readsAt_spent hspent (topDeclaration_reads s hs))

/-- A program of the grammar is read as the tree of its derivation. -/
theorem program_gives (hlimit : limit.reachedBy 0 = some false) {ts : List Token}
    {p : List (Stmt Unit)} (h : Program .nearest ts p) (n : Nat) (s : ParseState)
    (hs : s.finish.kind = .eof) (ha : ts = s.ahead ++ [s.finish]) (hf : s.faults = [])
    (hn : s.ahead.length < n) :
    (program im limit n seen s).program = p ∧ (program im limit n seen s).state.faults = [] := by
  induction h generalizing n s with
  | finish hk =>
      have hend : s.ahead = [] := by
        cases hahead : s.ahead with
        | nil => rfl
        | cons t rest => simp [hahead] at ha
      cases n with
      | zero => omega
      | succ n =>
          rw [program, skipSemicolons_of_ne (by simp [hend, headKind])]
          simp only [hend]
          exact ⟨trivial, hf⟩
  | @semicolon t ts p hk _ ih =>
      cases hahead : s.ahead with
      | nil =>
          rw [hahead, List.nil_append, List.cons.injEq] at ha
          rw [ha.1, hs] at hk
          cases hk
      | cons t' rest =>
          rw [hahead, List.cons_append, List.cons.injEq] at ha
          obtain ⟨rfl, ha⟩ := ha
          cases n with
          | zero => omega
          | succ n =>
              rw [hahead, List.length_cons] at hn
              rw [← program_advance hahead hk]
              exact ih (n + 1) s.advance hs (by rw [ahead_advance hahead, ha]; rfl) hf
                (by rw [ahead_advance hahead]; omega)
  | @declaration _ ts us stmt p hd hp ih =>
      obtain ⟨us, eof, rfl, _⟩ := hp.ends
      rw [← List.append_assoc] at ha
      obtain ⟨hahead, heof⟩ := List.append_inj' ha rfl
      simp only [List.cons.injEq, and_true] at heof
      subst heof
      obtain ⟨t, vs, hts, hbegin⟩ := hd.begins
      have hcons : s.ahead = t :: (vs ++ us) := by rw [← hahead, hts]; rfl
      have hsemi : headKind s.ahead ≠ .semicolon := by
        rw [hcons, headKind]
        exact fun hk => absurd (hk ▸ hbegin) (by decide)
      have himport : t.kind ≠ .importWord := fun hk => absurd (hk ▸ hbegin) (by decide)
      have hnext : headKind us ≠ .elseWord := by
        have := hp.headKind_ne_else
        cases us with
        | nil => simp [headKind]
        | cons u us => exact this
      obtain ⟨s', hm, hc, heq⟩ := topDeclaration_eq_ok hd hs hahead.symm hnext
      have ha' := hm.ahead_eq hahead.symm
      have hlen := hm.length
      rw [ha'] at hlen
      have hpos : 0 < ts.length := by rw [hts]; exact Nat.succ_pos _
      cases n with
      | zero => omega
      | succ n =>
          have hrest := ih n s' (hm.finish ▸ hs) (by rw [ha', hm.finish]) (hc.trans hf)
            (by rw [ha']; omega)
          rw [program, skipSemicolons_of_ne hsemi]
          simp only [hcons, hf, List.length_nil, hlimit, if_neg himport, heq]
          exact ⟨congrArg (stmt :: ·) hrest.1, hrest.2⟩

end Parse

open Grammar ParseState Parse

/-! ## Sources -/

theorem ofTokens_finish (tokens : List Token) : (ofTokens tokens).finish.kind = .eof := by
  simp only [ofTokens]
  split
  · next t rest h =>
      have hhead := List.head?_dropWhile_not (fun t : Token => t.kind != .eof) tokens
      rw [h] at hhead
      simpa using hhead
  · rfl

theorem ofTokens_ended {ts : List Token} {eof : Token} (hts : ∀ t ∈ ts, t.kind ≠ .eof)
    (hk : eof.kind = .eof) :
    (ofTokens (ts ++ [eof])).ahead = ts ∧ (ofTokens (ts ++ [eof])).finish = eof := by
  have hall : ∀ t ∈ ts, (t.kind != .eof) = true := fun t ht => by simpa using hts t ht
  constructor
  · simp only [ofTokens]
    rw [List.takeWhile_append_of_pos hall, List.takeWhile_cons_of_neg (by simp [hk]),
      List.append_nil]
  · simp only [ofTokens]
    rw [List.dropWhile_append_of_pos hall, List.dropWhile_cons_of_neg (by simp [hk])]

theorem parseProgram_of_halt_none {im : Importer} {limit : ErrorLimit} {ts : List Token}
    (name : Option String) {r : ParseResult}
    (hr : Parse.program im limit (im.supply ts + 1) [] (ofTokens ts) = r) (h : r.halt = none) :
    (parseProgram im limit ts name).halt = none ∧
      (parseProgram im limit ts name).program = r.program ∧
      (parseProgram im limit ts name).faults = r.faults ∧
      (parseProgram im limit ts name).state.ahead = r.state.ahead ∧
      (parseProgram im limit ts name).state.position = r.state.position := by
  simp only [parseProgram, hr, h]
  exact ⟨trivial, trivial, rfl, rfl, rfl⟩

/-- A parse that decides whether its tokens are a program. It comes to its end; it
finds no fault exactly if the grammar derives the tokens, whichever `if` each `else`
is given to; and then it has taken every token before the end of the input, and its
program is the one tree that the grammar derives with every `else` at the nearest
`if`. -/
structure ParseResult.Decides (r : ParseResult) (tokens : List Token) : Prop where
  ends : r.halt = none
  accepts : r.faults = [] ↔ ∃ p, Program .free tokens p
  consumes : r.faults = [] → r.state.ahead = [] ∧ r.state.position + 1 = tokens.length
  tree : r.faults = [] → ∀ p, Program .nearest tokens p ↔ p = r.program

/-- Parsing tokens decides whether they are a program, if none of them but the last ends
the input and none asks for an import. -/
theorem parseProgram_decides_ended (im : Importer) (limit : ErrorLimit) (name : Option String)
    {ts : List Token} {eof : Token} (hts : ∀ t ∈ ts, t.kind ≠ .eof) (hk : eof.kind = .eof)
    (hfree : ImportFree (ts ++ [eof])) (hlimit : limit.reachedBy 0 = some false) :
    (parseProgram im limit (ts ++ [eof]) name).Decides (ts ++ [eof]) := by
  obtain ⟨hahead, hfinish⟩ := ofTokens_ended hts hk
  have hs : (ofTokens (ts ++ [eof])).finish.kind = .eof := by rw [hfinish, hk]
  have hfreeAhead : ImportFree (ofTokens (ts ++ [eof])).ahead := by
    rw [hahead]
    exact fun t ht => hfree t (List.mem_append_left _ ht)
  have hbudget : (ofTokens (ts ++ [eof])).ahead.length < im.supply (ts ++ [eof]) + 1 := by
    rw [hahead, Importer.supply, List.length_append]
    omega
  generalize hr : Parse.program im limit (im.supply (ts ++ [eof]) + 1) []
    (ofTokens (ts ++ [eof])) = r
  have hread : ReadsProgram (ofTokens (ts ++ [eof])) r :=
    hr ▸ program_reads hlimit _ _ hs hfreeAhead hbudget
  have hgives : ∀ p, Program .nearest (ts ++ [eof]) p → r.program = p ∧ r.state.faults = [] :=
    fun p hp => hr ▸ program_gives hlimit hp _ _ hs (by rw [hahead, hfinish]) rfl hbudget
  obtain ⟨hhalt, us, hm, hderived⟩ := hread
  obtain ⟨hhalt', hprogram, hfaults, hahead', hposition⟩ :=
    parseProgram_of_halt_none name hr hhalt
  have hus : r.faults = [] → us = ts := fun hc => by
    have hall := hm.ahead
    rw [(hderived hc).1, List.append_nil, hahead] at hall
    exact hall.symm
  have htree : r.faults = [] → Program .nearest (ts ++ [eof]) r.program := fun hc => by
    have h := (hderived hc).2
    rwa [hus hc, hfinish] at h
  refine ⟨hhalt', ?_, ?_, ?_⟩
  · rw [hfaults]
    refine ⟨fun hc => ⟨_, (htree hc).free⟩, fun ⟨p, hp⟩ => ?_⟩
    obtain ⟨p', hp'⟩ := hp.nearest
    exact (hgives p' hp').2
  · rw [hfaults, hahead', hposition]
    refine fun hc => ⟨(hderived hc).1, ?_⟩
    rw [hm.position, hus hc, List.length_append]
    exact Nat.add_right_cancel_iff.mpr (Nat.zero_add _)
  · rw [hfaults, hprogram]
    refine fun hc p => ⟨fun hp => (hgives p hp).1.symm, ?_⟩
    rintro rfl
    exact htree hc

/-- Parsing a source without imports decides whether it is a program. The limit of
faults only has to be one that no fault has not reached, as is every number from
one on. -/
theorem parseProgram_decides (im : Importer) (limit : ErrorLimit) (name : Option String)
    (source : List Char) (hfree : ImportFree (scan source).tokens)
    (hlimit : limit.reachedBy 0 = some false) :
    (parseProgram im limit (scan source).tokens name).Decides (scan source).tokens := by
  obtain ⟨ts, eof, htokens, hk, hlex⟩ := scan_tokens source
  rw [htokens] at hfree ⊢
  exact parseProgram_decides_ended im limit name (fun t ht => (hlex t ht).ne_eof) hk hfree hlimit

theorem parseProgram_decides_else :
    ImportFree (scan "if (a) if (b) c.d = e = f; else print [g or h]; ;".toList).tokens ∧
      (ErrorLimit.count 1).reachedBy 0 = some false ∧
      (parseProgram ⟨⟨[], false⟩, {}⟩ (.count 1)
        (scan "if (a) if (b) c.d = e = f; else print [g or h]; ;".toList).tokens none).Decides
        (scan "if (a) if (b) c.d = e = f; else print [g or h]; ;".toList).tokens := by
  have hfree :
      ImportFree (scan "if (a) if (b) c.d = e = f; else print [g or h]; ;".toList).tokens := by
    unfold ImportFree
    decide +kernel
  exact ⟨hfree, by decide, parseProgram_decides _ _ _ _ hfree (by decide)⟩

end Lox
