import Lox.Proofs.Loops.Rounds
import Lox.Proofs.Padding.Programs

/-!
# A `for` statement does what it means

Accepted units are run, and among their statements are those that the parser makes of `for`
statements. Whenever one of them is run, the loop that is meant might as well have been run in
its place: it prints the same, leaves the same variables and instances, ends in the same way,
and ends at all if the tree does. What the tree leaves in addition are empty frames, and they
are of no concern to any code that is run later.
-/

namespace Lox

open Eval

/-! ## The same end -/

/-- The run was ended by its budget. -/
def Result.Unfinished {α : Type} : Result α → Prop
  | .abort .spent _ => True
  | _ => False

/-- Machines that two runs have left which both began with `m`: they are the same but for the
numbers of new frames, and for empty frames that the second has in addition. -/
structure SameStores (w : Padding.World) (m m₁ m₂ : Machine) : Prop where
  /-- The frames that `m` has keep their numbers. -/
  size : m.frames.size ≤ w.size
  image : ∀ k < m.frames.size, w.image k = k
  machine : padding.MachineRel w m₁ m₂
  env : m₁.env = m.env
  env' : m₂.env = m.env

/-- Two runs that both began with `m` have come to the same end: they complete alike, or are
aborted for the same reason, an error at the same token included. -/
inductive SameEnd (m : Machine) : Result Completion → Result Completion → Prop
  | completed {w : Padding.World} {k k' : Completion} {m₁ m₂ : Machine} :
      SameStores w m m₁ m₂ → padding.CompletionRel w k k' → SameEnd m (.ok k m₁) (.ok k' m₂)
  | aborted {w : Padding.World} {r : Abort} {m₁ m₂ : Machine} :
      SameStores w m m₁ m₂ → r ≠ .spent → SameEnd m (.abort r m₁) (.abort r m₂)

/-- From the machine `m` the loop and the statement do the same, given a little more budget
than the other. -/
structure ForLoop.SameRuns (l : ForLoop) (s : Stmt Slot) (m : Machine) : Prop where
  ends : ∀ n k, n + 8 ≤ k → ¬ (l.run n m).Unfinished → SameEnd m (l.run n m) (exec k s m)
  ends' : ∀ n k, n + 8 ≤ k → ¬ (exec n s m).Unfinished → SameEnd m (l.run k m) (exec n s m)
  prints : ∀ n k, n + 8 ≤ k →
    (l.run n m).machine.output.toList <+: (exec k s m).machine.output.toList
  prints' : ∀ n k, n + 8 ≤ k →
    (exec n s m).machine.output.toList <+: (l.run k m).machine.output.toList
  diverges : (∀ n, (l.run n m).Unfinished) ↔ ∀ n, (exec n s m).Unfinished

/-- Whenever the programs run the tree of a `for` statement, it does what the loop does. -/
def MeanLoops (budget : Nat) (m : Machine) (programs : List (List (Stmt Slot))) : Prop :=
  ∀ (f : ForStatement) (c : ClassKind) (p : Place),
    Occurs programs p (.stmt (f.tree.resolve c p.scopes)) →
      ∀ a, m.activities budget programs a → a.task = .exec (f.tree.resolve c p.scopes) →
        (f.resolve c p.scopes).SameRuns (f.tree.resolve c p.scopes) a.machine

section

variable {m : Machine} {hsize : 0 < m.frames.size}

theorem SameEnd.finished {r r' : Result Completion} (h : SameEnd m r r') :
    ¬ r.Unfinished ∧ ¬ r'.Unfinished := by
  cases h with
  | completed => exact ⟨id, id⟩
  | @aborted w r m₁ m₂ _ hr => cases r <;> first | exact ⟨id, id⟩ | exact absurd rfl hr

/-! ## Ends of compared runs -/

section

variable {x y : Eval Completion}

theorem sameOutput
    (h : padding.EndsAlike (.same m.frames.size hsize) padding.CompletionRel x y m m) :
    (y m).machine.output = (x m).machine.output := by
  obtain ⟨⟨w, _, hr⟩, _⟩ := h
  exact hr.machine.1.output.trans Array.empty_append

theorem unfinished_iff
    (h : padding.EndsAlike (.same m.frames.size hsize) padding.CompletionRel x y m m) :
    (x m).Unfinished ↔ (y m).Unfinished := by
  obtain ⟨⟨w, _, hr⟩, _⟩ := h
  cases hx : x m <;> cases hy : y m
  all_goals rw [hx, hy] at hr
  · exact Iff.rfl
  · exact hr.elim
  · exact hr.elim
  · cases hr.2.2.2 <;> exact Iff.rfl

/-- A comparison takes some faults of the machine for each other. Where these do not happen,
the reason for an abort is the same. -/
theorem sameEnd_of_endsAlike
    (h : padding.EndsAlike (.same m.frames.size hsize) padding.CompletionRel x y m m)
    (hends : ¬ (x m).Unfinished)
    (hmiss : ∀ fault m', y m = .abort (.fault fault) m' → ¬ fault.IsMiss) :
    SameEnd m (x m) (y m) := by
  obtain ⟨⟨w, hw, hr⟩, hreports⟩ := h
  have hstores : SameStores w m (x m).machine (y m).machine :=
    ⟨hw.size, hw.image, hr.machine.1, hr.machine.2.1, hr.machine.2.2⟩
  cases hx : x m with
  | ok k m₁ =>
      cases hy : y m with
      | ok k' m₂ =>
          rw [hx, hy] at hr hstores
          exact .completed hstores hr.2.2.2
      | abort r' m₂ =>
          rw [hx, hy] at hr
          exact hr.elim
  | abort r m₁ =>
      cases hy : y m with
      | ok k' m₂ =>
          rw [hx, hy] at hr
          exact hr.elim
      | abort r' m₂ =>
          rw [hx] at hends
          rw [hx, hy] at hr hstores
          cases hr.2.2.2 with
          | @error fault t t' =>
              cases (hreports _ _ _ _ hx hy : t = t')
              exact .aborted hstores nofun
          | failure => exact .aborted hstores nofun
          | misplaced => exact absurd trivial (hmiss _ _ hy)
          | fault => exact .aborted hstores nofun
          | spent => exact absurd trivial hends

end

theorem Outruns.eq_of_finished {x y : Eval Completion} (h : Outruns x y)
    (hends : ¬ (x m).Unfinished) : x m = y m := by
  refine (h.outlasts m).resolve_left ?_
  rintro ⟨m', hspent⟩
  rw [hspent] at hends
  exact hends trivial

/-- If the loop is compared with one that does what the statement does, then it does so
itself. -/
theorem sameRuns_of {l : ForLoop} {s : Stmt Slot} {y : Nat → Eval Completion}
    (halike : ∀ n, padding.EndsAlike (.same m.frames.size hsize) padding.CompletionRel (l.run n)
      (y n) m m)
    (hforth : ∀ n k, n + 8 ≤ k → Outruns (y n) (exec k s))
    (hback : ∀ n k, n + 8 ≤ k → Outruns (exec n s) (y k))
    (hmiss : ∀ n fault m', exec n s m = .abort (.fault fault) m' → ¬ fault.IsMiss) :
    l.SameRuns s m := by
  have hends : ∀ n k, n + 8 ≤ k → ¬ (l.run n m).Unfinished →
      SameEnd m (l.run n m) (exec k s m) := by
    intro n k hk hn
    have heq := (hforth n k hk).eq_of_finished (mt (unfinished_iff (halike n)).mpr hn)
    have hsame := sameEnd_of_endsAlike (halike n) hn fun fault m' hfault =>
      hmiss k fault m' (heq ▸ hfault)
    rwa [heq] at hsame
  have hends' : ∀ n k, n + 8 ≤ k → ¬ (exec n s m).Unfinished →
      SameEnd m (l.run k m) (exec n s m) := by
    intro n k hk hn
    have heq := (hback n k hk).eq_of_finished hn
    have hk' : ¬ (l.run k m).Unfinished := by
      rw [unfinished_iff (halike k), ← heq]
      exact hn
    have hsame := sameEnd_of_endsAlike (halike k) hk' fun fault m' hfault =>
      hmiss n fault m' (heq.trans hfault)
    rwa [← heq] at hsame
  refine ⟨hends, hends', fun n k hk => ?_, fun n k hk => ?_, fun h n => ?_, fun h n => ?_⟩
  · rw [← sameOutput (halike n)]
    exact (hforth n k hk).output m
  · rw [← sameOutput (halike k)]
    exact (hback n k hk).output m
  · by_contra hn
    exact (hends' n (n + 8) (Nat.le_refl _) hn).finished.1 (h _)
  · by_contra hn
    exact (hends n (n + 8) (Nat.le_refl _) hn).finished.2 (h _)

end

/-! ## Accepted units -/

section

variable {programs : List (List (Stmt Slot))}
  (haccepted : ∀ program ∈ programs, Accepted program)

include haccepted

/-- What is known of a `for` statement from where it stands. -/
theorem ForStatement.padded_of_occurs {f : ForStatement} {c : ClassKind} {p : Place}
    (h : Occurs programs p (.stmt (f.tree.resolve c p.scopes))) :
    (f.resolve c p.scopes).Padded (f.padded c p.scopes) := by
  obtain ⟨around, y, hsound, _, _, hw, _, heq⟩ := h.resolved haccepted
  have htree : f.tree = y := by
    rw [← f.tree.forget_resolve c p.scopes 0, heq, y.forget_resolve]
  refine resolve_padded (htree ▸ hw) fun hsuper => ?_
  obtain ⟨d, _, hd, _⟩ := hsound.receiver 0 hsuper
  cases hd

/-- A statement that is run where it stands leads to no frame that is not there. -/
theorem exec_not_isMiss {w : FrameLog} {q r : Place} {s s' : Stmt Slot} {m m' : Machine}
    (hs : (scoping haccepted).StmtRel q s s' r)
    (hE : (scoping haccepted).Env w q m.env m'.env)
    (hm : (scoping haccepted).MachineRel w m m') (n : Nat) (fault : Fault) (m₁ : Machine)
    (h : exec n s m = .abort (.fault fault) m₁) : ¬ fault.IsMiss := by
  obtain ⟨_, _, hr, _⟩ := ((scoping haccepted).agrees n).exec hs hE hm
  rw [h] at hr
  cases hx : exec n s' m' with
  | ok => exact (hx ▸ hr).elim
  | abort => exact not_isMiss haccepted (hx ▸ hr).2.2.2

end

/-- The initializer of the loop in the tree is still one. -/
theorem ForStatement.isInitializer_padded {f : ForStatement} {c : ClassKind} {s : Scopes}
    (i : Stmt Slot) (h : (f.padded c s).initializer = some i) : i.IsInitializer := by
  rw [padded_initializer] at h
  obtain ⟨j, hj, rfl⟩ := Option.map_eq_some_iff.mp h
  cases f.initializer_of_some hj with
  | varDecl => exact .varDecl
  | expression => exact .expression

/-- In a run of accepted units every `for` statement does what it means. -/
theorem units_meanLoops {natives : NativeTable} (hnatives : natives.HasNativeVectors)
    (readings : Nat → Float) (budget : Nat) (units : List SourceUnit)
    (haccepted : ∀ u ∈ units, u.Accepted) :
    MeanLoops budget (Machine.start natives readings) (units.map (·.reading.program)) := by
  have hprograms : ∀ program ∈ units.map (·.reading.program), Accepted program := by
    intro program hprogram
    obtain ⟨u, hu, rfl⟩ := List.mem_map.mp hprogram
    exact UnitReading.ofSource_accepted (haccepted u hu).1 (haccepted u hu).2
  obtain ⟨w, hfollowed⟩ := start_followed hprograms hnatives readings budget
  intro f c p hoccurs a ha htask
  obtain ⟨w₀, t', m', _, hm, ht⟩ := hfollowed.matched a ha
  rw [htask] at ht
  cases ht with
  | exec hE hs =>
      have hmiss := exec_not_isMiss hprograms hs hE hm
      have hsize : 0 < a.machine.frames.size := hm.frames.size ▸ hm.frames.global
      have hself := Padding.machineRel_self hm hsize
      have haround := Padding.around_self hsize (Padding.below_of_chain hm.frames hE.2)
      have hpadded := ForStatement.padded_of_occurs hprograms hoccurs
      rw [f.tree_resolve] at hmiss ⊢
      have hinitializer := ForStatement.isInitializer_padded (f := f) (c := c) (s := p.scopes)
      refine sameRuns_of (fun n => ForLoop.run_endsAlike hpadded n haround hself)
        (fun n k hk => ?_) (fun n k hk => ?_) hmiss
      · exact (ForLoop.outruns_tree hinitializer n).trans (exec_outruns hk _)
      · have hk' : 2 ≤ k := by omega
        obtain ⟨j, rfl⟩ := Nat.exists_eq_add_of_le' hk'
        have hj : n ≤ j := by omega
        exact (exec_outruns hj _).trans (ForLoop.tree_outruns hinitializer j)

/-- The functions made in the rounds have a variable each and share the one of the loop. The
first loop is left in its second round, and the last one fails in its increment. -/
def loopUnits : List SourceUnit :=
  [{ importer := ⟨⟨[], false⟩, {}⟩
     limit := .count 20
     source :=
      "var kept;\n" ++
      "fun find(stop) \x7b\n" ++
      "  for (var i = \"\"; i != \"aaa\"; i = i + \"a\") \x7b\n" ++
      "    var j = i;\n" ++
      "    fun seen() \x7b return j + \"-\" + i; \x7d\n" ++
      "    if (i == stop) return seen;\n" ++
      "    kept = seen;\n" ++
      "  \x7d\n" ++
      "\x7d\n" },
   { importer := ⟨⟨[], false⟩, {}⟩
     limit := .count 20
     source :=
      "print find(\"a\")(); print kept(); find(nil); print kept();\n" ++
      "for (; kept; kept = nil) print kept != nil;\n" ++
      "for (;; kept()) print kept;" }]

theorem units_meanLoops_closures :
    NativeTable.standard.HasNativeVectors ∧ (∀ u ∈ loopUnits, u.Accepted) ∧
      ((Machine.start NativeTable.standard fun _ => 0).runAll 100
        (loopUnits.map (·.reading.program))).2.output =
          #["a-a", "-a", "aa-aaa", "true", "nil"] ∧
      MeanLoops 100 (Machine.start NativeTable.standard fun _ => 0)
        (loopUnits.map (·.reading.program)) := by
  have haccepted : ∀ u ∈ loopUnits, u.Accepted :=
    SourceUnit.accepted_of_all (by decide +kernel)
  exact ⟨⟨_, rfl⟩, haccepted, by decide +kernel,
    units_meanLoops ⟨_, rfl⟩ (fun _ => 0) 100 _ haccepted⟩

end Lox
