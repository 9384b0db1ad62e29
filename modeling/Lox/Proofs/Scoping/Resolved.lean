import Lox.Proofs.Scoping.Order

/-!
# Fragments of accepted programs

Every fragment of an accepted program is what resolution makes of a well-formed tree
without faults, in the scopes of its place, and the place is in order.
-/

namespace Lox

/-! ## Resolution part by part -/

section

variable {c : ClassKind} {s : Scopes}

theorem Expr.resolveAll_eq (c : ClassKind) (s : Scopes) (es : List (Expr Unit)) :
    Expr.resolveAll c s es = es.map (Expr.resolve c s) := by
  induction es with
  | nil => rfl
  | cons e es ih => rw [resolveAll, ih, List.map_cons]

theorem FunDecl.resolveAll_eq (c : ClassKind) (s : Scopes) (fs : List (FunDecl Unit)) :
    FunDecl.resolveAll c s fs = fs.map (FunDecl.resolve c s) := by
  induction fs with
  | nil => rfl
  | cons f fs ih => rw [resolveAll, ih, List.map_cons]

theorem Expr.wellFormedAll_mem {δ : Type} {es : List (Expr δ)} (h : Expr.WellFormedAll es) :
    ∀ e ∈ es, e.WellFormed := by
  induction es with
  | nil => exact fun _ h => absurd h List.not_mem_nil
  | cons e es ih => exact List.forall_mem_cons.mpr ⟨h.1, ih h.2⟩

theorem FunDecl.wellFormedAll_mem {δ : Type} {fs : List (FunDecl δ)}
    (h : FunDecl.WellFormedAll fs) : ∀ f ∈ fs, f.WellFormed := by
  induction fs with
  | nil => exact fun _ h => absurd h List.not_mem_nil
  | cons f fs ih => exact List.forall_mem_cons.mpr ⟨h.1, ih h.2⟩

theorem Expr.scopeFaultsAll_mem {es : List (Expr Unit)} (h : Expr.scopeFaultsAll c s es = []) :
    ∀ e ∈ es, e.scopeFaults c s = [] := by
  induction es with
  | nil => exact fun _ h => absurd h List.not_mem_nil
  | cons e es ih =>
      obtain ⟨h, hs⟩ := List.append_eq_nil_iff.mp h
      exact List.forall_mem_cons.mpr ⟨h, ih hs⟩

theorem FunDecl.scopeFaultsAll_mem {fs : List (FunDecl Unit)}
    (h : FunDecl.scopeFaultsAll c s fs = []) :
    ∀ f ∈ fs, f.scopeFaults ⟨.ofMethod f.name.lexeme, c⟩ s = [] := by
  induction fs with
  | nil => exact fun _ h => absurd h List.not_mem_nil
  | cons f fs ih =>
      obtain ⟨h, hs⟩ := List.append_eq_nil_iff.mp h
      exact List.forall_mem_cons.mpr ⟨h, ih hs⟩

/-- The parts of a resolved expression are resolved. -/
theorem Expr.parts_resolve (y : Expr Unit) (hw : y.WellFormed) (hf : y.scopeFaults c s = []) :
    ∀ x ∈ (y.resolve c s).parts,
      ∃ z : Expr Unit, z.WellFormed ∧ z.scopeFaults c s = [] ∧ x = z.resolve c s := by
  have hall : ∀ es : List (Expr Unit), Expr.WellFormedAll es → Expr.scopeFaultsAll c s es = [] →
      ∀ x ∈ Expr.resolveAll c s es,
        ∃ z : Expr Unit, z.WellFormed ∧ z.scopeFaults c s = [] ∧ x = z.resolve c s := by
    intro es hw hf x hx
    rw [resolveAll_eq, List.mem_map] at hx
    obtain ⟨z, hz, rfl⟩ := hx
    exact ⟨z, wellFormedAll_mem hw z hz, scopeFaultsAll_mem hf z hz, rfl⟩
  cases y with
  | literal | var | thisRef | superRef => exact fun _ h => nomatch h
  | unary operator a =>
      intro x hx
      rw [List.mem_singleton.mp hx]
      exact ⟨a, hw, hf, rfl⟩
  | grouping a =>
      intro x hx
      rw [List.mem_singleton.mp hx]
      exact ⟨a, hw, hf, rfl⟩
  | get a name =>
      intro x hx
      rw [List.mem_singleton.mp hx]
      exact ⟨a, hw, hf, rfl⟩
  | assign name slot a =>
      intro x hx
      rw [List.mem_singleton.mp hx]
      exact ⟨a, hw.2, hf, rfl⟩
  | binary a operator b =>
      obtain ⟨ha, hb⟩ := List.append_eq_nil_iff.mp hf
      exact List.forall_mem_cons.mpr ⟨⟨a, hw.1, ha, rfl⟩,
        List.forall_mem_singleton.mpr ⟨b, hw.2, hb, rfl⟩⟩
  | logical a operator b =>
      obtain ⟨ha, hb⟩ := List.append_eq_nil_iff.mp hf
      exact List.forall_mem_cons.mpr ⟨⟨a, hw.1, ha, rfl⟩,
        List.forall_mem_singleton.mpr ⟨b, hw.2, hb, rfl⟩⟩
  | set a name b =>
      obtain ⟨hb, ha⟩ := List.append_eq_nil_iff.mp hf
      exact List.forall_mem_cons.mpr ⟨⟨a, hw.1, ha, rfl⟩,
        List.forall_mem_singleton.mpr ⟨b, hw.2, hb, rfl⟩⟩
  | conditional a b d =>
      obtain ⟨hab, hd⟩ := List.append_eq_nil_iff.mp hf
      obtain ⟨ha, hb⟩ := List.append_eq_nil_iff.mp hab
      exact List.forall_mem_cons.mpr ⟨⟨a, hw.1, ha, rfl⟩,
        List.forall_mem_cons.mpr ⟨⟨b, hw.2.1, hb, rfl⟩,
          List.forall_mem_singleton.mpr ⟨d, hw.2.2, hd, rfl⟩⟩⟩
  | call a paren es =>
      obtain ⟨ha, hes⟩ := List.append_eq_nil_iff.mp hf
      exact List.forall_mem_cons.mpr ⟨⟨a, hw.1, ha, rfl⟩, hall es hw.2 hes⟩
  | vector bracket es => exact hall es hw hf

theorem FunDecl.name_resolve (f : FunDecl Unit) : (f.resolve c s).name = f.name := by
  cases f
  rfl

theorem Stmt.declared?_resolve (y : Stmt Unit) : (y.resolve c s).declared? = y.declared? := by
  cases y with
  | function f => exact congrArg some (FunDecl.name_resolve f)
  | _ => rfl

theorem Stmt.after_eq {δ : Type} (y : Stmt δ) (s : Scopes) :
    y.after s = match y.declared? with
      | none => s
      | some t => s.define t.lexeme := by
  cases y <;> rfl

theorem Stmt.after_resolve (y : Stmt Unit) (s' : Scopes) :
    (y.resolve c s).after s' = y.after s' := by
  rw [Stmt.after_eq, Stmt.after_eq, declared?_resolve]

theorem FunDecl.WellFormed.name {δ : Type} {f : FunDecl δ} (h : f.WellFormed) : f.name.IsName := by
  cases f
  exact h.1

/-! ## Resolution keeps trees well-formed -/

mutual

theorem Expr.WellFormed.resolve (c : ClassKind) (s : Scopes) {e : Expr Unit} (h : e.WellFormed) :
    (e.resolve c s).WellFormed := by
  match e with
  | .literal _ => exact trivial
  | .unary _ a => exact Expr.WellFormed.resolve c s (e := a) h
  | .binary _ _ _ => exact ⟨h.1.resolve c s, h.2.resolve c s⟩
  | .logical _ _ _ => exact ⟨h.1.resolve c s, h.2.resolve c s⟩
  | .conditional _ _ _ => exact ⟨h.1.resolve c s, h.2.1.resolve c s, h.2.2.resolve c s⟩
  | .grouping a => exact Expr.WellFormed.resolve c s (e := a) h
  | .var _ _ => exact h
  | .assign _ _ _ => exact ⟨h.1, h.2.resolve c s⟩
  | .call _ _ _ => exact ⟨h.1.resolve c s, Expr.WellFormedAll.resolve c s h.2⟩
  | .get a _ => exact Expr.WellFormed.resolve c s (e := a) h
  | .set _ _ _ => exact ⟨h.1.resolve c s, h.2.resolve c s⟩
  | .thisRef _ _ => exact h
  | .superRef _ _ _ => exact h
  | .vector _ es =>
      have hes : Expr.WellFormedAll es := h
      exact Expr.WellFormedAll.resolve c s hes

theorem Expr.WellFormedAll.resolve (c : ClassKind) (s : Scopes) {es : List (Expr Unit)}
    (h : Expr.WellFormedAll es) : Expr.WellFormedAll (Expr.resolveAll c s es) := by
  match es with
  | [] => exact trivial
  | _ :: _ => exact ⟨h.1.resolve c s, Expr.WellFormedAll.resolve c s h.2⟩

end

theorem Expr.WellFormedOption.resolve (c : ClassKind) (s : Scopes) {e : Option (Expr Unit)}
    (h : Expr.WellFormedOption e) : Expr.WellFormedOption (e.map (Expr.resolve c s)) := by
  cases e with
  | none => exact trivial
  | some e => exact Expr.WellFormed.resolve c s (e := e) h

mutual

theorem Stmt.WellFormed.resolve (c : ClassKind) (s : Scopes) {y : Stmt Unit} (h : y.WellFormed) :
    (y.resolve c s).WellFormed := by
  match y with
  | .expression e => exact Expr.WellFormed.resolve c s (e := e) h
  | .print e => exact Expr.WellFormed.resolve c s (e := e) h
  | .varDecl _ _ => exact ⟨h.1, h.2.resolve c _⟩
  | .block body =>
      have hbody : Stmt.WellFormedAll body := h
      exact Stmt.WellFormedAll.resolve c _ hbody
  | .ifThen _ _ =>
      exact ⟨h.1.resolve c s, h.2.1.resolve c s, (Stmt.declared?_resolve _).trans h.2.2⟩
  | .ifElse _ _ _ =>
      exact ⟨h.1.resolve c s,
        ⟨h.2.1.1.resolve c s, (Stmt.declared?_resolve _).trans h.2.1.2⟩,
        h.2.2.1.resolve c s, (Stmt.declared?_resolve _).trans h.2.2.2⟩
  | .whileLoop _ _ =>
      exact ⟨h.1.resolve c s, h.2.1.resolve c s, (Stmt.declared?_resolve _).trans h.2.2⟩
  | .function f => exact FunDecl.WellFormed.resolve c _ (f := f) h
  | .ret _ value => exact Expr.WellFormedOption.resolve c s (e := value) h
  | .classDecl _ superclass _ =>
      refine ⟨h.1, fun r hr => ?_, FunDecl.WellFormedAll.resolve _ _ h.2.2⟩
      obtain ⟨parent, hparent, rfl⟩ := Option.map_eq_some_iff.mp hr
      exact h.2.1 parent hparent

theorem Stmt.WellFormedAll.resolve (c : ClassKind) (s : Scopes) {ys : List (Stmt Unit)}
    (h : Stmt.WellFormedAll ys) : Stmt.WellFormedAll (Stmt.resolveAll c s ys) := by
  match ys with
  | [] => exact trivial
  | _ :: _ => exact ⟨h.1.resolve c s, Stmt.WellFormedAll.resolve c _ h.2⟩

theorem FunDecl.WellFormed.resolve (c : ClassKind) (s : Scopes) {f : FunDecl Unit}
    (h : f.WellFormed) : (f.resolve c s).WellFormed := by
  match f with
  | .mk _ _ _ => exact ⟨h.1, h.2.1, Stmt.WellFormedAll.resolve c _ h.2.2⟩

theorem FunDecl.WellFormedAll.resolve (c : ClassKind) (s : Scopes) {fs : List (FunDecl Unit)}
    (h : FunDecl.WellFormedAll fs) : FunDecl.WellFormedAll (FunDecl.resolveAll c s fs) := by
  match fs with
  | [] => exact trivial
  | _ :: _ => exact ⟨h.1.resolve c s, FunDecl.WellFormedAll.resolve c s h.2⟩

end

/-- An accepted program is well-formed. -/
theorem Accepted.wellFormed {program : List (Stmt Slot)} (h : Accepted program) :
    Stmt.WellFormedAll program := by
  obtain ⟨parsed, hw, _, rfl⟩ := h
  exact hw.resolve .none []

/-- What a well-formed statement declares is a name. -/
theorem Stmt.WellFormed.declared {y : Stmt Unit} (h : y.WellFormed) :
    ∀ t ∈ y.declared?, t.IsName := by
  intro t ht
  cases y with
  | varDecl name initializer =>
      cases ht
      exact h.1
  | function f =>
      cases ht
      exact FunDecl.WellFormed.name h
  | classDecl name superclass methods =>
      cases ht
      exact h.1
  | _ => cases ht

end

namespace Fragment

open Place

/-- The fragment is resolved without faults in the scopes of its place. -/
def Resolved (p : Place) : Fragment → Prop
  | .expr e => ∃ (c : ClassKind) (y : Expr Unit), p.Sound c ∧ y.WellFormed ∧
      y.scopeFaults c p.scopes = [] ∧ e = y.resolve c p.scopes
  | .stmt s => ∃ (around : Surroundings) (y : Stmt Unit), p.Sound around.cls ∧ p.Settled ∧
      p.Covers s ∧ y.WellFormed ∧ y.scopeFaults around p.scopes = [] ∧
      s = y.resolve around.cls p.scopes
  | .body ss => ∃ (around : Surroundings) (ys : List (Stmt Unit)), p.Sound around.cls ∧
      p.Settled ∧ (∀ s ∈ ss, p.Covers s) ∧ Stmt.WellFormedAll ys ∧
      Stmt.scopeFaultsAll around p.scopes ys = [] ∧ ss = Stmt.resolveAll around.cls p.scopes ys
  | .function f => ∃ (around : Surroundings) (y : FunDecl Unit), p.Sound around.cls ∧
      p.Settled ∧ y.WellFormed ∧ y.scopeFaults around p.scopes = [] ∧
      f = y.resolve around.cls p.scopes

variable {p q : Place} {x : Fragment}

theorem resolved_part {e : Expr Slot} (h : Resolved p (.expr e))
    (hx : (q, x) ∈ inside p (.expr e)) : Resolved q x := by
  obtain ⟨c, y, hp, hw, hf, rfl⟩ := h
  obtain ⟨part, hpart, heq⟩ := List.mem_map.mp hx
  cases heq
  obtain ⟨z, hzw, hzf, rfl⟩ := y.parts_resolve hw hf part hpart
  exact ⟨c, z, hp, hzw, hzf, rfl⟩

theorem resolved_next {ss : List (Stmt Slot)} (h : Resolved p (.body ss))
    (hx : (q, x) ∈ inside p (.body ss)) : Resolved q x := by
  obtain ⟨around, ys, hp, hs, hcovers, hw, hf, rfl⟩ := h
  cases ys with
  | nil => cases hx
  | cons y ys =>
      obtain ⟨hy, hys⟩ := List.append_eq_nil_iff.mp hf
      have hcover := hcovers _ List.mem_cons_self
      rcases List.mem_cons.mp hx with heq | hx
      · cases heq
        exact ⟨around, y, hp, hs, hcover, hw.1, hy, rfl⟩
      · cases List.mem_singleton.mp hx
        have hscopes : (p.after (y.resolve around.cls p.scopes)).scopes = y.after p.scopes := by
          rw [scopes_after, Stmt.after_resolve]
        have hafter : (p.after (y.resolve around.cls p.scopes)).Sound around.cls ∧
            (p.after (y.resolve around.cls p.scopes)).Settled := by
          have hname := hw.1.declared
          rw [← Stmt.declared?_resolve (c := around.cls) (s := p.scopes)] at hname
          rw [Place.after]
          split
          · exact ⟨hp, hs⟩
          · next t ht =>
              exact ⟨hp.define (hname t ht) (hcover t ht), hs.define t.lexeme⟩
        refine ⟨around, ys, hafter.1, hafter.2, fun s hs => covers_after.mpr ?_, hw.2, ?_, ?_⟩
        · exact hcovers s (List.mem_cons_of_mem _ hs)
        · rw [hscopes]
          exact hys
        · rw [hscopes]

theorem not_mem_initial_call {f : FunDecl Slot} (h : ∀ t ∈ f.params, t.IsName) :
    thisName ∉ (Opening.call f).initial ∧ superName ∉ (Opening.call f).initial := by
  constructor
  · intro hmem
    obtain ⟨t, ht, heq⟩ := List.mem_map.mp hmem
    exact (h t ht).ne_this heq
  · intro hmem
    obtain ⟨t, ht, heq⟩ := List.mem_map.mp hmem
    exact (h t ht).ne_super heq

theorem resolved_call {f : FunDecl Slot} (h : Resolved p (.function f))
    (hx : (q, x) ∈ inside p (.function f)) : Resolved q x := by
  obtain ⟨around, y, hp, hs, hw, hf, rfl⟩ := h
  cases y with
  | mk name params body =>
      cases List.mem_singleton.mp hx
      obtain ⟨_, hbody⟩ := List.append_eq_nil_iff.mp hf
      have hscopes := scopes_function p
        (FunDecl.resolve around.cls p.scopes (.mk name params body))
      refine ⟨around, body, hp.enter hs (not_mem_initial_call hw.2.1), hs.enter _, ?_, hw.2.2,
        ?_, ?_⟩
      · intro s hmem t ht l hl
        cases hl
        exact .inr ⟨s, hmem, t, ht, rfl⟩
      · rw [hscopes]
        exact hbody
      · rw [hscopes]
        rfl

/-- A name that is not pending may be referred to. -/
theorem isPending_eq_false (hs : p.Settled) (n : String) : p.scopes.isPending n = false := by
  cases p with
  | nil => rfl
  | cons l rest =>
      show (l.scope.isDeclared n && !l.scope.isDefined n) = false
      cases hdeclared : l.scope.isDeclared n with
      | false => rfl
      | true => rw [hs l List.mem_cons_self n hdeclared]; rfl

theorem methods_map (s : Scopes) (superclass : Option (Reference Unit))
    (f : Reference Unit → Reference Slot) :
    s.methods (superclass.map f) = s.methods superclass := by
  cases superclass <;> rfl

theorem ofSuperclass_map (superclass : Option (Reference Unit))
    (f : Reference Unit → Reference Slot) :
    ClassKind.ofSuperclass (superclass.map f) = .ofSuperclass superclass := by
  cases superclass <;> rfl

theorem resolved_class {around : Surroundings} {name : Token}
    {superclass : Option (Reference Unit)} {methods : List (FunDecl Unit)} (hp : p.Sound around.cls)
    (hs : p.Settled)
    (hcover : p.Covers ((Stmt.classDecl name superclass methods).resolve around.cls p.scopes))
    (hw : (Stmt.classDecl name superclass methods).WellFormed)
    (hf : (Stmt.classDecl name superclass methods).scopeFaults around p.scopes = [])
    (hx : (q, x) ∈ inside p
      (.stmt ((Stmt.classDecl name superclass methods).resolve around.cls p.scopes))) :
    Resolved q x := by
  obtain ⟨hfhead, hfmethods⟩ := List.append_eq_nil_iff.mp hf
  obtain ⟨_, hfsuper⟩ := List.append_eq_nil_iff.mp hfhead
  have hdefined : (p.define name.lexeme).Sound around.cls := hp.define hw.1 (hcover name rfl)
  rcases List.mem_append.mp hx with hx | hx
  · obtain ⟨r, hr, heq⟩ := List.mem_map.mp hx
    cases heq
    cases superclass with
    | none => cases hr
    | some parent =>
        cases List.mem_singleton.mp hr
        obtain ⟨hself, _⟩ := List.append_eq_nil_iff.mp hfsuper
        have hne : parent.name.lexeme ≠ name.lexeme := fun h => by simp [h] at hself
        refine ⟨around.cls, .var parent.name (), hp, hw.2.1 parent rfl, ?_, ?_⟩
        · simp only [Expr.scopeFaults, isPending_eq_false hs]
          rfl
        · simp only [Reference.resolve, Scopes.distanceTo?_define_of_ne hne, Expr.resolve]
  · obtain ⟨f, hmem, heq⟩ := List.mem_map.mp hx
    cases heq
    rw [FunDecl.resolveAll_eq, List.mem_map] at hmem
    obtain ⟨y, hy, rfl⟩ := hmem
    have hmethods := hdefined.methods (hs.define name.lexeme)
      ((Stmt.classDecl name superclass methods).resolve around.cls p.scopes)
      (superclass.map (Reference.resolve (p.scopes.define name.lexeme)))
    have hsettled : ((p.define name.lexeme).inherit
        ((Stmt.classDecl name superclass methods).resolve around.cls p.scopes)
        (superclass.map (Reference.resolve (p.scopes.define name.lexeme)))).Settled := by
      cases superclass with
      | none => exact hs.define _
      | some r => exact (hs.define _).enter _
    refine ⟨⟨.ofMethod y.name.lexeme, .ofSuperclass superclass⟩, y, ?_, hsettled.enter _,
      FunDecl.wellFormedAll_mem hw.2.2 y hy, ?_, ?_⟩
    · have hsound := hmethods (y.resolve (.ofSuperclass superclass)
        ((p.scopes.define name.lexeme).methods superclass))
      rwa [ofSuperclass_map] at hsound
    · rw [scopes_methods, scopes_define, methods_map]
      exact FunDecl.scopeFaultsAll_mem hfmethods y hy
    · rw [scopes_methods, scopes_define, methods_map]

theorem resolved_stmt {s : Stmt Slot} (h : Resolved p (.stmt s))
    (hx : (q, x) ∈ inside p (.stmt s)) : Resolved q x := by
  obtain ⟨around, y, hp, hs, hcover, hw, hf, rfl⟩ := h
  have hbranch : ∀ b : Stmt Unit, b.WellFormed → b.declared? = none →
      b.scopeFaults around p.scopes = [] →
      Resolved p (.stmt (b.resolve around.cls p.scopes)) := by
    intro b hbw hbd hbf
    refine ⟨around, b, hp, hs, fun t ht => ?_, hbw, hbf, rfl⟩
    rw [Stmt.declared?_resolve, hbd] at ht
    cases ht
  cases y with
  | expression e =>
      cases List.mem_singleton.mp hx
      exact ⟨around.cls, e, hp, hw, hf, rfl⟩
  | print e =>
      cases List.mem_singleton.mp hx
      exact ⟨around.cls, e, hp, hw, hf, rfl⟩
  | varDecl name initializer =>
      cases initializer with
      | none => cases hx
      | some e =>
          cases List.mem_singleton.mp hx
          obtain ⟨_, hf⟩ := List.append_eq_nil_iff.mp hf
          refine ⟨around.cls, e, hp.declare hw.1 (hcover name rfl), hw.2, ?_, ?_⟩
          · rw [scopes_declare]
            exact hf
          · rw [scopes_declare]
  | block body =>
      cases List.mem_singleton.mp hx
      refine ⟨around, body, hp.enter hs ⟨List.not_mem_nil, List.not_mem_nil⟩, hs.enter _, ?_,
        hw, hf, rfl⟩
      intro s hmem t ht l hl
      cases hl
      exact .inr ⟨s, hmem, t, ht, rfl⟩
  | ifThen condition thenBranch =>
      obtain ⟨hc, ha⟩ := List.append_eq_nil_iff.mp hf
      rcases List.mem_cons.mp hx with heq | hx
      · cases heq
        exact ⟨around.cls, condition, hp, hw.1, hc, rfl⟩
      · cases List.mem_singleton.mp hx
        exact hbranch _ hw.2.1 hw.2.2 ha
  | ifElse condition thenBranch elseBranch =>
      obtain ⟨hca, hb⟩ := List.append_eq_nil_iff.mp hf
      obtain ⟨hc, ha⟩ := List.append_eq_nil_iff.mp hca
      obtain ⟨hwc, ⟨hwa, hda⟩, hwb, hdb⟩ := hw
      rcases List.mem_cons.mp hx with heq | hx
      · cases heq
        exact ⟨around.cls, condition, hp, hwc, hc, rfl⟩
      rcases List.mem_cons.mp hx with heq | hx
      · cases heq
        exact hbranch _ hwa hda ha
      · cases List.mem_singleton.mp hx
        exact hbranch _ hwb hdb hb
  | whileLoop condition body =>
      obtain ⟨hc, ha⟩ := List.append_eq_nil_iff.mp hf
      rcases List.mem_cons.mp hx with heq | hx
      · cases heq
        exact ⟨around.cls, condition, hp, hw.1, hc, rfl⟩
      · cases List.mem_singleton.mp hx
        exact hbranch _ hw.2.1 hw.2.2 ha
  | function f =>
      cases List.mem_singleton.mp hx
      obtain ⟨_, hf⟩ := List.append_eq_nil_iff.mp hf
      have hname : (f.resolve around.cls (p.scopes.define f.name.lexeme)).name = f.name :=
        FunDecl.name_resolve f
      rw [hname]
      refine ⟨{ around with function := .function }, f, ?_, hs.define _, hw, ?_, ?_⟩
      · refine hp.define (FunDecl.WellFormed.name hw) (hcover f.name ?_)
        rw [Stmt.declared?_resolve]
        rfl
      · rw [scopes_define]
        exact hf
      · rw [scopes_define]
  | ret keyword value =>
      cases value with
      | none => cases hx
      | some e =>
          cases List.mem_singleton.mp hx
          obtain ⟨_, hf⟩ := List.append_eq_nil_iff.mp hf
          exact ⟨around.cls, e, hp, hw, hf, rfl⟩
  | classDecl name superclass methods => exact resolved_class hp hs hcover hw hf hx

/-- The fragments inside one that is resolved are resolved. -/
theorem Resolved.inside {y : Fragment} (h : y.Resolved p) (hx : (q, x) ∈ y.inside p) :
    x.Resolved q := by
  cases y with
  | expr e => exact resolved_part h hx
  | stmt s => exact resolved_stmt h hx
  | body ss => exact resolved_next h hx
  | function f => exact resolved_call h hx

end Fragment

/-- Every fragment of accepted programs is resolved, in a place that is in order. -/
theorem Occurs.resolved {programs : List (List (Stmt Slot))} {p : Place} {x : Fragment}
    (haccepted : ∀ program ∈ programs, Accepted program) (h : Occurs programs p x) :
    x.Resolved p := by
  induction h with
  | program hmem =>
      obtain ⟨parsed, hw, hf, rfl⟩ := haccepted _ hmem
      refine ⟨{}, parsed, Place.sound_nil, Place.settled_nil, ?_, hw, hf, rfl⟩
      intro _ _ _ _ _ hl
      cases hl
  | inside _ hx ih => exact ih.inside hx

end Lox
