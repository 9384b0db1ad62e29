import Lox.Proofs.Scoping.Places

/-!
# Places of accepted programs are in order

What resolution guarantees at every place of a program in which it found no fault.
The step is one lemma, from a fragment to those right inside it, with a case for each
form of tree; the run is the induction along the occurrences.
-/

namespace Lox

namespace Scope

variable {s : Scope} {name n : String}

theorem isDeclared_define_of_ne (h : n ≠ name) :
    (s.define name).isDeclared n = s.isDeclared n :=
  Bool.eq_iff_iff.mpr ((isDeclared_define s name n).trans (or_iff_right h))

theorem isDeclared_declare_of_ne (h : n ≠ name) :
    (s.declare name).isDeclared n = s.isDeclared n :=
  Bool.eq_iff_iff.mpr ((isDeclared_declare s name n).trans (or_iff_right h))

end Scope

namespace Scopes

theorem distanceTo?_cons (scope : Scope) (s : Scopes) (n : String) :
    Scopes.distanceTo? (scope :: s) n =
      if scope.isDeclared n then some 0 else (s.distanceTo? n).map (· + 1) :=
  List.findIdx?_cons

theorem distanceTo?_define_of_ne {s : Scopes} {name n : String} (h : n ≠ name) :
    (s.define name).distanceTo? n = s.distanceTo? n := by
  cases s with
  | nil => rfl
  | cons scope rest =>
      rw [define, distanceTo?_cons, distanceTo?_cons, Scope.isDeclared_define_of_ne h]

theorem distanceTo?_append (s outer : Scopes) (n : String) :
    Scopes.distanceTo? (s ++ outer) n =
      (s.distanceTo? n).or ((outer.distanceTo? n).map (· + s.length)) :=
  List.findIdx?_append

theorem distanceTo?_lt {s : Scopes} {n : String} {d : Nat} (h : s.distanceTo? n = some d) :
    d < s.length :=
  (List.findIdx?_eq_some_iff_findIdx_eq.mp h).1

/-- The scopes of a function are one more, whatever is around them. -/
theorem function_eq (name : Token) (params : List Token) :
    ∃ scope, ∀ s : Scopes, s.function name params = scope :: s := by
  have hfold : ∀ scope : Scope, ∃ scope', ∀ s : Scopes,
      params.foldl (fun (s : Scopes) t => s.define t.lexeme) (scope :: s) = scope' :: s := by
    induction params with
    | nil => exact fun scope => ⟨scope, fun _ => rfl⟩
    | cons t params ih => exact fun scope => ih (scope.define t.lexeme)
  exact hfold _

end Scopes

/-- A statement declares in the innermost scope, whatever is around it. -/
theorem Stmt.after_cons {δ : Type} (y : Stmt δ) (scope : Scope) :
    ∃ scope', ∀ rest : Scopes, y.after (scope :: rest) = scope' :: rest := by
  cases y with
  | varDecl name => exact ⟨scope.define name.lexeme, fun _ => rfl⟩
  | function d => exact ⟨scope.define d.name.lexeme, fun _ => rfl⟩
  | classDecl name => exact ⟨scope.define name.lexeme, fun _ => rfl⟩
  | _ => exact ⟨scope, fun _ => rfl⟩

namespace Place

/-! ## Order -/

/-- The scopes around a place in a class of kind `c` are in order. -/
structure Sound (p : Place) (c : ClassKind) : Prop where
  declared : ∀ l ∈ p, ∀ n, l.scope.isDeclared n = true → l.opening.Declares n
  settled : ∀ l ∈ p.tail, ∀ n, l.scope.isDeclared n = true → l.scope.isDefined n = true
  reserved : ∀ l ∈ p, ∀ n, n = thisName ∨ n = superName → l.scope.isDeclared n = true →
    l.scope.isDefined n = true
  receiver : ∀ d, p.scopes.distanceTo? superName = some d →
    ∃ d' l, d = d' + 1 ∧ p[d']? = some l ∧ l.scope.isDefined thisName = true
  this : c ≠ .none → (p.scopes.distanceTo? thisName).isSome = true
  super : c = .derived → (p.scopes.distanceTo? superName).isSome = true

/-- No name is pending. -/
def Settled (p : Place) : Prop :=
  ∀ l ∈ p, ∀ n, l.scope.isDeclared n = true → l.scope.isDefined n = true

/-- What the statement declares is declared by the innermost scope. -/
def Covers (p : Place) (s : Stmt Slot) : Prop :=
  ∀ t ∈ s.declared?, ∀ l ∈ p.head?, l.opening.Declares t.lexeme

variable {p : Place} {c : ClassKind} {t : Token}

theorem sound_nil : Sound [] .none where
  declared := fun _ h => nomatch h
  settled := fun _ h => nomatch h
  reserved := fun _ h => nomatch h
  receiver := fun _ h => nomatch h
  this := fun h => absurd rfl h
  super := fun h => nomatch h

theorem settled_nil : Settled [] :=
  fun _ h => nomatch h

/-- Changing the marks of one name keeps the order, if the name may be declared. -/
theorem Sound.change {l l' : Level} {rest : Place} (h : Sound (l :: rest) c) (ht : t.IsName)
    (hopening : l'.opening = l.opening) (hcovers : l.opening.Declares t.lexeme)
    (hdeclared : ∀ n, n ≠ t.lexeme → l'.scope.isDeclared n = l.scope.isDeclared n)
    (hdefined : ∀ n, n ≠ t.lexeme → l.scope.isDefined n = true → l'.scope.isDefined n = true) :
    Sound (l' :: rest) c := by
  have hdistance : ∀ n, n = thisName ∨ n = superName →
      (Place.scopes (l' :: rest)).distanceTo? n = (Place.scopes (l :: rest)).distanceTo? n := by
    intro n hn
    have hne : n ≠ t.lexeme := by
      rcases hn with rfl | rfl
      · exact ht.ne_this.symm
      · exact ht.ne_super.symm
    show Scopes.distanceTo? (l'.scope :: Place.scopes rest) n =
      Scopes.distanceTo? (l.scope :: Place.scopes rest) n
    rw [Scopes.distanceTo?_cons, Scopes.distanceTo?_cons, hdeclared n hne]
  refine ⟨fun m hm n hn => ?_, h.settled, fun m hm n hname hn => ?_, fun d hd => ?_, ?_, ?_⟩
  · rcases List.mem_cons.mp hm with rfl | hm
    · rw [hopening]
      by_cases hne : n = t.lexeme
      · exact hne ▸ hcovers
      · exact h.declared l List.mem_cons_self n (hdeclared n hne ▸ hn)
    · exact h.declared m (List.mem_cons_of_mem l hm) n hn
  · rcases List.mem_cons.mp hm with rfl | hm
    · have hne : n ≠ t.lexeme := by
        rcases hname with rfl | rfl
        · exact ht.ne_this.symm
        · exact ht.ne_super.symm
      exact hdefined n hne (h.reserved l List.mem_cons_self n hname (hdeclared n hne ▸ hn))
    · exact h.reserved m (List.mem_cons_of_mem l hm) n hname hn
  · rw [hdistance _ (.inr rfl)] at hd
    obtain ⟨d', m, rfl, hm, hthis⟩ := h.receiver d hd
    cases d' with
    | zero =>
        cases hm
        exact ⟨0, l', rfl, rfl, hdefined _ ht.ne_this.symm hthis⟩
    | succ d' => exact ⟨d' + 1, m, rfl, hm, hthis⟩
  · rw [hdistance _ (.inl rfl)]
    exact h.this
  · rw [hdistance _ (.inr rfl)]
    exact h.super

theorem Sound.define (h : p.Sound c) (ht : t.IsName)
    (hcovers : ∀ l ∈ p.head?, l.opening.Declares t.lexeme) : (p.define t.lexeme).Sound c := by
  cases p with
  | nil => exact h
  | cons l rest =>
      exact h.change ht rfl (hcovers l rfl) (fun _ hn => Scope.isDeclared_define_of_ne hn)
        fun n _ hn => (Scope.isDefined_define ..).mpr (.inr hn)

theorem Sound.declare (h : p.Sound c) (ht : t.IsName)
    (hcovers : ∀ l ∈ p.head?, l.opening.Declares t.lexeme) : (p.declare t.lexeme).Sound c := by
  cases p with
  | nil => exact h
  | cons l rest =>
      exact h.change ht rfl (hcovers l rfl) (fun _ hn => Scope.isDeclared_declare_of_ne hn)
        fun n hne hn => (Scope.isDefined_declare ..).mpr ⟨hne, hn⟩

theorem Settled.define (h : p.Settled) (name : String) : (p.define name).Settled := by
  cases p with
  | nil => exact h
  | cons l rest =>
      intro m hm n hn
      rcases List.mem_cons.mp hm with rfl | hm
      · refine (Scope.isDefined_define ..).mpr (((Scope.isDeclared_define ..).mp hn).imp_right ?_)
        exact h l List.mem_cons_self n
      · exact h m (List.mem_cons_of_mem l hm) n hn

theorem Settled.enter (h : p.Settled) (o : Opening) : (p.enter o).Settled := by
  intro l hl n hn
  rcases List.mem_cons.mp hl with rfl | hl
  · exact (o.isDefined_scope n).mpr ((o.isDeclared_scope n).mp hn)
  · exact h l hl n hn

/-- Entering a scope without names of the language keeps the order. -/
theorem Sound.enter (h : p.Sound c) (hs : p.Settled) {o : Opening}
    (ho : thisName ∉ o.initial ∧ superName ∉ o.initial) : (p.enter o).Sound c := by
  have hdistance : ∀ n, n ∉ o.initial →
      (p.enter o).scopes.distanceTo? n = (p.scopes.distanceTo? n).map (· + 1) := by
    intro n hn
    rw [scopes_enter, Scopes.distanceTo?_cons,
      if_neg fun hdeclared => hn ((o.isDeclared_scope n).mp hdeclared)]
  refine ⟨fun l hl n hn => ?_, hs, fun l hl n _ hn => hs.enter o l hl n hn, fun d hd => ?_, ?_, ?_⟩
  · rcases List.mem_cons.mp hl with rfl | hl
    · exact .inl ((o.isDeclared_scope n).mp hn)
    · exact h.declared l hl n hn
  · rw [hdistance _ ho.2, Option.map_eq_some_iff] at hd
    obtain ⟨d, hd, rfl⟩ := hd
    obtain ⟨d', l, rfl, hl, hthis⟩ := h.receiver d hd
    exact ⟨d' + 1, l, rfl, hl, hthis⟩
  · rw [hdistance _ ho.1, Option.isSome_map]
    exact h.this
  · rw [hdistance _ ho.2, Option.isSome_map]
    exact h.super

/-- Around a method there is the scope of the receiver, and in a class with a
superclass one for that just outside. -/
theorem Sound.methods (h : p.Sound c) (hs : p.Settled) (declaration : Stmt Slot)
    (superclass : Option (Reference Slot)) (f : FunDecl Slot) :
    ((p.inherit declaration superclass).enter (.receiver f)).Sound (.ofSuperclass superclass) := by
  have hthis : (Opening.receiver f).scope.isDeclared thisName = true :=
    (Opening.isDeclared_scope ..).mpr List.mem_cons_self
  have hreceiver : (Opening.receiver f).scope.isDefined thisName = true :=
    (Opening.isDefined_scope ..).mpr List.mem_cons_self
  have hsuper : (Opening.receiver f).scope.isDeclared superName = false := by
    refine Bool.eq_false_iff.mpr fun hdeclared => ?_
    have hmem := (Opening.isDeclared_scope ..).mp hdeclared
    exact absurd (List.mem_singleton.mp hmem) (by decide)
  have hinherit : (p.inherit declaration superclass).Settled := by
    cases superclass with
    | none => exact hs
    | some r => exact hs.enter _
  refine ⟨fun l hl n hn => ?_, hinherit, fun l hl n _ hn => hinherit.enter _ l hl n hn,
    fun d hd => ?_, fun _ => ?_, fun hc => ?_⟩
  · rcases List.mem_cons.mp hl with rfl | hl
    · exact .inl ((Opening.isDeclared_scope ..).mp hn)
    · cases superclass with
      | none => exact h.declared l hl n hn
      | some r =>
          rcases List.mem_cons.mp hl with rfl | hl
          · exact .inl ((Opening.isDeclared_scope ..).mp hn)
          · exact h.declared l hl n hn
  · rw [scopes_enter, Scopes.distanceTo?_cons, if_neg (by simp [hsuper]),
      Option.map_eq_some_iff] at hd
    obtain ⟨d, hd, rfl⟩ := hd
    cases superclass with
    | none =>
        obtain ⟨d', l, rfl, hl, hthis⟩ := h.receiver d hd
        exact ⟨d' + 1, l, rfl, hl, hthis⟩
    | some r =>
        have hzero : d = 0 := by
          rw [inherit, scopes_enter, Scopes.distanceTo?_cons,
            if_pos ((Opening.isDeclared_scope ..).mpr List.mem_cons_self)] at hd
          exact (Option.some.inj hd).symm
        exact ⟨0, _, by rw [hzero], rfl, hreceiver⟩
  · rw [scopes_enter, Scopes.distanceTo?_cons, if_pos hthis]
    rfl
  · cases superclass with
    | none => cases hc
    | some r =>
        rw [scopes_enter, Scopes.distanceTo?_cons, if_neg (by simp [hsuper]), inherit, scopes_enter,
          Scopes.distanceTo?_cons, if_pos ((Opening.isDeclared_scope ..).mpr List.mem_cons_self)]
        rfl

theorem covers_define {name : String} {s : Stmt Slot} :
    (p.define name).Covers s ↔ p.Covers s := by
  cases p with
  | nil => rfl
  | cons l rest => simp [Covers, define]

theorem covers_after {s s' : Stmt Slot} : (p.after s).Covers s' ↔ p.Covers s' := by
  rw [after]
  split
  · rfl
  · exact covers_define

end Place
end Lox
