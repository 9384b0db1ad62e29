import Lox.Proofs.Renaming.Occurrences
import Lox.Proofs.Simulation.Comparison
import Lox.Proofs.Simulation.Evaluation
import Lox.Proofs.Simulation.Plain
import Mathlib.Logic.Equiv.Basic

/-!
# Frames of a scope with another name in it

One variable of a program has another name in the second run. Whenever its scope is
entered, the frame that is made binds the new name where it binds the old one in the first
run. All other frames are the same in both.
-/

namespace Lox
namespace Renaming

/-- Two names change places, if the condition holds. That they change places, where one
of them comes to the place of the other, keeps different names different. -/
def exchange (x y : String) (b : Bool) : Equiv.Perm String :=
  if b then Equiv.swap x y else Equiv.refl String

variable {x y n : String} {b : Bool}

@[simp]
theorem exchange_false : exchange x y false n = n :=
  rfl

theorem exchange_of_ne (hx : n ≠ x) (hy : n ≠ y) : exchange x y b n = n := by
  rw [exchange]
  split
  · exact Equiv.swap_apply_of_ne_of_ne hx hy
  · rfl

@[simp]
theorem exchange_left : exchange x y true x = y :=
  Equiv.swap_apply_left x y

/-- What is known about the frames of both runs, which have the same numbers. -/
structure World where
  size : Nat
  /-- The frames of the scope of the variable. -/
  renamed : List Nat

/-- The second world knows all that the first does. -/
structure Later (w w' : World) : Prop where
  size : w.size ≤ w'.size
  renamed : ∀ k < w.size, k ∈ w'.renamed ↔ k ∈ w.renamed

/-- Where the second run keeps a variable. -/
def placement (x y : String) (renamed : List Nat) : Placement where
  place k n := (k, exchange x y (decide (k ∈ renamed)) n)
  injective := by
    intro k j n m h
    obtain ⟨rfl, h⟩ := Prod.mk.inj h
    exact ⟨rfl, (exchange x y _).injective h⟩

/-- Environments in which the frames of the scope are at the levels that are marked. -/
structure Around (w : World) (levels : List Bool) (E E' : Env) : Prop where
  same : E = E'
  made : ∀ k ∈ E, k < w.size
  levels : ∀ d k, E[d]? = some k → (k ∈ w.renamed ↔ levels.getD d false = true)

/-- References to the same variable. -/
inductive Refers (x y : String) (levels : List Bool) : Expr Slot → Expr Slot → Prop
  | var {t t' : Token} {slot : Slot} :
      t'.lexeme = exchange x y (leadsTo levels slot) t.lexeme →
      Refers x y levels (.var t slot) (.var t' slot)
  | assign {t t' : Token} {slot : Slot} {e e' : Expr Slot} :
      t'.lexeme = exchange x y (leadsTo levels slot) t.lexeme →
      Refers x y levels (.assign t slot e) (.assign t' slot e')
  | thisRef {t t' : Token} {slot : Slot} :
      t'.lexeme = exchange x y (leadsTo levels slot) t.lexeme →
      Refers x y levels (.thisRef t slot) (.thisRef t' slot)
  | superRef {t t' method method' : Token} {slot : Slot} :
      (∀ d, slot = some d → superName = exchange x y (leadsTo levels (some d)) superName ∧
        thisName = exchange x y (leadsTo levels (some (d - 1))) thisName) →
      Refers x y levels (.superRef t method slot) (.superRef t' method' slot)

/-- The stores of both runs. -/
structure Store (x y : String) (w : World) (V : ValueRelation) (F F' : Frames Value) : Prop where
  relates : (placement x y w.renamed).Relates V F F'
  size : F.size = w.size
  size' : F'.size = w.size
  global : 0 < w.size
  made : ∀ k ∈ w.renamed, 0 < k ∧ k < w.size

variable {w w' : World} {V V' : ValueRelation} {F F' : Frames Value} {E E' : Env}
  {levels : List Bool}

theorem Later.refl (w : World) : Later w w :=
  ⟨Nat.le_refl _, fun _ _ => Iff.rfl⟩

theorem Later.trans {u v w : World} (h : Later u v) (h' : Later v w) : Later u w :=
  ⟨Nat.le_trans h.size h'.size, fun k hk =>
    (h'.renamed k (Nat.lt_of_lt_of_le hk h.size)).trans (h.renamed k hk)⟩

theorem Around.later (h : Around w levels E E') (hw : Later w w') : Around w' levels E E' where
  same := h.same
  made k hk := Nat.lt_of_lt_of_le (h.made k hk) hw.size
  levels d k hk := (hw.renamed k (h.made k (List.mem_of_getElem? hk))).trans (h.levels d k hk)

theorem Around.place (h : Around w levels E E') {d k : Nat} (hk : E[d]? = some k) (n : String) :
    (placement x y w.renamed).place k n = (k, exchange x y (levels.getD d false) n) := by
  have hlevel : decide (k ∈ w.renamed) = levels.getD d false := by
    rw [Bool.eq_iff_iff, decide_eq_true_iff]
    exact h.levels d k hk
  simp only [placement, hlevel]

namespace Store

theorem imp (h : Store x y w V F F') (hV : V.Extends V') : Store x y w V' F F' :=
  ⟨h.relates.imp hV, h.size, h.size', h.global, h.made⟩

theorem place_global (h : Store x y w V F F') (n : String) :
    (placement x y w.renamed).place 0 n = (0, n) := by
  have hzero : decide (0 ∈ w.renamed) = false :=
    decide_eq_false fun hmem => Nat.lt_irrefl 0 (h.made 0 hmem).1
  simp only [placement, hzero, exchange_false]

theorem bind (h : Store x y w V F F') {k : Nat} {n n' : String}
    (hplace : (placement x y w.renamed).place k n = (k, n')) {v v' : Value} (hv : V v v') :
    Store x y w V (F.bind k n v) (F'.bind k n' v') := by
  rcases Nat.lt_or_ge k F.size with hk | hk
  · exact ⟨h.relates.bind hplace hk (h.size'.trans h.size.symm ▸ hk) hv,
      (F.size_bind k n v).trans h.size, (F'.size_bind k n' v').trans h.size', h.global, h.made⟩
  · have hk' : F'.size ≤ k := h.size'.trans h.size.symm ▸ hk
    refine ⟨fun j m => ?_, (F.size_bind k n v).trans h.size, (F'.size_bind k n' v').trans h.size',
      h.global, h.made⟩
    rw [F.binding?_bind_of_size_le hk, F'.binding?_bind_of_size_le hk']
    exact h.relates j m

theorem define (h : Store x y w V F F') (hE : Around w levels E E') {n n' : String}
    (hn : n' = exchange x y (levels.headD false) n) {v v' : Value} (hv : V v v') :
    Store x y w V (F.define E n v) (F'.define E' n' v') := by
  obtain rfl := hE.same
  cases E with
  | nil => exact h
  | cons k E =>
      refine h.bind ((hE.place (d := 0) rfl n).trans ?_) hv
      rw [hn, List.headD_eq_getD]

theorem defineAll (h : Store x y w V F F') (hE : Around w levels E E') (l : List String)
    {vs vs' : List Value} (hvs : List.Forall₂ V vs vs') :
    Store x y w V (F.defineAll E (l.zip vs))
      (F'.defineAll E' ((l.map (exchange x y (levels.headD false))).zip vs')) := by
  induction hvs generalizing l F F' with
  | nil => cases l <;> exact h
  | cons hv _ ih =>
      cases l with
      | nil => exact h
      | cons n l => exact ih (h.define hE rfl hv) l

theorem seek (h : Store x y w V F F') (hE : Around w levels E E') {slot : Slot} {n n' : String}
    (hn : n' = exchange x y (leadsTo levels slot) n) :
    SameSearch True V (F.seek E n slot) (F'.seek E' n' slot) := by
  obtain rfl := hE.same
  cases slot with
  | none =>
      rw [hn]
      exact h.relates.seek_global (h.place_global n) E E
  | some d =>
      cases hk : E[d]? with
      | none =>
          simp only [Frames.seek, Frames.getAt, hk]
          exact .misplaced trivial
      | some k => exact hn ▸ h.relates.seek_local (hE.place hk n) hk hk

/-- The frame that an assignment changes, in both runs. -/
theorem target (h : Store x y w V F F') (hE : Around w levels E E') {slot : Slot}
    {n n' : String} (hn : n' = exchange x y (leadsTo levels slot) n) :
    SameSearch True
      (fun id id' => ∀ V' v v', V.Extends V' → V' v v' →
        Store x y w V' (F.bind id n v) (F'.bind id' n' v'))
      (F.target E n slot) (F'.target E' n' slot) := by
  obtain rfl := hE.same
  cases slot with
  | none =>
      have hfound := h.relates.target_global (h.place_global n) E E
      rw [show n' = n from hn]
      generalize F.target E n none = a at hfound
      generalize F'.target E n none = a' at hfound
      cases hfound with
      | misplaced hmiss => exact .misplaced hmiss
      | undefined => exact .undefined
      | found hid =>
          obtain ⟨rfl, rfl⟩ := hid
          exact .found fun V' v v' hV hv => (h.imp hV).bind (h.place_global n) hv
  | some d =>
      cases hk : E[d]? with
      | none =>
          simp only [Frames.target, hk]
          exact .misplaced trivial
      | some k =>
          simp only [Frames.target, hk]
          exact .found fun V' v v' hV hv => (h.imp hV).bind (hn ▸ hE.place hk n) hv

/-- A scope that is opened, in both runs. -/
theorem enter (h : Store x y w V F F') (hE : Around w levels E E') (b : Bool)
    (label label' : String) (l : List String) :
    ∃ w', Later w w' ∧ Around w' (b :: levels) (F.enter label E).1 (F'.enter label' E').1 ∧
      ∀ V' vs vs', V.Extends V' → List.Forall₂ V' vs vs' →
        Store x y w' V' ((F.enter label E).2.defineAll (F.enter label E).1 (l.zip vs))
          ((F'.enter label' E').2.defineAll (F'.enter label' E').1
            ((l.map (exchange x y b)).zip vs')) := by
  let w' : World := ⟨w.size + 1, if b then w.size :: w.renamed else w.renamed⟩
  have hnew : w.size ∉ w.renamed := fun hmem => Nat.lt_irrefl _ (h.made _ hmem).2
  have hmem : ∀ k, k ∈ w'.renamed ↔ (k = w.size ∧ b = true) ∨ k ∈ w.renamed := by
    intro k
    cases b <;> simp [w']
  have hlater : Later w w' := by
    refine ⟨Nat.le_succ _, fun k hk => ?_⟩
    rw [hmem]
    exact or_iff_right fun heq => Nat.ne_of_lt hk heq.1
  have haround : Around w' (b :: levels) (F.enter label E).1 (F'.enter label' E').1 := by
    have hE' := hE.later hlater
    rw [Frames.env_enter, Frames.env_enter, h.size, h.size']
    refine ⟨congrArg _ hE'.same, fun k hk => ?_, fun d k hk => ?_⟩
    · rcases List.mem_cons.mp hk with rfl | hk
      · exact Nat.lt_succ_self _
      · exact hE'.made k hk
    · cases d with
      | zero =>
          obtain rfl : w.size = k := Option.some.inj hk
          rw [hmem]
          simp [hnew]
      | succ d => exact hE'.levels d k hk
  refine ⟨w', hlater, haround, fun V' vs vs' hV hvs => ?_⟩
  have hentered : Store x y w' V' (F.enter label E).2 (F'.enter label' E').2 := by
    refine ⟨?_, ?_, ?_, Nat.succ_pos _, fun k hk => ?_⟩
    · refine ((h.imp hV).relates.extend (fun k n hk => ?_) fun k n hk => ?_).enter _ _ _ _
      · have hsame : decide (k ∈ w'.renamed) = decide (k ∈ w.renamed) :=
          decide_eq_decide.mpr (hlater.renamed k (h.size ▸ hk))
        simp only [placement, hsame]
      · exact h.size'.trans h.size.symm ▸ hk
    · rw [Frames.size_enter, h.size]
    · rw [Frames.size_enter, h.size']
    · rcases (hmem k).mp hk with ⟨rfl, _⟩ | hk
      · exact ⟨h.global, Nat.lt_succ_self _⟩
      · exact ⟨(h.made k hk).1, Nat.lt_succ_of_lt (h.made k hk).2⟩
  exact hentered.defineAll haround l hvs

end Store

/-- Runs of a program and of the same program with `y` for a variable `x`. -/
def otherName (x y : String) : Comparison where
  Misses := True
  World := World
  Later := Later
  Spot := List Bool
  Env := Around
  Store := Store x y
  Refers := Refers x y
  Declares p t t' q r := t'.lexeme = exchange x y (p.headD false) t.lexeme ∧ q = p ∧ r = p
  Opens p o o' q := ∃ b, q = b :: p ∧ o'.initial = o.initial.map (exchange x y b) ∧
    ∀ f, o = .receiver f → b = false
  later_refl := Later.refl
  later_trans := Later.trans
  env_later hw hE := hE.later hw
  seek := by
    intro w V p E E' F F' t t' slot slot' node hnode hr hE hF
    rcases hnode with rfl | rfl
    all_goals
      cases hr with
      | _ hn => exact hF.seek hE hn
  target := by
    intro w V p E E' F F' t t' slot slot' e e' hr hE hF
    cases hr with
    | assign hn =>
        have hfound := hF.target hE hn
        generalize F.target E t.lexeme slot = a at hfound
        generalize F'.target E' t'.lexeme slot = a' at hfound
        cases hfound with
        | misplaced hmiss => exact .misplaced hmiss
        | undefined => exact .undefined
        | found hbind => exact .found ⟨w, .refl w, hbind⟩
  superclass := by
    intro w V p E E' F F' t t' method method' slot slot' hr hE hF
    cases hr with
    | superRef hkept =>
        cases slot with
        | none => exact .inl ⟨trivial, rfl, rfl⟩
        | some d =>
            obtain ⟨hsuper, hthis⟩ := hkept d rfl
            exact .inr ⟨d, d, rfl, rfl, hF.seek hE hsuper, hF.seek hE hthis⟩
  receiver := by
    rintro w V p q f f' E E' F F' ⟨b, rfl, _, hb⟩ hE hF
    obtain rfl := hb f rfl
    exact hF.seek hE rfl
  pending := by
    rintro w p q r t t' E E' ⟨_, rfl, _⟩ hE
    exact hE
  declare := by
    rintro w V p q r t t' E E' F F' ⟨hn, _, rfl⟩ hE hF
    exact ⟨w, .refl w, hE, fun V' v v' hV hv => (hF.imp hV).define hE hn hv⟩
  redeclare := by
    rintro w V p q r t t' E E' F F' v v' ⟨hn, _, rfl⟩ hE hF hv
    exact hF.define hE hn hv
  opens := by
    rintro w V p q o o' E E' F F' label label' ⟨b, rfl, ho, _⟩ _ hE hF
    obtain ⟨w', hw, hE', hstore⟩ := hF.enter hE b label label' o.initial
    refine ⟨w', hw, hE', fun V' vs vs' hV hvs _ => ?_⟩
    rw [ho]
    exact hstore V' vs vs' hV hvs

/-- No scope of the variable is around. -/
def NoneMarked (levels : List Bool) : Prop :=
  ∀ b ∈ levels, b = false

theorem NoneMarked.getD (h : NoneMarked levels) (d : Nat) : levels.getD d false = false := by
  rw [List.getD_eq_getElem?_getD]
  cases hd : levels[d]? with
  | none => rfl
  | some b => exact h b (List.mem_of_getElem? hd)

theorem NoneMarked.leadsTo (h : NoneMarked levels) (slot : Slot) : leadsTo levels slot = false := by
  cases slot with
  | none => rfl
  | some d => exact h.getD d

theorem NoneMarked.declared (h : NoneMarked levels) {t t' : Token} (ht : t.Alike t') :
    t'.lexeme = exchange x y (levels.headD false) t.lexeme := by
  rw [List.headD_eq_getD, h.getD, exchange_false, ht.lexeme]

/-- There both runs do the same. -/
theorem plainSpots : (otherName x y).PlainSpots NoneMarked where
  refers := by
    intro levels e e' hlevels h
    have hkept : ∀ (slot : Slot) (n : String), n = exchange x y (leadsTo levels slot) n := by
      intro slot n
      rw [hlevels.leadsTo, exchange_false]
    cases h with
    | var ht => exact .var (ht.lexeme ▸ hkept _ _)
    | assign ht => exact .assign (ht.lexeme ▸ hkept _ _)
    | thisRef ht => exact .thisRef (ht.lexeme ▸ hkept _ _)
    | superRef _ => exact .superRef fun d _ => ⟨hkept _ _, hkept _ _⟩
  declares := by
    intro levels t t' hlevels ht
    exact ⟨hlevels.declared ht, rfl, rfl⟩
  opens := by
    intro levels o o' hlevels ho
    refine ⟨false :: levels, List.forall_mem_cons.mpr ⟨rfl, hlevels⟩, false, rfl, ?_,
      fun _ _ => rfl⟩
    rw [← ho]
    exact (List.map_id _).symm

end Renaming
end Lox
