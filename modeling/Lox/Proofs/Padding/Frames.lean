import Lox.Proofs.Simulation.Comparison
import Lox.Proofs.Simulation.Errors
import Lox.Proofs.Simulation.Plain
import Mathlib.Order.Monotone.Basic

/-!
# Frames that bind nothing

A run is compared with one that makes more frames. What the second makes in addition
binds nothing, now or later: code that runs inside such a frame declares nothing in it,
and a reference that goes past it has a distance that is greater by one. So both bind the
same, each in frames of its own numbering.
-/

namespace Lox
namespace Padding

/-- What is known about the frames of both runs: how many there are, and where the second
run keeps what the first one keeps in a frame. Frames that the first run will make are as
far behind the last one in both. -/
structure World where
  size : Nat
  size' : Nat
  image : Nat → Nat
  positive : 0 < size
  global : image 0 = 0
  rising : StrictMono image
  fresh : ∀ i, image (size + i) = size' + i

namespace World

/-- Both runs have the same `n` frames. -/
def same (n : Nat) (h : 0 < n) : World where
  size := n
  size' := n
  image := id
  positive := h
  global := rfl
  rising := strictMono_id
  fresh _ := rfl

/-- Both runs have made a frame. -/
def entered (w : World) : World where
  size := w.size + 1
  size' := w.size' + 1
  image := w.image
  positive := Nat.succ_pos _
  global := w.global
  rising := w.rising
  fresh i := by rw [Nat.add_assoc, Nat.add_assoc, w.fresh]

/-- The second run has made a frame that the first one does without. -/
def padded (w : World) : World where
  size := w.size
  size' := w.size' + 1
  image k := if k < w.size then w.image k else w.image k + 1
  positive := w.positive
  global := by rw [if_pos w.positive, w.global]
  rising := by
    intro k j hlt
    have hrising := w.rising hlt
    simp only
    split <;> split <;> omega
  fresh i := by
    rw [if_neg (Nat.not_lt.mpr (Nat.le_add_right _ _)), w.fresh]
    omega

variable (w : World)

theorem image_size : w.image w.size = w.size' :=
  w.fresh 0

theorem image_lt {k : Nat} (h : k < w.size) : w.image k < w.size' :=
  w.image_size ▸ w.rising h

theorem size'_le {k : Nat} (h : w.size ≤ k) : w.size' ≤ w.image k :=
  w.image_size ▸ w.rising.monotone h

/-- Where the second run keeps a variable. -/
def placement : Placement where
  place k n := (w.image k, n)
  injective h := ⟨w.rising.injective (Prod.mk.inj h).1, (Prod.mk.inj h).2⟩

end World

/-- The second world knows all that the first does. -/
structure Later (w w' : World) : Prop where
  size : w.size ≤ w'.size
  image : ∀ k < w.size, w'.image k = w.image k

theorem Later.refl (w : World) : Later w w :=
  ⟨Nat.le_refl _, fun _ _ => rfl⟩

theorem Later.trans {u v w : World} (h : Later u v) (h' : Later v w) : Later u w :=
  ⟨Nat.le_trans h.size h'.size, fun k hk =>
    (h'.image k (Nat.lt_of_lt_of_le hk h.size)).trans (h.image k hk)⟩

theorem later_entered (w : World) : Later w w.entered :=
  ⟨Nat.le_succ _, fun _ _ => rfl⟩

theorem later_padded (w : World) : Later w w.padded :=
  ⟨Nat.le_refl _, fun _ hk => if_pos hk⟩

/-- A place in the text: there is no frame more around it in the second run, or there is
one, behind those of some scopes. -/
inductive Spot where
  | plain
  | inside (depth : Nat)

namespace Spot

/-- The spot inside one more scope. -/
def enter : Spot → Spot
  | plain => plain
  | inside n => inside (n + 1)

/-- The distance in the second run. -/
def shift : Spot → Nat → Nat
  | plain, d => d
  | inside n, d => if d < n then d else d + 1

theorem map_shift_plain (slot : Slot) : slot.map plain.shift = slot :=
  Option.map_id_apply

/-- The innermost frame is the same, unless it is the additional one. -/
theorem shift_zero {p : Spot} (h : p ≠ .inside 0) : p.shift 0 = 0 := by
  cases p with
  | plain => rfl
  | inside n =>
      cases n with
      | zero => exact absurd rfl h
      | succ n => rfl

theorem enter_ne (p : Spot) : p.enter ≠ .inside 0 := by
  cases p <;> nofun

end Spot

/-- Environments at a spot. -/
inductive Around (w : World) : Spot → Env → Env → Prop
  | plain {E : Env} : (∀ k ∈ E, k < w.size) → Around w .plain E (E.map w.image)
  | inside {inner outer : Env} {x : FrameId} :
      (∀ k ∈ inner ++ outer, k < w.size) →
      Around w (.inside inner.length) (inner ++ outer)
        (inner.map w.image ++ x :: outer.map w.image)

/-- References that mean the same. The frame of the receiver that `super` is about has to
be next to that of the superclass in both runs. -/
inductive Refers (p : Spot) : Expr Slot → Expr Slot → Prop
  | var {t t' : Token} {slot : Slot} :
      t.Alike t' → Refers p (.var t slot) (.var t' (slot.map p.shift))
  | assign {t t' : Token} {slot : Slot} {e e' : Expr Slot} :
      t.Alike t' → Refers p (.assign t slot e) (.assign t' (slot.map p.shift) e')
  | thisRef {t t' : Token} {slot : Slot} :
      t.Alike t' → Refers p (.thisRef t slot) (.thisRef t' (slot.map p.shift))
  | superRef {t t' method method' : Token} {slot : Slot} :
      (∀ d, slot = some d → p.shift d - 1 = p.shift (d - 1)) →
      Refers p (.superRef t method slot) (.superRef t' method' (slot.map p.shift))

/-- What both runs open: scopes with the same names in them, and for a call functions with
the same text. -/
structure SameOpening (o o' : Opening) : Prop where
  initial : o.initial = o'.initial
  text : ∀ f f', o = .call f → o' = .call f' → f.SameText f'

/-- The stores of both runs. -/
structure Store (w : World) (V : ValueRelation) (F F' : Frames Value) : Prop where
  relates : w.placement.Relates V F F'
  size : F.size = w.size
  size' : F'.size = w.size'
  /-- The additional frames bind nothing. -/
  empty : ∀ j, (∀ k, w.image k ≠ j) → ∀ n, F'.binding? j n = none

variable {w w' : World} {V V' : ValueRelation} {F F' : Frames Value} {E E' : Env} {p : Spot}

/-! ## Environments -/

theorem map_image_later (h : Later w w') (hE : ∀ k ∈ E, k < w.size) :
    E.map w.image = E.map w'.image :=
  List.map_congr_left fun k hk => (h.image k (hE k hk)).symm

namespace Around

theorem below (h : Around w p E E') : ∀ k ∈ E, k < w.size := by
  cases h with
  | plain hE => exact hE
  | inside hE => exact hE

theorem later (h : Around w p E E') (hw : Later w w') : Around w' p E E' := by
  have hbelow : ∀ k ∈ E, k < w'.size := fun k hk => Nat.lt_of_lt_of_le (h.below k hk) hw.size
  cases h with
  | plain hE =>
      rw [map_image_later hw hE]
      exact .plain hbelow
  | @inside inner outer x hE =>
      rw [map_image_later hw fun k hk => hE k (List.mem_append_left outer hk),
        map_image_later hw fun k hk => hE k (List.mem_append_right inner hk)]
      exact .inside hbelow

/-- The frame at a distance, in both environments. -/
theorem at_shift (h : Around w p E E') (d : Nat) : E'[p.shift d]? = E[d]?.map w.image := by
  cases h with
  | plain => exact List.getElem?_map
  | @inside inner outer x =>
      by_cases hd : d < inner.length
      · rw [Spot.shift, if_pos hd, List.getElem?_append_left hd,
          List.getElem?_append_left (by rwa [List.length_map]), List.getElem?_map]
      · have hd := Nat.not_lt.mp hd
        rw [Spot.shift, if_neg (Nat.not_lt.mpr hd), List.getElem?_append_right hd,
          List.getElem?_append_right (by rw [List.length_map]; exact Nat.le_succ_of_le hd),
          List.length_map, Nat.succ_sub hd, List.getElem?_cons_succ, List.getElem?_map]

/-- Where a scope is opened the frame for it is the last one, in both runs. -/
theorem enter (h : Around w p E E') :
    Around w.entered p.enter (w.size :: E) (w.size' :: E') := by
  have hbelow : ∀ k ∈ w.size :: E, k < w.entered.size :=
    List.forall_mem_cons.mpr ⟨Nat.lt_succ_self _, fun k hk => Nat.lt_succ_of_lt (h.below k hk)⟩
  rw [← w.image_size]
  cases h with
  | plain => exact .plain hbelow
  | @inside inner => exact @inside _ (w.size :: inner) _ _ hbelow

/-- The second run has entered a frame of its own. -/
theorem padded (h : Around w .plain E E') (x : FrameId) :
    Around w.padded (.inside 0) E (x :: E') := by
  cases h with
  | plain hE =>
      rw [map_image_later (later_padded w) hE]
      exact @inside _ [] _ _ hE

end Around

/-! ## Stores -/

namespace Store

theorem imp (h : Store w V F F') (hV : V.Extends V') : Store w V' F F' :=
  ⟨h.relates.imp hV, h.size, h.size', h.empty⟩

theorem bind (h : Store w V F F') {k : FrameId} (hk : k < w.size) (n : String) {v v' : Value}
    (hv : V v v') : Store w V (F.bind k n v) (F'.bind (w.image k) n v') where
  relates := h.relates.bind rfl (h.size ▸ hk) (h.size' ▸ w.image_lt hk) hv
  size := (F.size_bind k n v).trans h.size
  size' := (F'.size_bind (w.image k) n v').trans h.size'
  empty j hj m := by
    rw [Frames.binding?_bind F' (h.size' ▸ w.image_lt hk), if_neg fun heq => hj k heq.1.symm]
    exact h.empty j hj m

theorem seek (h : Store w V F F') (hE : Around w p E E') (n : String) (slot : Slot) :
    SameSearch True V (F.seek E n slot) (F'.seek E' n (slot.map p.shift)) := by
  cases slot with
  | none => exact h.relates.seek_global (congrArg (·, n) w.global) E E'
  | some d =>
      have hat := hE.at_shift d
      cases hk : E[d]? with
      | some k => exact h.relates.seek_local rfl hk (by rw [hat, hk, Option.map_some])
      | none =>
          rw [hk, Option.map_none] at hat
          simp only [Option.map_some, Frames.seek, Frames.getAt, hk, hat]
          exact .misplaced trivial

/-- The frame that an assignment changes, in both runs. -/
theorem target (h : Store w V F F') (hE : Around w p E E') (n : String)
    (slot : Slot) :
    SameSearch True (fun id id' => id < w.size ∧ id' = w.image id) (F.target E n slot)
      (F'.target E' n (slot.map p.shift)) := by
  cases slot with
  | none =>
      have hfound := h.relates.target_global (congrArg (·, n) w.global) E E'
      rw [Option.map_none]
      generalize F.target E n none = a at hfound
      generalize F'.target E' n none = a' at hfound
      cases hfound with
      | misplaced hmiss => exact .misplaced hmiss
      | undefined => exact .undefined
      | found hid =>
          obtain ⟨rfl, rfl⟩ := hid
          exact .found ⟨w.positive, w.global.symm⟩
  | some d =>
      have hat := hE.at_shift d
      simp only [Option.map_some, Frames.target, hat]
      cases hk : E[d]? with
      | none => exact .misplaced trivial
      | some k => exact .found ⟨hE.below k (List.mem_of_getElem? hk), rfl⟩

/-- A declaration, in both runs. The additional frame gets none. -/
theorem define (h : Store w V F F') (hE : Around w p E E') (hp : p ≠ .inside 0) (n : String)
    {v v' : Value} (hv : V v v') : Store w V (F.define E n v) (F'.define E' n v') := by
  have hat := hE.at_shift 0
  rw [Spot.shift_zero hp] at hat
  cases E with
  | nil =>
      cases E' with
      | nil => exact h
      | cons k' E' => cases hat
  | cons k E =>
      cases E' with
      | nil => cases hat
      | cons k' E' =>
          cases (Option.some.inj hat : k' = w.image k)
          exact h.bind (hE.below k List.mem_cons_self) n hv

/-- A frame that both runs make. -/
theorem entered (h : Store w V F F') (label label' : String) (E E' : Env) :
    Store w.entered V (F.enter label E).2 (F'.enter label' E').2 where
  relates := h.relates.enter label label' E E'
  size := (Frames.size_enter F label E).trans (congrArg (· + 1) h.size)
  size' := (Frames.size_enter F' label' E').trans (congrArg (· + 1) h.size')
  empty j hj n := (F'.binding?_enter label' E' j n).trans (h.empty j hj n)

theorem defineAll (h : Store w V F F') {k : FrameId} (hk : k < w.size) (names : List String)
    {vs vs' : List Value} (hvs : List.Forall₂ V vs vs') :
    Store w V (F.defineAll (k :: E) (names.zip vs))
      (F'.defineAll (w.image k :: E') (names.zip vs')) := by
  induction hvs generalizing names F F' with
  | nil => cases names <;> exact h
  | cons hv _ ih =>
      cases names with
      | nil => exact h
      | cons n names => exact ih (h.bind hk n hv) names

/-- A scope that is opened, in both runs. -/
theorem enter (h : Store w V F F') (label label' : String) (names : List String)
    {vs vs' : List Value} (hvs : List.Forall₂ V vs vs') :
    Store w.entered V ((F.enter label E).2.defineAll (F.enter label E).1 (names.zip vs))
      ((F'.enter label' E').2.defineAll (F'.enter label' E').1 (names.zip vs')) := by
  have himage : F'.size = w.entered.image w.size := h.size'.trans w.image_size.symm
  rw [Frames.env_enter, Frames.env_enter, h.size, himage]
  exact (h.entered label label' E E').defineAll (Nat.lt_succ_self _) names hvs

/-- The second run makes a frame of its own. -/
theorem padded (h : Store w V F F') (label : String) (E' : Env) :
    Store w.padded V F (F'.enter label E').2 where
  relates := by
    have hentered : w.placement.Relates V F (F'.enter label E').2 := by
      intro k n
      rw [Frames.binding?_enter]
      exact h.relates k n
    refine hentered.extend (fun k n hk => congrArg (·, n) (if_pos (h.size ▸ hk)))
      fun k n hk => ?_
    have hk : w.size ≤ k := h.size ▸ hk
    show _ ≤ w.padded.image k
    rw [Frames.size_enter, h.size']
    exact w.padded.size'_le hk
  size := h.size
  size' := by
    rw [Frames.size_enter, h.size']
    rfl
  empty j hj n := by
    rw [Frames.binding?_enter]
    by_cases hsize : F'.size ≤ j
    · exact Frames.binding?_of_size_le hsize n
    · have hlt : j < w.size' := h.size' ▸ Nat.not_le.mp hsize
      refine h.empty j (fun k hk => ?_) n
      have hbelow : k < w.size := by
        by_contra hge
        exact absurd (w.size'_le (Nat.not_lt.mp hge)) (by omega)
      exact hj k ((if_pos hbelow).trans hk)

end Store

end Padding

open Padding in
/-- Runs of which the second makes frames that bind nothing in addition. -/
def padding : Comparison where
  Misses := True
  World := World
  Later := Later
  Spot := Spot
  Env := Around
  Store := Store
  Refers := Refers
  Declares p t t' q r := t.Alike t' ∧ q = p ∧ r = p ∧ p ≠ .inside 0
  Opens p o o' q := SameOpening o o' ∧ q = p.enter
  later_refl := Later.refl
  later_trans := Later.trans
  env_later hw hE := hE.later hw
  seek := by
    intro w V p E E' F F' t t' slot slot' node hnode hr hE hF
    rcases hnode with rfl | rfl
    all_goals
      cases hr with
      | _ ht =>
          rw [← ht.lexeme]
          exact hF.seek hE t.lexeme slot
  target := by
    intro w V p E E' F F' t t' slot slot' e e' hr hE hF
    cases hr with
    | assign ht =>
        have hfound := hF.target hE t.lexeme slot
        rw [← ht.lexeme]
        generalize F.target E t.lexeme slot = a at hfound
        generalize F'.target E' t.lexeme (slot.map p.shift) = a' at hfound
        cases hfound with
        | misplaced hmiss => exact .misplaced hmiss
        | undefined => exact .undefined
        | found hid =>
            obtain ⟨hlt, rfl⟩ := hid
            exact .found ⟨w, .refl w, fun V' v v' hV hv => (hF.imp hV).bind hlt _ hv⟩
  superclass := by
    intro w V p E E' F F' t t' method method' slot slot' hr hE hF
    cases hr with
    | superRef hnext =>
        cases slot with
        | none => exact .inl ⟨trivial, rfl, rfl⟩
        | some d =>
            refine .inr ⟨d, p.shift d, rfl, rfl, hF.seek hE superName (some d), ?_⟩
            rw [hnext d rfl]
            exact hF.seek hE thisName (some (d - 1))
  receiver := by
    rintro w V p _ f f' E E' F F' ⟨_, rfl⟩ hE hF
    have hfound := hF.seek hE thisName (some 0)
    rwa [Option.map_some, Spot.shift_zero p.enter_ne] at hfound
  pending := by
    rintro w p _ _ t t' E E' ⟨_, rfl, _⟩ hE
    exact hE
  declare := by
    rintro w V p _ _ t t' E E' F F' ⟨ht, _, rfl, hp⟩ hE hF
    refine ⟨w, .refl w, hE, fun V' v v' hV hv => ?_⟩
    rw [← ht.lexeme]
    exact (hF.imp hV).define hE hp t.lexeme hv
  redeclare := by
    rintro w V p _ _ t t' E E' F F' v v' ⟨ht, _, rfl, hp⟩ hE hF hv
    rw [← ht.lexeme]
    exact hF.define hE hp t.lexeme hv
  opens := by
    rintro w V p _ o o' E E' F F' label label' ⟨ho, rfl⟩ _ hE hF
    refine ⟨w.entered, later_entered w, ?_, fun V' vs vs' hV hvs _ => ?_⟩
    · rw [Frames.env_enter, Frames.env_enter, hF.size, hF.size']
      exact hE.enter
    · rw [← ho.initial]
      exact (hF.imp hV).enter label label' o.initial hvs

namespace Padding

theorem keepsText : padding.KeepsText :=
  fun h => h.1.text _ _ rfl rfl

/-- Code without a frame more around it is related to itself. -/
theorem selfSpots : padding.SelfSpots (· = .plain) where
  texts _ := ⟨rfl, rfl⟩
  refers := by
    rintro p e e' rfl hsame
    cases hsame with
    | @var t t' slot ht =>
        have hr : Refers .plain (.var t slot) (.var t' (slot.map Spot.plain.shift)) := .var ht
        rwa [Spot.map_shift_plain] at hr
    | @assign t t' slot e e' ht =>
        have hr : Refers .plain (.assign t slot e) (.assign t' (slot.map Spot.plain.shift) e') :=
          .assign ht
        rwa [Spot.map_shift_plain] at hr
    | @thisRef t t' slot ht =>
        have hr : Refers .plain (.thisRef t slot) (.thisRef t' (slot.map Spot.plain.shift)) :=
          .thisRef ht
        rwa [Spot.map_shift_plain] at hr
    | @superRef t t' method method' slot ht =>
        have hr : Refers .plain (.superRef t method slot)
            (.superRef t' method' (slot.map Spot.plain.shift)) := .superRef fun _ _ => rfl
        rwa [Spot.map_shift_plain] at hr
  declares := by
    rintro p t t' rfl ht
    exact ⟨ht, rfl, rfl, nofun⟩
  opens := by
    rintro p o u rfl hmoved
    cases hmoved.eq_of_id
    refine ⟨.plain, rfl, ⟨rfl, fun f f' hf hf' => ?_⟩, rfl⟩
    rw [hf] at hf'
    cases hf'
    exact ⟨0, rfl⟩

end Padding
end Lox
