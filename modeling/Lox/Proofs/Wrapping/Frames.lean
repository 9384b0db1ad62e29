import Lox.Proofs.Simulation.Comparison
import Lox.Proofs.Simulation.Evaluation

/-!
# Globals in the frame of a block

A program is compared with the same program inside a block. What its top level declares
is bound in the frame of the globals in one run, and in the frame of the block in the
other. There every environment of the program has that one frame more, and a reference
to such a name has a distance, where in the first run it is looked up by its name.

The block is opened in the middle of the second run. What has run up to then is the
same in both.
-/

namespace Lox
namespace Wrapping

/-- What is known about the frames of both runs. -/
structure World where
  /-- The number of frames in the first run. -/
  size : Nat
  /-- The frame of the block, once it is open. -/
  block : Option Nat
  /-- Names of the top level that are bound. -/
  bound : List String

/-- The number of a frame in the second run. Frames made after that of the block have
one more before them. -/
def shift (block : Option Nat) (k : Nat) : Nat :=
  match block with
  | none => k
  | some b => if k < b then k else k + 1

theorem shift_injective {block : Option Nat} {k j : Nat}
    (h : shift block k = shift block j) : k = j := by
  cases block with
  | none => exact h
  | some b =>
      simp only [shift] at h
      split at h <;> split at h <;> omega

theorem shift_ne {b k : Nat} : shift (some b) k ≠ b := by
  simp only [shift]
  split <;> omega

theorem shift_lt {block : Option Nat} {k j : Nat} (h : k < j) :
    shift block k < shift block j := by
  cases block with
  | none => exact h
  | some b =>
      simp only [shift]
      split <;> split <;> omega

variable (names : List String)

/-- Where the second run keeps a variable: those of the top level with the block. -/
def placement (block : Option Nat) : Placement where
  place k n := if k = 0 ∧ n ∈ names then (block.getD 0, n) else (shift block k, n)
  injective := by
    intro k j n m h
    have hne : ∀ i x, ¬ (i = 0 ∧ x ∈ names) → x ∈ names → block.getD 0 ≠ shift block i := by
      intro i x hi hx heq
      cases block with
      | none => exact hi ⟨heq.symm, hx⟩
      | some b => exact shift_ne heq.symm
    split at h
    · next hk =>
        split at h
        · next hj => exact ⟨hk.1.trans hj.1.symm, (Prod.mk.inj h).2⟩
        · next hj =>
            obtain ⟨heq, rfl⟩ := Prod.mk.inj h
            exact absurd heq (hne j n hj hk.2)
    · next hk =>
        split at h
        · next hj =>
            obtain ⟨heq, rfl⟩ := Prod.mk.inj h
            exact absurd heq.symm (hne k n hk hj.2)
        · exact ⟨shift_injective (Prod.mk.inj h).1, (Prod.mk.inj h).2⟩

variable {names} {block : Option Nat} {k : Nat} {n : String}

theorem place_frame (h : k ≠ 0) : (placement names block).place k n = (shift block k, n) :=
  if_neg fun hk => h hk.1

theorem place_other (h : n ∉ names) : (placement names block).place k n = (shift block k, n) :=
  if_neg fun hk => h hk.2

theorem place_top {b : Nat} (h : n ∈ names) :
    (placement names (some b)).place 0 n = (b, n) :=
  if_pos ⟨rfl, h⟩

/-- The second world knows all that the first does. -/
structure Later (w w' : World) : Prop where
  size : w.size ≤ w'.size
  block : ∀ b, w.block = some b → w'.block = some b
  opened : ∀ b, w.block = none → w'.block = some b → w.size ≤ b
  bound : ∀ n ∈ w.bound, n ∈ w'.bound

theorem Later.refl (w : World) : Later w w where
  size := Nat.le_refl _
  block _ h := h
  opened _ h h' := by
    rw [h] at h'
    cases h'
  bound _ h := h

theorem Later.trans {u v w : World} (h : Later u v) (h' : Later v w) : Later u w where
  size := Nat.le_trans h.size h'.size
  block b hb := h'.block b (h.block b hb)
  opened b hu hw := by
    cases hv : v.block with
    | none => exact Nat.le_trans h.size (h'.opened b hv hw)
    | some b' =>
        have hb := h'.block b' hv
        rw [hw] at hb
        cases hb
        exact h.opened b hu hv
  bound n hn := h'.bound n (h.bound n hn)

/-- Frames that were made before keep their numbers. -/
theorem Later.shift {w w' : World} (h : Later w w') {k : Nat} (hk : k < w.size) :
    shift w'.block k = shift w.block k := by
  cases hw : w.block with
  | some b => rw [h.block b hw]
  | none =>
      cases hw' : w'.block with
      | none => rfl
      | some b => exact if_pos (Nat.lt_of_lt_of_le hk (h.opened b hw hw'))

/-- A place in the text: how many scopes of the program are around it, and which names
of the top level were declared before it, if it is inside the block. -/
structure Spot where
  depth : Nat
  declared : Option (List String)

/-- The spot inside one more scope. -/
def Spot.enter (p : Spot) : Spot :=
  { p with depth := p.depth + 1 }

/-- The spot after a declaration. -/
def Spot.declare (p : Spot) (name : String) : Spot :=
  if p.depth = 0 then { p with declared := p.declared.map (name :: ·) } else p

@[simp]
theorem Spot.depth_declare (p : Spot) (name : String) : (p.declare name).depth = p.depth := by
  rw [declare]
  split <;> rfl

variable (names) in
/-- The top level inside the block declares the names in question, and the one outside
declares others. -/
def Spot.MayDeclare (p : Spot) (name : String) : Prop :=
  p.depth = 0 → (name ∈ names ↔ p.declared.isSome)

/-- What environments of the second run end with. -/
inductive Base (w : World) : Option (List String) → Env → Prop
  | outside : Base w none [0]
  | inside {b : FrameId} {declared : List String} :
      w.block = some b → (∀ n ∈ declared, n ∈ w.bound) → Base w (some declared) [b, 0]

/-- Environments at a spot. -/
inductive Around (w : World) (p : Spot) : Env → Env → Prop
  | mk {E base : Env} :
      E.length = p.depth → (∀ k ∈ E, 0 < k ∧ k < w.size) → Base w p.declared base →
      Around w p (E ++ [0]) (E.map (shift w.block) ++ base)

/-- A name with its slots in both programs. -/
inductive Finds (names : List String) (p : Spot) (n : String) : Slot → Slot → Prop
  | inner {d : Nat} : d < p.depth → Finds names p n (some d) (some d)
  | other : n ∉ names → Finds names p n none none
  | top {declared : List String} :
      n ∈ names → p.declared = some declared → n ∈ declared → Finds names p n none (some p.depth)

/-- References that mean the same. -/
inductive Refers (names : List String) (p : Spot) : Expr Slot → Expr Slot → Prop
  | var {t t' : Token} {slot slot' : Slot} :
      t.Alike t' → Finds names p t.lexeme slot slot' →
      Refers names p (.var t slot) (.var t' slot')
  | assign {t t' : Token} {slot slot' : Slot} {e e' : Expr Slot} :
      t.Alike t' → Finds names p t.lexeme slot slot' →
      Refers names p (.assign t slot e) (.assign t' slot' e')
  | thisRef {t t' : Token} {slot slot' : Slot} :
      t.Alike t' → Finds names p t.lexeme slot slot' →
      Refers names p (.thisRef t slot) (.thisRef t' slot')
  | superRef {t t' method method' : Token} {slot : Slot} :
      (∀ d, slot = some d → d < p.depth) →
      Refers names p (.superRef t method slot) (.superRef t' method' slot)

/-- The stores of both runs. -/
structure Store (names : List String) (w : World) (V : ValueRelation) (F F' : Frames Value) :
    Prop where
  relates : (placement names w.block).Relates V F F'
  size : F.size = w.size
  size' : F'.size = shift w.block w.size
  global : 0 < w.size
  opened : ∀ b, w.block = some b → 0 < b ∧ b ≤ w.size
  unopened : w.block = none → ∀ n ∈ names, F.binding? 0 n = none
  bound : ∀ n ∈ w.bound, (F.binding? 0 n).isSome

variable {w w' : World} {V V' : ValueRelation} {F F' : Frames Value} {E E' : Env} {p : Spot}

theorem Base.later {declared : Option (List String)} {base : Env} (h : Base w declared base)
    (hw : Later w w') : Base w' declared base := by
  cases h with
  | outside => exact .outside
  | inside hb hbound => exact .inside (hw.block _ hb) fun n hn => hw.bound n (hbound n hn)

theorem Around.later (h : Around w p E E') (hw : Later w w') : Around w' p E E' := by
  cases h with
  | @mk E base hlen hE hbase =>
      have hmap : E.map (shift w.block) = E.map (shift w'.block) :=
        List.map_congr_left fun k hk => (hw.shift (hE k hk).2).symm
      rw [hmap]
      exact .mk hlen (fun k hk => ⟨(hE k hk).1, Nat.lt_of_lt_of_le (hE k hk).2 hw.size⟩)
        (hbase.later hw)

/-- The frame of a scope of the program, in both environments. -/
theorem Around.at (h : Around w p E E') {d : Nat} (hd : d < p.depth) :
    ∃ k, 0 < k ∧ k < w.size ∧ E[d]? = some k ∧ E'[d]? = some (shift w.block k) := by
  cases h with
  | @mk E base hlen hE _ =>
      have hd' : d < E.length := hlen ▸ hd
      refine ⟨E[d], (hE _ (List.getElem_mem hd')).1, (hE _ (List.getElem_mem hd')).2, ?_, ?_⟩
      · rw [List.getElem?_append_left hd', List.getElem?_eq_getElem hd']
      · rw [List.getElem?_append_left (by rwa [List.length_map]), List.getElem?_map,
          List.getElem?_eq_getElem hd', Option.map_some]

/-- The frame of the block, which a distance leads to from inside it. -/
theorem Around.top (h : Around w p E E') {declared : List String}
    (hdeclared : p.declared = some declared) :
    ∃ b, w.block = some b ∧ E'[p.depth]? = some b ∧ ∀ n ∈ declared, n ∈ w.bound := by
  cases h with
  | @mk E base hlen _ hbase =>
      rw [hdeclared] at hbase
      cases hbase with
      | @inside b _ hb hbound =>
          refine ⟨b, hb, ?_, hbound⟩
          rw [← hlen, List.getElem?_append_right (Nat.le_of_eq (List.length_map _)),
            List.length_map, Nat.sub_self]
          rfl

namespace Store

theorem imp (h : Store names w V F F') (hV : V.Extends V') : Store names w V' F F' :=
  ⟨h.relates.imp hV, h.size, h.size', h.global, h.opened, h.unopened, h.bound⟩

theorem shift_zero (h : Store names w V F F') : shift w.block 0 = 0 := by
  cases hb : w.block with
  | none => rfl
  | some b => exact if_pos (h.opened b hb).1

theorem place_global (h : Store names w V F F') {n : String} (hn : n ∉ names) :
    (placement names w.block).place 0 n = (0, n) :=
  (place_other hn).trans (congrArg (·, n) h.shift_zero)

theorem bind (h : Store names w V F F') {k k' : FrameId} {n : String} (hk : k < w.size)
    (hplace : (placement names w.block).place k n = (k', n))
    (hopen : w.block = none → k = 0 → n ∉ names) {v v' : Value} (hv : V v v') :
    Store names w V (F.bind k n v) (F'.bind k' n v') where
  relates := by
    refine h.relates.bind hplace (h.size ▸ hk) ?_ hv
    rw [h.size']
    by_cases htop : k = 0 ∧ n ∈ names
    · rw [show (placement names w.block).place k n = (w.block.getD 0, n) from if_pos htop] at hplace
      cases hplace
      cases hb : w.block with
      | none => exact absurd htop.2 (hopen hb htop.1)
      | some b =>
          have hle := (h.opened b hb).2
          rw [shift, if_neg (Nat.not_lt.mpr hle)]
          exact Nat.lt_succ_of_le hle
    · rw [show (placement names w.block).place k n = (shift w.block k, n) from
        if_neg htop] at hplace
      cases hplace
      exact shift_lt hk
  size := (F.size_bind k n v).trans h.size
  size' := (F'.size_bind k' n v').trans h.size'
  global := h.global
  opened := h.opened
  unopened := by
    intro hb m hm
    rw [Frames.binding?_bind F (h.size ▸ hk), if_neg]
    · exact h.unopened hb m hm
    · rintro ⟨rfl, rfl⟩
      exact hopen hb rfl hm
  bound := by
    intro m hm
    rw [Frames.binding?_bind F (h.size ▸ hk)]
    split
    · rfl
    · exact h.bound m hm

theorem bind_frame (h : Store names w V F F') {k : FrameId} {n : String} (hk : k < w.size)
    (hpos : 0 < k) {v v' : Value} (hv : V v v') :
    Store names w V (F.bind k n v) (F'.bind (shift w.block k) n v') :=
  h.bind hk (place_frame (Nat.ne_of_gt hpos)) (fun _ hzero => absurd hzero (Nat.ne_of_gt hpos)) hv

theorem bind_global (h : Store names w V F F') {n : String} (hn : n ∉ names) {v v' : Value}
    (hv : V v v') : Store names w V (F.bind 0 n v) (F'.bind 0 n v') :=
  h.bind h.global (h.place_global hn) (fun _ _ => hn) hv

theorem bind_top (h : Store names w V F F') {b : FrameId} (hb : w.block = some b) {n : String}
    (hn : n ∈ names) {v v' : Value} (hv : V v v') :
    Store names w V (F.bind 0 n v) (F'.bind b n v') :=
  h.bind h.global (hb ▸ place_top hn) (fun hnone => by rw [hb] at hnone; cases hnone) hv

/-- A name of the top level counts as bound once it is. -/
theorem mark (h : Store names w V F F') {n : String} (hn : (F.binding? 0 n).isSome) :
    Store names { w with bound := n :: w.bound } V F F' where
  relates := h.relates
  size := h.size
  size' := h.size'
  global := h.global
  opened := h.opened
  unopened := h.unopened
  bound := by
    intro m hm
    rcases List.mem_cons.mp hm with rfl | hm
    · exact hn
    · exact h.bound m hm

theorem seek (h : Store names w V F F') (hE : Around w p E E') {n : String} {slot slot' : Slot}
    (hfinds : Finds names p n slot slot') :
    SameSearch True V (F.seek E n slot) (F'.seek E' n slot') := by
  cases hfinds with
  | inner hd =>
      obtain ⟨k, hpos, _, hk, hk'⟩ := hE.at hd
      exact h.relates.seek_local (place_frame (Nat.ne_of_gt hpos)) hk hk'
  | other hn => exact h.relates.seek_global (h.place_global hn) E E'
  | top hn hdeclared hmem =>
      obtain ⟨b, hb, hk', hbound⟩ := hE.top hdeclared
      exact h.relates.seek_moved (hb ▸ place_top hn) (h.bound _ (hbound _ hmem)) hk'

/-- The frame that an assignment changes, in both runs. -/
theorem target (h : Store names w V F F') (hE : Around w p E E') {n : String}
    {slot slot' : Slot} (hfinds : Finds names p n slot slot') :
    SameSearch True
      (fun id id' => ∀ V' v v', V.Extends V' → V' v v' →
        Store names w V' (F.bind id n v) (F'.bind id' n v'))
      (F.target E n slot) (F'.target E' n slot') := by
  cases hfinds with
  | inner hd =>
      obtain ⟨k, hpos, hlt, hk, hk'⟩ := hE.at hd
      simp only [Frames.target, hk, hk']
      exact .found fun V' v v' hV hv => (h.imp hV).bind_frame hlt hpos hv
  | other hn =>
      have hfound := h.relates.target_global (h.place_global hn) E E'
      generalize F.target E n none = a at hfound
      generalize F'.target E' n none = a' at hfound
      cases hfound with
      | misplaced hmiss => exact .misplaced hmiss
      | undefined => exact .undefined
      | found hid =>
          obtain ⟨rfl, rfl⟩ := hid
          exact .found fun V' v v' hV hv => (h.imp hV).bind_global hn hv
  | top hn hdeclared hmem =>
      obtain ⟨b, hb, hk', hbound⟩ := hE.top hdeclared
      simp only [Frames.target, hk', Frames.owner?_globalEnv, if_pos (h.bound _ (hbound _ hmem))]
      exact .found fun V' v v' hV hv => (h.imp hV).bind_top hb hn hv

/-- A declaration, in both runs. -/
theorem declare (h : Store names w V F F') (hE : Around w p E E') {n : String}
    (hmay : p.MayDeclare names n) :
    ∃ w', Later w w' ∧ Around w' (p.declare n) E E' ∧ ∀ V' v v', V.Extends V' → V' v v' →
      Store names w' V' (F.define E n v) (F'.define E' n v') := by
  cases hE with
  | @mk E base hlen hbelow hbase =>
      cases E with
      | cons k E =>
          have hdeclare : p.declare n = p := if_neg (by rw [← hlen]; exact Nat.succ_ne_zero _)
          have hk := hbelow k List.mem_cons_self
          rw [hdeclare]
          exact ⟨w, .refl w, .mk hlen hbelow hbase,
            fun V' v v' hV hv => (h.imp hV).bind_frame hk.2 hk.1 hv⟩
      | nil =>
          have hdeclare : p.declare n = { p with declared := p.declared.map (n :: ·) } :=
            if_pos hlen.symm
          have hn := hmay hlen.symm
          rw [hdeclare]
          generalize hdeclared : p.declared = declared at hn hbase
          cases hbase with
          | outside =>
              refine ⟨w, .refl w, .mk hlen hbelow .outside, fun V' v v' hV hv => ?_⟩
              exact (h.imp hV).bind_global (fun hmem => absurd (hn.mp hmem) (by decide)) hv
          | @inside b declared hb hbound =>
              refine ⟨{ w with bound := n :: w.bound }, ?_, ?_, fun V' v v' hV hv => ?_⟩
              · exact ⟨Nat.le_refl _, fun _ hb => hb, (Later.refl w).opened,
                  fun _ hm => List.mem_cons_of_mem n hm⟩
              · refine .mk hlen hbelow (.inside hb fun m hm => ?_)
                rcases List.mem_cons.mp hm with rfl | hm
                · exact List.mem_cons_self
                · exact List.mem_cons_of_mem n (hbound m hm)
              · refine ((h.imp hV).bind_top hb (hn.mpr rfl) hv).mark ?_
                rw [Frames.binding?_bind F (h.size ▸ h.global), if_pos ⟨rfl, rfl⟩]
                rfl

/-- The same declaration once more. -/
theorem redeclare (h : Store names w V F F') {n : String} (hE : Around w (p.declare n) E E')
    (hmay : p.MayDeclare names n) {v v' : Value} (hv : V v v') :
    Store names w V (F.define E n v) (F'.define E' n v') := by
  generalize hq : p.declare n = q at hE
  cases hE with
  | @mk E base hlen hbelow hbase =>
      have hdepth : q.depth = p.depth := hq ▸ p.depth_declare n
      cases E with
      | cons k E =>
          have hk := hbelow k List.mem_cons_self
          exact h.bind_frame hk.2 hk.1 hv
      | nil =>
          have hzero : p.depth = 0 := hdepth ▸ hlen.symm
          have hn := hmay hzero
          rw [← hq, Spot.declare, if_pos hzero] at hbase
          generalize p.declared = declared at hn hbase
          cases declared with
          | none =>
              cases hbase with
              | outside => exact h.bind_global (fun hmem => absurd (hn.mp hmem) (by decide)) hv
          | some declared =>
              cases hbase with
              | inside hb _ => exact h.bind_top hb (hn.mpr rfl) hv

theorem defineAll (h : Store names w V F F') {k : Nat} (hk : k < w.size) (hpos : 0 < k)
    (l : List String) {vs vs' : List Value} (hvs : List.Forall₂ V vs vs') :
    Store names w V (F.defineAll (k :: E) (l.zip vs))
      (F'.defineAll (shift w.block k :: E') (l.zip vs')) := by
  induction hvs generalizing l F F' with
  | nil => cases l <;> exact h
  | cons hv _ ih =>
      cases l with
      | nil => exact h
      | cons n l => exact ih (h.bind_frame hk hpos hv) l

/-- A scope that is opened, in both runs. -/
theorem enter (h : Store names w V F F') (hE : Around w p E E') (label label' : String)
    (l : List String) :
    ∃ w', Later w w' ∧ Around w' p.enter (F.enter label E).1 (F'.enter label' E').1 ∧
      ∀ V' vs vs', V.Extends V' → List.Forall₂ V' vs vs' →
        Store names w' V' ((F.enter label E).2.defineAll (F.enter label E).1 (l.zip vs))
          ((F'.enter label' E').2.defineAll (F'.enter label' E').1 (l.zip vs')) := by
  have hlater : Later w { w with size := w.size + 1 } :=
    ⟨Nat.le_succ _, fun _ hb => hb, (Later.refl w).opened, fun _ hn => hn⟩
  refine ⟨{ w with size := w.size + 1 }, hlater, ?_, fun V' vs vs' hV hvs => ?_⟩
  · rw [Frames.env_enter, Frames.env_enter, h.size, h.size']
    cases hE.later hlater with
    | @mk E base hlen hbelow hbase =>
        refine Around.mk (E := w.size :: E) (congrArg (· + 1) hlen) (fun k hk => ?_) hbase
        rcases List.mem_cons.mp hk with rfl | hk
        · exact ⟨h.global, Nat.lt_succ_self _⟩
        · exact hbelow k hk
  · have hentered : Store names { w with size := w.size + 1 } V' (F.enter label E).2
        (F'.enter label' E').2 := by
      refine ⟨(h.imp hV).relates.enter label label' E E', ?_, ?_, Nat.succ_pos _, ?_, ?_, ?_⟩
      · rw [Frames.size_enter, h.size]
      · rw [Frames.size_enter, h.size']
        cases hb : w.block with
        | none => rfl
        | some b =>
            have hle := (h.opened b hb).2
            simp only [shift]
            rw [if_neg (Nat.not_lt.mpr hle), if_neg (Nat.not_lt.mpr (Nat.le_succ_of_le hle))]
      · exact fun b hb => ⟨(h.opened b hb).1, Nat.le_succ_of_le (h.opened b hb).2⟩
      · intro hb n hn
        rw [Frames.binding?_enter]
        exact h.unopened hb n hn
      · intro n hn
        rw [Frames.binding?_enter]
        exact h.bound n hn
    rw [Frames.env_enter, Frames.env_enter, h.size, h.size']
    exact hentered.defineAll (Nat.lt_succ_self _) h.global l hvs

/-- The block is opened. -/
theorem openBlock (h : Store names w V F F') (hblock : w.block = none) (label : String) :
    Store names { w with block := some w.size } V F (F'.enter label globalEnv).2 where
  relates := by
    have hentered : (placement names w.block).Relates V F (F'.enter label globalEnv).2 := by
      intro k n
      rw [Frames.binding?_enter]
      exact h.relates k n
    intro k n
    by_cases htop : k = 0 ∧ n ∈ names
    · obtain ⟨rfl, hn⟩ := htop
      rw [h.unopened hblock n hn, place_top hn, Frames.binding?_enter,
        Frames.binding?_of_size_le (by rw [h.size', hblock]; exact Nat.le_refl _)]
      exact .none
    · rw [show (placement names (some w.size)).place k n = _ from if_neg htop]
      rcases Nat.lt_or_ge k w.size with hk | hk
      · have hrel := hentered k n
        rw [hblock, show (placement names none).place k n = (k, n) from if_neg htop] at hrel
        rw [shift, if_pos hk]
        exact hrel
      · rw [shift, if_neg (Nat.not_lt.mpr hk), Frames.binding?_of_size_le (h.size ▸ hk),
          Frames.binding?_of_size_le]
        · exact .none
        · rw [Frames.size_enter, h.size', hblock]
          exact Nat.succ_le_succ hk
  size := h.size
  size' := by
    rw [Frames.size_enter, h.size', hblock, shift, shift, if_neg (Nat.lt_irrefl _)]
  global := h.global
  opened := by
    rintro b hb
    cases hb
    exact ⟨h.global, Nat.le_refl _⟩
  unopened hb := by cases hb
  bound := h.bound

end Store

/-- Runs of a program and of the same program in a block that declares `names`. -/
def wrapping (names : List String) : Comparison where
  Misses := True
  World := World
  Later := Later
  Spot := Spot
  Env := Around
  Store := Store names
  Refers := Refers names
  Declares p t t' q r :=
    t.Alike t' ∧ q = p ∧ r = p.declare t.lexeme ∧ p.MayDeclare names t.lexeme
  Opens p o o' q := o.initial = o'.initial ∧ q = p.enter
  later_refl := Later.refl
  later_trans := Later.trans
  env_later hw hE := hE.later hw
  seek := by
    intro w V p E E' F F' t t' slot slot' node hnode hr hE hF
    rcases hnode with rfl | rfl
    · cases hr with
      | var ht hfinds =>
          rw [← ht.lexeme]
          exact hF.seek hE hfinds
    · cases hr with
      | thisRef ht hfinds =>
          rw [← ht.lexeme]
          exact hF.seek hE hfinds
  target := by
    intro w V p E E' F F' t t' slot slot' e e' hr hE hF
    cases hr with
    | assign ht hfinds =>
        have hfound := hF.target hE hfinds
        rw [← ht.lexeme]
        generalize F.target E t.lexeme slot = a at hfound
        generalize F'.target E' t.lexeme slot' = a' at hfound
        cases hfound with
        | misplaced hmiss => exact .misplaced hmiss
        | undefined => exact .undefined
        | found hbind => exact .found ⟨w, .refl w, hbind⟩
  superclass := by
    intro w V p E E' F F' t t' method method' slot slot' hr hE hF
    cases hr with
    | superRef hdepth =>
        cases slot with
        | none => exact .inl ⟨trivial, rfl, rfl⟩
        | some d =>
            have hd := hdepth d rfl
            exact .inr ⟨d, d, rfl, rfl, hF.seek hE (.inner hd),
              hF.seek hE (.inner (Nat.lt_of_le_of_lt (Nat.sub_le d 1) hd))⟩
  receiver := by
    intro w V p q f f' E E' F F' ho hE hF
    obtain ⟨_, rfl⟩ := ho
    exact hF.seek hE (.inner (Nat.succ_pos _))
  pending := by
    rintro w p q r t t' E E' ⟨_, rfl, _⟩ hE
    exact hE
  declare := by
    rintro w V p q r t t' E E' F F' ⟨ht, _, rfl, hmay⟩ hE hF
    rw [← ht.lexeme]
    exact hF.declare hE hmay
  redeclare := by
    rintro w V p q r t t' E E' F F' v v' ⟨ht, _, rfl, hmay⟩ hE hF hv
    rw [← ht.lexeme]
    exact hF.redeclare hE hmay hv
  opens := by
    rintro w V p q o o' E E' F F' label label' ⟨ho, rfl⟩ _ hE hF
    obtain ⟨w', hw, hE', hstore⟩ := hF.enter hE label label' o.initial
    refine ⟨w', hw, hE', fun V' vs vs' hV hvs _ => ?_⟩
    rw [← ho]
    exact hstore V' vs vs' hV hvs

end Wrapping
end Lox
