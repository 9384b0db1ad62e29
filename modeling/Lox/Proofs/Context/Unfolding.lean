import Lox.Proofs.Context.Rendering

/-!
# The unfolding of a value

Vectors can be held in many places, and below themselves. Going down from a value, from each
vector to its elements, unfolds it into a tree, which has no end where vectors hold
themselves; a place in that tree is the list of the indices on the way to it. The text of a
value is that of the tree, with dots exactly where a vector stands below itself. So it has an
end, and a vector that is held twice is written twice.
-/

namespace Lox
namespace Value

/-- The elements of a value, if it is a vector. -/
def elements? (objects : Objects) : Value → Option (List Value)
  | object ref => ((objects[ref]?).bind (·.elements)).map (·.toList)
  | _ => none

/-- What stands at a place of the unfolding. -/
def at? (objects : Objects) : Value → List Nat → Option Value
  | v, [] => some v
  | v, i :: place =>
    match (v.elements? objects).bind (·[i]?) with
    | some element => element.at? objects place
    | none => none

/-- The vector stands somewhere above the place. -/
def Inside (objects : Objects) (v : Value) (place : List Nat) (ref : Nat) : Prop :=
  ∃ outer i rest, place = outer ++ i :: rest ∧ v.at? objects outer = some (object ref)

/-- The text of the unfolding from a place on. Dots stand for a vector that stands above
itself, and for nothing else. -/
inductive Shows (objects : Objects) (v : Value) : List Nat → String → Prop
  | plain {place : List Nat} {w : Value} :
      v.at? objects place = some w → w.elements? objects = none →
      Shows objects v place (w.plainText objects)
  | dots {place : List Nat} {ref : Nat} :
      v.at? objects place = some (object ref) → Inside objects v place ref →
      Shows objects v place "[...]"
  | vector {place : List Nat} {ref : Nat} {elements : List Value} {texts : List String} :
      v.at? objects place = some (object ref) →
      (object ref).elements? objects = some elements → ¬ Inside objects v place ref →
      texts.length = elements.length →
      (∀ i text, texts[i]? = some text → Shows objects v (place ++ [i]) text) →
      Shows objects v place ("[" ++ String.intercalate ", " texts ++ "]")

variable {objects : Objects} {v w : Value} {place inner : List Nat} {ref : Nat}

/-! ## Places -/

theorem at?_append : v.at? objects (place ++ inner) =
    (v.at? objects place).bind (·.at? objects inner) := by
  induction place generalizing v with
  | nil => rfl
  | cons i place ih =>
      rw [List.cons_append, at?, at?]
      split
      · exact ih
      · rfl

theorem at?_concat (hat : v.at? objects place = some w) (i : Nat) :
    v.at? objects (place ++ [i]) = (w.elements? objects).bind (·[i]?) := by
  rw [at?_append, hat, Option.bind_some, at?]
  cases (w.elements? objects).bind (·[i]?) <;> rfl

theorem elements?_object {elements : List Value}
    (h : (object ref).elements? objects = some elements) : ref < objects.size := by
  cases hinst : objects[ref]? with
  | none => simp [elements?, hinst] at h
  | some inst => exact (Array.getElem?_eq_some_iff.mp hinst).1

/-- What a place lies inside of has elements. -/
theorem Inside.elements? (h : Inside objects v place ref) (hat : v.at? objects place = some w) :
    ∃ elements, (object ref).elements? objects = some elements := by
  obtain ⟨outer, i, rest, rfl, houter⟩ := h
  rw [at?_append, houter, Option.bind_some, at?] at hat
  cases helements : (object ref).elements? objects with
  | none => simp [helements] at hat
  | some elements => exact ⟨elements, rfl⟩

theorem not_inside_nil : ¬ Inside objects v [] ref := by
  rintro ⟨outer, i, rest, h, -⟩
  simp at h

/-- One step further down lies inside the vector that is left, too. -/
theorem inside_concat {i : Nat} : Inside objects v (place ++ [i]) ref ↔
    v.at? objects place = some (object ref) ∨ Inside objects v place ref := by
  constructor
  · rintro ⟨outer, j, rest, h, houter⟩
    rcases List.eq_nil_or_concat rest with rfl | ⟨rest, k, rfl⟩
    · obtain ⟨rfl, -⟩ := List.append_inj' h rfl
      exact .inl houter
    · rw [List.concat_eq_append, ← List.cons_append, ← List.append_assoc] at h
      obtain ⟨rfl, -⟩ := List.append_inj' h rfl
      exact .inr ⟨outer, j, rest, rfl, houter⟩
  · rintro (hat | ⟨outer, j, rest, rfl, houter⟩)
    · exact ⟨place, i, [], rfl, hat⟩
    · exact ⟨outer, j, rest ++ [i], by simp, houter⟩

/-! ## One text -/

/-- There is at most one text from a place on. -/
theorem Shows.unique {text text' : String} (h : Shows objects v place text)
    (h' : Shows objects v place text') : text = text' := by
  induction h generalizing text' with
  | plain hat hplain =>
      cases h' with
      | plain hat' _ =>
          rw [hat, Option.some.injEq] at hat'
          rw [hat']
      | dots hat' hinside =>
          obtain ⟨elements, helements⟩ := hinside.elements? hat'
          rw [hat, Option.some.injEq] at hat'
          rw [hat', helements] at hplain
          cases hplain
      | vector hat' helements =>
          rw [hat, Option.some.injEq] at hat'
          rw [hat', helements] at hplain
          cases hplain
  | dots hat hinside =>
      cases h' with
      | plain hat' hplain =>
          obtain ⟨elements, helements⟩ := hinside.elements? hat
          rw [hat, Option.some.injEq] at hat'
          rw [← hat', helements] at hplain
          cases hplain
      | dots => rfl
      | vector hat' _ hnot =>
          rw [hat, Option.some.injEq, object.injEq] at hat'
          exact absurd (hat' ▸ hinside) hnot
  | @vector place ref elements texts hat helements hnot hlength _ ih =>
      cases h' with
      | plain hat' hplain =>
          rw [hat, Option.some.injEq] at hat'
          rw [← hat', helements] at hplain
          cases hplain
      | dots hat' hinside =>
          rw [hat, Option.some.injEq, object.injEq] at hat'
          exact absurd (hat' ▸ hinside) hnot
      | @vector _ _ elements' texts' hat' helements' _ hlength' htexts' =>
          rw [hat, Option.some.injEq, object.injEq] at hat'
          rw [← hat', helements, Option.some.injEq] at helements'
          have htexts : texts = texts' := by
            refine List.ext_getElem (by rw [hlength, hlength', helements']) fun i hi hi' => ?_
            exact ih i _ (List.getElem?_eq_getElem hi) (htexts' i _ (List.getElem?_eq_getElem hi'))
          rw [htexts]

/-- Rendering inside the vectors that stand above a place gives the text from there on. Those
vectors are as many as were entered, so the budget lasts. -/
theorem shows_renderIn {path : List Nat} {budget : Nat} (hat : v.at? objects place = some w)
    (hpath : ∀ ref, ref ∈ path ↔ Inside objects v place ref) (hnodup : path.Nodup)
    (hbudget : objects.size < budget + path.length) :
    Shows objects v place (w.renderIn objects budget path) := by
  induction budget generalizing place w path with
  | zero =>
      have hlt : ∀ ref ∈ path.toFinset, ref < objects.size := by
        intro ref href
        obtain ⟨_, helements⟩ :=
          ((hpath ref).mp (List.mem_toFinset.mp href)).elements? hat
        exact elements?_object helements
      have hcard := card_writing_le hlt
      rw [List.toFinset_card_of_nodup hnodup] at hcard
      omega
  | succ budget ih =>
      cases w with
      | object ref =>
          rw [renderIn]
          cases hinst : objects[ref]? with
          | none =>
              have hplain : Shows objects v place ((object ref).plainText objects) :=
                .plain hat (by simp [elements?, hinst])
              rwa [plainText, hinst] at hplain
          | some inst =>
              obtain ⟨cls, fields, elements⟩ := inst
              have helements :
                  (object ref).elements? objects = elements.map (·.toList) := by
                simp [elements?, hinst]
              cases elements with
              | none =>
                  have hplain : Shows objects v place ((object ref).plainText objects) :=
                    .plain hat helements
                  rwa [plainText, hinst] at hplain
              | some elements =>
                  dsimp only
                  by_cases hmem : ref ∈ path
                  · rw [if_pos (by simpa using hmem)]
                    exact .dots hat ((hpath ref).mp hmem)
                  · rw [if_neg (by simpa using hmem)]
                    refine .vector hat helements (fun h => hmem ((hpath ref).mpr h))
                      (List.length_map _) fun i text htext => ?_
                    rw [List.getElem?_map, Option.map_eq_some_iff] at htext
                    obtain ⟨element, helement, rfl⟩ := htext
                    refine ih ?_ ?_ (List.nodup_cons.mpr ⟨hmem, hnodup⟩)
                      (by rw [List.length_cons]; omega)
                    · rw [at?_concat hat, helements]
                      exact helement
                    · intro r
                      rw [inside_concat, hat, List.mem_cons, hpath, Option.some.injEq,
                        object.injEq, eq_comm]
      | _ => exact .plain hat rfl

/-- With a budget beyond the number of instances, rendering gives the text of the unfolding. -/
theorem shows_iff_renderIn {budget : Nat} (hbudget : objects.size < budget) (text : String) :
    Shows objects v [] text ↔ text = v.renderIn objects budget [] := by
  have hshows : Shows objects v [] (v.renderIn objects budget []) :=
    shows_renderIn rfl (fun ref => by simp [not_inside_nil]) List.nodup_nil hbudget
  exact ⟨fun h => h.unique hshows, fun h => h ▸ hshows⟩

theorem renderIn_eq_render {budget : Nat} (hbudget : objects.size < budget) :
    v.renderIn objects budget [] = v.render objects :=
  (shows_iff_renderIn (Nat.lt_succ_self _) _).mp ((shows_iff_renderIn hbudget _).mpr rfl)

/-! ## Shared vectors -/

/-- Nothing that stands above the place can be reached from it. -/
def NoneAbove (objects : Objects) (v : Value) (place : List Nat) (w : Value) : Prop :=
  ∀ ref, Inside objects v place ref → ∀ inner, w.at? objects inner ≠ some (object ref)

/-- What stands above a place further down stands above it in the unfolding of its own value,
too, unless it stands above that. -/
theorem NoneAbove.inside_iff (h : NoneAbove objects v place w)
    (hat : v.at? objects place = some w) (hinner : w.at? objects inner = some (object ref)) :
    Inside objects v (place ++ inner) ref ↔ Inside objects w inner ref := by
  constructor
  · rintro ⟨outer, i, rest, heq, houter⟩
    rcases List.append_eq_append_iff.mp heq with ⟨below, rfl, hrest⟩ | ⟨above, rfl, hrest⟩
    · rw [at?_append, hat, Option.bind_some] at houter
      exact ⟨below, i, rest, hrest, houter⟩
    · cases above with
      | nil =>
          rw [List.append_nil] at hat
          rw [houter, Option.some.injEq] at hat
          exact ⟨[], i, rest, hrest.symm, by rw [← hat]; rfl⟩
      | cons j above =>
          rw [List.cons_append, List.cons.injEq] at hrest
          exact absurd hinner (h ref ⟨outer, j, above, rfl, houter⟩ inner)
  · rintro ⟨outer, i, rest, rfl, houter⟩
    refine ⟨place ++ outer, i, rest, (List.append_assoc _ _ _).symm, ?_⟩
    rw [at?_append, hat]
    exact houter

theorem NoneAbove.shows {text : String} (h : NoneAbove objects v place w)
    (hat : v.at? objects place = some w) (hshows : Shows objects w inner text) :
    Shows objects v (place ++ inner) text := by
  have hplace : ∀ inner, v.at? objects (place ++ inner) = w.at? objects inner := by
    intro inner
    rw [at?_append, hat, Option.bind_some]
  induction hshows with
  | plain hinner hplain => exact .plain ((hplace _).trans hinner) hplain
  | dots hinner hinside =>
      exact .dots ((hplace _).trans hinner) ((h.inside_iff hat hinner).mpr hinside)
  | vector hinner helements hnot hlength _ ih =>
      refine .vector ((hplace _).trans hinner) helements
        (fun hinside => hnot ((h.inside_iff hat hinner).mp hinside)) hlength fun i text htext => ?_
      rw [List.append_assoc]
      exact ih i text htext

/-- The text of a value is that of its unfolding, with dots exactly where a vector stands below
itself. Wherever no cycle leads back up, it is the whole text of what stands there, however
often that stands elsewhere. A writer that marks the vectors it is in the middle of needs no
deeper nesting than there are instances and writes the same text; and its marks are the same
after any writing as before, also after one that it gave up. -/
theorem unfolding_rendered (objects : Objects) (v : Value) :
    (∀ text, Shows objects v [] text ↔ text = v.render objects) ∧
    (∀ place w, v.at? objects place = some w → NoneAbove objects v place w →
      ∀ text, Shows objects v place text ↔ text = w.render objects) ∧
    (∀ limit, objects.size < limit →
      v.write objects limit [] = (some (v.render objects), [])) ∧
    ∀ limit writing, (v.write objects limit writing).2 = writing := by
  refine ⟨shows_iff_renderIn (Nat.lt_succ_self _), ?_, ?_, fun limit => write_set objects limit v⟩
  · intro place w hat hnone text
    have hown : Shows objects w [] (w.render objects) :=
      (shows_iff_renderIn (Nat.lt_succ_self _) _).mpr rfl
    have hshows := hnone.shows hat hown
    rw [List.append_nil] at hshows
    exact ⟨fun h => h.unique hshows, fun h => h ▸ hshows⟩
  · intro limit hlimit
    rw [write_eq_renderIn objects (by omega), renderIn_eq_render hlimit]

/-- A vector that holds another one twice, and itself. -/
theorem unfolding_rendered_shared :
    let vec (elements : Array Value) : Instance := ⟨.root ⟨0, "vec", [], true⟩, [], some elements⟩
    let objects : Objects := #[vec #[object 1, object 1, object 0], vec #[nil]]
    (object 0).render objects = "[[nil], [nil], [...]]" ∧
      Shows objects (object 0) [] "[[nil], [nil], [...]]" ∧
      (object 0).at? objects [1] = some (object 1) ∧
      NoneAbove objects (object 0) [1] (object 1) ∧
      Shows objects (object 0) [1] "[nil]" ∧
      objects.size < 3 ∧
      (object 0).write objects 3 [] = (some "[[nil], [nil], [...]]", []) := by
  intro vec objects
  have hrender : (object 0).render objects = "[[nil], [nil], [...]]" := by decide +kernel
  have hshared : (object 1).render objects = "[nil]" := by decide +kernel
  have hat : (object 0).at? objects [1] = some (object 1) := rfl
  have hnone : NoneAbove objects (object 0) [1] (object 1) := by
    rintro ref ⟨outer, i, rest, houter, href⟩ inner hinner
    obtain rfl : ref = 0 := by
      cases outer with
      | nil =>
          cases href
          rfl
      | cons j outer => simp at houter
    match inner with
    | [] => cases hinner
    | [0] => cases hinner
    | 0 :: _ :: _ => cases hinner
    | (_ + 1) :: _ => cases hinner
  obtain ⟨htext, hplaces, hwrite, _⟩ := unfolding_rendered objects (object 0)
  refine ⟨hrender, (htext _).mpr hrender.symm, hat, hnone, ?_, by decide, ?_⟩
  · exact (hplaces [1] (object 1) hat hnone _).mpr hshared.symm
  · rw [hwrite 3 (by decide), hrender]

end Value
end Lox
