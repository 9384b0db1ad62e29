import Lox.Eval.Run
import Lox.Proofs.Numerals.Paper

/-!
# Equality

Values are equal if they are of one kind and agree in what tells values of that kind apart: a
truth value, a number, a text, or the identity of a function, a class or an instance. So there
is one thing about a value that equality looks at, and being equal is having the same of it.
Everything else follows from there: equality is an equivalence, and whatever can be said of a
value by looking at that thing alone is said of all values that are equal to it.

Only numbers need an argument. Two doubles that are compared as numbers are told apart by their
parts, except that the two zeros are not, and that what is no number is not even equal to
itself. Programs see it as equal to itself and its like.
-/

namespace Lox

open Float.Model UnpackedFloat

/-! ## Numbers -/

/-- The number that a double stands for: there is one zero. -/
def Binary.value : Binary → Binary
  | .finite _ 0 _ => .finite false 0 0
  | b => b

theorem sameNumber_iff_value {x y : Float} :
    sameNumber x y = true ↔ (Binary.ofFloat x).value = (Binary.ofFloat y).value := by
  rw [sameNumber]
  rcases Binary.ofFloat x with _ | _ | ⟨_, m, _⟩ <;> rcases Binary.ofFloat y with _ | _ | ⟨_, n, _⟩
  case finite.finite => cases m <;> cases n <;> simp [Binary.value]
  case finite.nan | finite.infinite => cases m <;> simp [Binary.value]
  case nan.finite | infinite.finite => cases n <;> simp [Binary.value]
  all_goals simp [Binary.value]

/-- Parts compare as equal if they are those of one number. -/
theorem compare_unpacked_eq {a b : Binary} :
    a.unpacked.compare b.unpacked = some .eq ↔ a ≠ .nan ∧ a.value = b.value := by
  rcases a with _ | s | ⟨s, m, e⟩ <;> rcases b with _ | t | ⟨t, n, f⟩
  case finite.finite =>
    -- exponents are compared first, mantissas after them
    cases m <;> cases n <;> cases s <;> cases t <;>
      simp [Binary.unpacked, Binary.value, signOf, UnpackedFloat.compare, Ordering.then_eq_eq,
        and_comm]
  case finite.nan | finite.infinite =>
    cases m <;> cases s <;> try cases t
    all_goals simp [Binary.unpacked, Binary.value, signOf, UnpackedFloat.compare]
  case nan.finite | infinite.finite =>
    cases n <;> cases t <;> try cases s
    all_goals simp [Binary.unpacked, Binary.value, signOf, UnpackedFloat.compare]
  case infinite.infinite =>
    cases s <;> cases t <;>
      simp [Binary.unpacked, Binary.value, signOf, UnpackedFloat.compare] <;> decide
  all_goals simp [Binary.unpacked, Binary.value, UnpackedFloat.compare]

theorem unpack_toModel (x : Float) : x.toModel.unpack = (Binary.ofFloat x).unpacked :=
  unpack_eq_unpacked x.toBits

theorem beq_iff_value {x y : Float} :
    (x == y) = true ↔
      Binary.ofFloat x ≠ .nan ∧ (Binary.ofFloat x).value = (Binary.ofFloat y).value := by
  rw [← compare_unpacked_eq, ← unpack_toModel, ← unpack_toModel]
  show (x.toModel.unpack.compare y.toModel.unpack == some .eq) = true ↔ _
  exact beq_iff_eq

theorem isNaN_iff {x : Float} : x.isNaN = true ↔ Binary.ofFloat x = .nan := by
  rw [Float.isNaN, Float.Model.isNaN, unpack_toModel]
  rcases Binary.ofFloat x with _ | _ | ⟨_, m, _⟩
  case finite => cases m <;> simp [Binary.unpacked, UnpackedFloat.isNaN]
  all_goals simp [Binary.unpacked, UnpackedFloat.isNaN]

/-- Numbers are the same for programs if they compare as equal, or neither is a number. -/
theorem sameNumber_iff {x y : Float} :
    sameNumber x y = true ↔ (x == y) = true ∨ x.isNaN = true ∧ y.isNaN = true := by
  have hnan : ∀ b : Binary, b.value = .nan ↔ b = .nan := by
    rintro (_ | _ | ⟨_, m, _⟩)
    case finite => cases m <;> simp [Binary.value]
    all_goals simp [Binary.value]
  rw [sameNumber_iff_value, beq_iff_value, isNaN_iff, isNaN_iff]
  by_cases hx : Binary.ofFloat x = .nan
  · rw [hx, show Binary.nan.value = .nan from rfl, eq_comm, hnan]
    simp
  · simp [hx]

/-! ## Values -/

/-- What equality looks at in a value: its kind, and what tells values of the kind apart. -/
inductive Identity where
  | nil
  | bool (b : Bool)
  | number (b : Binary)
  | text (s : String)
  | function (id : Nat)
  | native (id : Nat)
  | nativeMethod (id : Nat)
  | cls (id : Nat)
  | object (ref : Nat)
  | unassigned

namespace Value

def identity : Value → Identity
  | nil => .nil
  | bool b => .bool b
  | number x => .number (Binary.ofFloat x).value
  | text s => .text s
  | function id _ => .function id
  | native id _ => .native id
  | nativeMethod id _ _ => .nativeMethod id
  | cls c => .cls c.id
  | object ref => .object ref
  | unassigned => .unassigned

theorem same_iff_identity {v w : Value} : v.same w = true ↔ v.identity = w.identity := by
  cases v <;> cases w <;> simp [same, identity, sameNumber_iff_value]

/-- The kind of a value is one of the things that equality looks at. -/
theorem typeName_congr {v w : Value} (h : v.identity = w.identity) (objects : Objects) :
    v.typeName objects = w.typeName objects := by
  cases v <;> cases w <;> simp [identity] at h <;> simp [typeName, h]

theorem truthy_congr {v w : Value} (h : v.identity = w.identity) : v.truthy = w.truthy := by
  cases v <;> cases w <;> simp [identity] at h <;> simp [truthy, h]

/-- Equality is an equivalence. Values that are equal are of the same kind, also among
instances, and hold alike. Numbers are equal if they compare so, the two zeros among them, or
if neither is a number. -/
theorem same_isEquivalence :
    (Equivalence fun v w : Value => v.same w = true) ∧
      (∀ v w : Value, v.same w = true →
        (∀ objects, v.typeName objects = w.typeName objects) ∧ v.truthy = w.truthy) ∧
      ∀ x y : Float, (number x).same (number y) = true ↔
        (x == y) = true ∨ x.isNaN = true ∧ y.isNaN = true := by
  refine ⟨?_, ?_, ?_⟩
  · constructor
    · intro v
      exact same_iff_identity.mpr rfl
    · intro v w h
      exact same_iff_identity.mpr (same_iff_identity.mp h).symm
    · intro u v w huv hvw
      exact same_iff_identity.mpr ((same_iff_identity.mp huv).trans (same_iff_identity.mp hvw))
  · intro v w h
    have hidentity := same_iff_identity.mp h
    exact ⟨typeName_congr hidentity, truthy_congr hidentity⟩
  · intro x y
    exact sameNumber_iff

/-- The two zeros are equal, and what is no number is equal to itself. -/
theorem same_isEquivalence_zeros :
    let zero := number (Float.ofBits 0)
    let minusZero := number (Float.ofBits 0x8000000000000000)
    let nan := number (Float.ofBits 0x7FF8000000000000)
    nan.same nan = true ∧ zero.same minusZero = true ∧
      zero.typeName #[] = minusZero.typeName #[] ∧ zero.truthy = minusZero.truthy := by
  intro zero minusZero nan
  obtain ⟨hequivalence, hlike, hnumbers⟩ := same_isEquivalence
  have hzeros : zero.same minusZero = true := (hnumbers _ _).mpr (.inl (by decide +kernel))
  obtain ⟨htype, htruthy⟩ := hlike _ _ hzeros
  exact ⟨hequivalence.refl nan, hzeros, htype #[], htruthy⟩

end Value
end Lox
