import Lox.Proofs.Equality

/-!
# Counting with doubles

Up to `2 ^ 53` the integers are doubles, whether they are read from digits or converted from the
length of a list, and what a program needs to count down loses nothing: one less is rounded to
itself, a sign is only turned, and comparing with zero sees the sign. So counting with doubles is
counting with integers. Which of the two zeros it ends with does not
matter, and there is nothing to assume of the arithmetic.
-/

namespace Lox

open Float.Model UnpackedFloat

/-- The double is the integer. -/
def IsInteger (x : Float) (i : Int) : Prop :=
  (Binary.ofFloat x).toInt? = some i

/-! ## The parts of an integer -/

/-- What an integer is taken apart into: one of the zeros, or a sign and a mantissa. -/
inductive IntegerParts : UnpackedFloat → Int → Prop
  | zero (s : Sign) : IntegerParts (.zero s) 0
  | finite (s : Sign) {m n : Nat} {e : Int} (h : IsWhole m e n) :
      IntegerParts (.finite s m e h.isNormal.pos) (s.apply n)

section

variable {x : Float} {i : Int}

theorem Binary.sign_of_toInt? {negative : Bool} {m : Nat} {e : Int}
    (h : (Binary.finite negative m e).toInt? = some i) : i = (signOf negative).apply i.natAbs := by
  simp only [Binary.toInt?, Option.map_eq_some_iff] at h
  obtain ⟨n, hn, rfl⟩ := h
  obtain ⟨k, -, ⟨⟩⟩ := Option.bind_eq_some_iff.mp hn
  cases negative <;> simp [signOf, Sign.apply]

theorem Binary.toInt?_finite {negative : Bool} {m n : Nat} {e : Int}
    (h : n * 2 ^ (-e).toNat = m * 2 ^ e.toNat) :
    (Binary.finite negative m e).toInt? = some ((signOf negative).apply n) := by
  have hmagnitude : (if 0 ≤ e then some (m * Nat.pow 2 e.toNat)
      else if m % Nat.pow 2 (-e).toNat = 0 then some (m / Nat.pow 2 (-e).toNat)
      else none) = some n := by
    split
    · rw [Int.toNat_eq_zero.mpr (show -e ≤ 0 by omega), Nat.pow_zero, Nat.mul_one] at h
      exact congrArg some h.symm
    · rw [Int.toNat_eq_zero.mpr (show e ≤ 0 by omega), Nat.pow_zero, Nat.mul_one] at h
      rw [← h, Nat.pow_eq, Nat.mul_mod_left, if_pos rfl, Nat.mul_div_cancel _ (Nat.two_pow_pos _)]
  rw [Binary.toInt?, hmagnitude]
  cases negative <;> rfl

theorem IsInteger.parts (h : IsInteger x i) (hsmall : i.natAbs ≤ 2 ^ 53) :
    IntegerParts x.toModel.unpack i := by
  rw [unpack_toModel]
  cases hb : Binary.ofFloat x with
  | nan => rw [IsInteger, hb] at h; cases h
  | infinite => rw [IsInteger, hb] at h; cases h
  | finite negative m e =>
      rw [IsInteger, hb] at h
      obtain rfl | hwhole := Binary.isWhole_of_toInt? hb h (by omega)
      · have hvalue := Binary.value_of_toInt? h
        rw [Nat.zero_mul] at hvalue
        have hi := (Nat.mul_eq_zero.mp hvalue).resolve_right (Nat.two_pow_pos _).ne'
        rw [Int.natAbs_eq_zero.mp hi]
        exact .zero (signOf negative)
      · have hparts := IntegerParts.finite (signOf negative) hwhole
        rw [← Binary.sign_of_toInt? h] at hparts
        rwa [Binary.unpacked, dif_neg hwhole.isNormal.pos.ne']

theorem IntegerParts.isInteger (h : IntegerParts x.toModel.unpack i) : IsInteger x i := by
  rw [unpack_toModel] at h
  rw [IsInteger]
  generalize Binary.ofFloat x = b at h ⊢
  generalize hu : b.unpacked = u at h
  rcases b with _ | _ | ⟨negative, m, e⟩
  · cases h <;> cases hu
  · cases h <;> cases hu
  · simp only [Binary.unpacked] at hu
    cases h with
    | zero s =>
        split at hu
        · next hm =>
            rw [hm, Binary.toInt?_finite (n := 0) (by rw [Nat.zero_mul, Nat.zero_mul])]
            cases negative <;> rfl
        · cases hu
    | finite s h =>
        split at hu
        · cases hu
        · cases hu
          exact Binary.toInt?_finite h.value

/-! ## Arithmetic among integers -/

/-- What is packed is what is unpacked. -/
theorem IntegerParts.unpack_pack {u : UnpackedFloat} (h : IntegerParts u i) :
    UnpackedFloat.unpack .binary64 (UnpackedFloat.pack .binary64 u) = u := by
  cases h with
  | zero s => cases s <;> exact unpack_packedZero
  | finite s h => exact h.isNormal.unpack_pack s

theorem IntegerParts.neg {u : UnpackedFloat} (h : IntegerParts u i) : IntegerParts u.neg (-i) := by
  cases h with
  | zero s => exact .zero (-s)
  | @finite s _ n _ h =>
      have hsign : -s.apply n = (-s).apply n := by cases s <;> simp [Sign.apply]
      rw [hsign]
      exact .finite (-s) h

theorem IsInteger.neg (h : IsInteger x i) (hsmall : i.natAbs ≤ 2 ^ 53) : IsInteger (-x) (-i) := by
  have hparts := (h.parts hsmall).neg
  refine IntegerParts.isInteger ?_
  show IntegerParts (UnpackedFloat.unpack .binary64
    (UnpackedFloat.pack .binary64 x.toModel.unpack.neg)) (-i)
  rwa [hparts.unpack_pack]

/-- Rounding gives a double back, however far its mantissa was shifted. -/
theorem IsNormal.round {m : Nat} {e : Int} (h : IsNormal m e) (s : Sign) (j : Nat) :
    UnpackedFloat.round .binary64 s (m * 2 ^ j) (e - j) = .finite s m e h.pos := by
  have hshift : (e - j - e).toNat = 0 := by omega
  simp only [UnpackedFloat.round, totalExponent_mul_pow h.pos, h.targetExponent, decreaseExponent,
    hshift, Nat.shiftLeft_zero, Int.ofNat_zero, Int.sub_zero, h.roundWithAccuracy]

/-- Every positive number up to `2 ^ 53` is a mantissa with its first bit set. -/
theorem exists_isWhole {n : Nat} (hpos : 0 < n) (hsmall : n ≤ 2 ^ 53) : ∃ m e, IsWhole m e n := by
  obtain rfl | hlt := Nat.eq_or_lt_of_le hsmall
  · exact ⟨2 ^ 52, 1, by decide, by decide, by decide, by decide⟩
  have hlog : n.log2 ≤ 52 := by
    have := (Nat.log2_lt hpos.ne').mpr hlt
    omega
  have hlow : 2 ^ 52 ≤ n * 2 ^ (52 - n.log2) := by
    calc 2 ^ 52 = 2 ^ n.log2 * 2 ^ (52 - n.log2) := by rw [← Nat.pow_add]; congr 1; omega
      _ ≤ n * 2 ^ (52 - n.log2) := Nat.mul_le_mul_right _ (Nat.log2_self_le hpos.ne')
  have hhigh : n * 2 ^ (52 - n.log2) < 2 ^ 53 := by
    calc n * 2 ^ (52 - n.log2) < 2 ^ (n.log2 + 1) * 2 ^ (52 - n.log2) :=
          Nat.mul_lt_mul_of_pos_right Nat.lt_log2_self (Nat.two_pow_pos _)
      _ = 2 ^ 53 := by rw [← Nat.pow_add]; congr 1; omega
  refine ⟨n * 2 ^ (52 - n.log2), n.log2 - 52, hlow, hhigh, ?_, by omega⟩
  rw [show (-((n.log2 : Int) - 52)).toNat = 52 - n.log2 by omega,
    show ((n.log2 : Int) - 52).toNat = 0 by omega, Nat.pow_zero, Nat.mul_one]

/-- What the digits of a number are read as is that number. -/
theorem isInteger_readNumeral {n : Nat} (hsmall : n ≤ 2 ^ 53) :
    IsInteger (readNumeral (Nat.toDigits 10 n)) n := by
  refine IntegerParts.isInteger ?_
  rw [readNumeral_toDigits]
  obtain rfl | hpos := Nat.eq_zero_or_pos n
  · exact .zero .positive
  · obtain ⟨m, e, h⟩ := exists_isWhole hpos hsmall
    rw [h.unpack_ofScientific]
    exact .finite .positive h

/-- Multiplying by one only moves the point. -/
theorem IsNormal.mul_one {m : Nat} {e : Int} (h : IsNormal m e) :
    UnpackedFloat.mul .binary64 (.finite .positive m e h.pos)
      (.finite .positive (2 ^ 52) (-52) (Nat.two_pow_pos 52)) = .finite .positive m e h.pos :=
  h.roundWithAccuracy .positive 52

/-- A natural number is converted by multiplying with one, or if that would be too long by
rounding once. -/
theorem IsWhole.unpack_natToFloat {m n : Nat} {e : Int} (h : IsWhole m e n) :
    n.toFloat.toModel.unpack = .finite .positive m e h.isNormal.pos := by
  have hpack := h.isNormal.unpack_pack .positive
  have hlow := h.low
  have hhigh := h.high
  have hvalue := h.value
  have hle := h.exponent_le
  show (Float.ofScientific n false 0).toModel.unpack = _
  obtain rfl | hsmall : e = 1 ∨ e ≤ 0 := by omega
  · have hn : n = m * 2 := (Nat.mul_one n).symm.trans hvalue
    rw [Float.ofScientific, dif_neg (by omega)]
    rw [← h.ofScientific] at hpack ⊢
    exact hpack
  · rw [Int.toNat_eq_zero.mpr hsmall, Nat.pow_zero, Nat.mul_one] at hvalue
    have hn : n ≤ m := hvalue ▸ Nat.le_mul_of_pos_right n (Nat.two_pow_pos _)
    have hproduct : UnpackedFloat.mul .binary64 n.toUInt64.toFloat.toModel.unpack
        (Float.ofBits 0x3FF0000000000000).toModel.unpack =
        .finite .positive m e h.isNormal.pos := by
      rw [h.unpack_toFloat hsmall, unpack_one, h.isNormal.mul_one]
    rw [Float.ofScientific, dif_pos ⟨by omega, Nat.zero_le 22⟩]
    rw [← hproduct] at hpack ⊢
    exact hpack

/-- The double that a natural number is converted to is that number. -/
theorem isInteger_toFloat {n : Nat} (hsmall : n ≤ 2 ^ 53) : IsInteger n.toFloat n := by
  obtain rfl | hpos := Nat.eq_zero_or_pos n
  · show (Binary.ofFloat (Nat.toFloat 0)).toInt? = some 0
    decide +kernel
  · obtain ⟨m, e, h⟩ := exists_isWhole hpos hsmall
    refine IntegerParts.isInteger ?_
    rw [h.unpack_natToFloat]
    exact .finite .positive h

/-- A whole number in units of `2 ^ -52`. -/
theorem IsWhole.shifted {m n j : Nat} {e : Int} (h : IsWhole m e n) (hj : e + 52 = j) :
    m * 2 ^ j = n * 2 ^ 52 := by
  have hpow : 2 ^ (2 - e).toNat * 2 ^ j = 2 ^ 52 * 4 := by
    have hle := h.exponent_le
    rw [← Nat.pow_add, show (2 - e).toNat + j = 52 + 2 by omega, Nat.pow_add]
  refine Nat.eq_of_mul_eq_mul_left (show 0 < 4 by decide) ?_
  rw [← Nat.mul_assoc, ← h.value_around, Nat.mul_assoc, hpow, ← Nat.mul_assoc, Nat.mul_comm]

/-- A whole number in these units is rounded to itself. -/
theorem normalize_shifted {n : Nat} (hsmall : n ≤ 2 ^ 53) :
    IntegerParts (UnpackedFloat.normalize .binary64 (n * 2 ^ 52 : Nat) (-52) .positive) n := by
  obtain rfl | hpos := Nat.eq_zero_or_pos n
  · rw [Nat.zero_mul]
    exact .zero .positive
  · obtain ⟨m, e, h⟩ := exists_isWhole hpos hsmall
    obtain ⟨j, hj⟩ := Int.eq_ofNat_of_zero_le (show 0 ≤ e + 52 by have := h.le_exponent; omega)
    have hcompare : compare ((n * 2 ^ 52 : Nat) : Int) 0 = .gt := by
      rw [Int.compare_eq_gt]
      exact Int.natCast_pos.mpr (Nat.mul_pos hpos (Nat.two_pow_pos 52))
    have hround := h.isNormal.round .positive j
    rw [h.shifted hj, show e - j = -52 by omega] at hround
    rw [UnpackedFloat.normalize, hcompare]
    simp only [Int.toNat_natCast, hround]
    exact .finite .positive h

/-- The numbers that comparing and counting are about are integers as well. -/
theorem unpack_float_zero : (0 : Float).toModel.unpack = .zero .positive := by
  have hzero : Binary.ofFloat 0 = .finite false 0 (-1074) := by decide +kernel
  rw [unpack_toModel, hzero]
  rfl

theorem unpack_float_one :
    (1 : Float).toModel.unpack = .finite .positive (2 ^ 52) (-52) (Nat.two_pow_pos 52) := by
  have hone : (1 : Float) = Float.ofBits 0x3FF0000000000000 := by decide +kernel
  rw [hone, unpack_one]

/-- Numbers are subtracted in units of the smaller exponent. -/
theorem sub_finite {f : Format} {s t : Sign} {m n : Nat} {d e : Int} (hm : 0 < m) (hn : 0 < n) :
    UnpackedFloat.sub f (.finite s m d hm) (.finite t n e hn) =
      UnpackedFloat.normalize f (s.apply (m * 2 ^ (d - min d e).toNat : Nat) -
        t.apply (n * 2 ^ (e - min d e).toNat : Nat)) (min d e) .positive := by
  rw [← Nat.shiftLeft_eq, ← Nat.shiftLeft_eq]
  rfl

/-- What is left of a whole number without one has no finer part than one has. -/
theorem IsWhole.sub_one {m n : Nat} {e : Int} (h : IsWhole m e n) (hsmall : n ≤ 2 ^ 53) :
    IntegerParts (UnpackedFloat.sub .binary64 (.finite .positive m e h.isNormal.pos)
      (.finite .positive (2 ^ 52) (-52) (Nat.two_pow_pos 52))) (n - 1 : Nat) := by
  have hle := h.le_exponent
  have hpos := h.pos
  obtain ⟨j, hj⟩ := Int.eq_ofNat_of_zero_le (show 0 ≤ e + 52 by omega)
  have hdifference : ((n * 2 ^ 52 : Nat) : Int) - (2 ^ 52 : Nat) = ((n - 1) * 2 ^ 52 : Nat) := by
    rw [Nat.sub_mul, Nat.one_mul, Int.ofNat_sub (Nat.le_mul_of_pos_left _ hpos)]
  rw [sub_finite, show min e (-52) = -52 by omega, show (e - -52).toNat = j by omega, h.shifted hj,
    Int.sub_self, Int.toNat_zero, Nat.pow_zero, Nat.mul_one, Sign.apply, Sign.apply, hdifference]
  exact normalize_shifted (by omega)

theorem IsInteger.sub_one (h : IsInteger x i) (hpos : 0 < i) (hsmall : i ≤ 2 ^ 53) :
    IsInteger (x - 1) (i - 1) := by
  have hparts := h.parts (by omega)
  refine IntegerParts.isInteger ?_
  show IntegerParts (UnpackedFloat.unpack .binary64 (UnpackedFloat.pack .binary64
    (UnpackedFloat.sub .binary64 x.toModel.unpack (1 : Float).toModel.unpack))) (i - 1)
  rw [unpack_float_one]
  generalize x.toModel.unpack = u at hparts ⊢
  cases hparts with
  | zero s => omega
  | @finite s m n e hwhole =>
      cases s with
      | negative => simp only [Sign.apply] at hpos; omega
      | positive =>
          simp only [Sign.apply] at hsmall ⊢
          have hless := hwhole.sub_one (by omega)
          have hpred : (n : Int) - 1 = (n - 1 : Nat) := by have := hwhole.pos; omega
          rw [hless.unpack_pack, hpred]
          exact hless

/-! ## Comparing with zero -/

theorem lt_iff_compare {x y : Float} :
    x < y ↔ x.toModel.unpack.compare y.toModel.unpack = some .lt :=
  decide_eq_true_iff.trans beq_iff_eq

/-- An integer lies on the same side of zero as its double, from either side. -/
theorem IntegerParts.compare_zero {u : UnpackedFloat} (h : IntegerParts u i) (s : Sign) :
    u.compare (.zero s) = some (compare i 0) ∧
      (UnpackedFloat.zero s).compare u = some (compare 0 i) := by
  cases h with
  | zero t => exact ⟨rfl, rfl⟩
  | finite t h =>
      have hpos := h.pos
      cases t with
      | negative =>
          rw [Int.compare_eq_lt.mpr (by rw [Sign.apply]; omega),
            Int.compare_eq_gt.mpr (by rw [Sign.apply]; omega)]
          exact ⟨rfl, rfl⟩
      | positive =>
          rw [Int.compare_eq_gt.mpr (by rw [Sign.apply]; omega),
            Int.compare_eq_lt.mpr (by rw [Sign.apply]; omega)]
          exact ⟨rfl, rfl⟩

theorem IsInteger.zero_lt_iff (h : IsInteger x i) (hsmall : i.natAbs ≤ 2 ^ 53) :
    0 < x ↔ 0 < i := by
  rw [lt_iff_compare, unpack_float_zero, ((h.parts hsmall).compare_zero _).2, Option.some.injEq,
    Int.compare_eq_lt]

theorem IsInteger.lt_zero_iff (h : IsInteger x i) (hsmall : i.natAbs ≤ 2 ^ 53) :
    x < 0 ↔ i < 0 := by
  rw [lt_iff_compare, unpack_float_zero, ((h.parts hsmall).compare_zero _).1, Option.some.injEq,
    Int.compare_eq_lt]

end

end Lox
