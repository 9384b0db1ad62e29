import Lox.Proofs.Printing.Digits
import Mathlib

/-!
# Whole numbers as doubles

The digits of a whole number are read by arithmetic on doubles: below `2 ^ 53` they are converted
and divided by one, from there on they are multiplied by one and rounded once. Nothing is lost on
either way if the number is a double, because rounding only moves the point of a mantissa that
has its first bit set. So what is read is the double itself, bit for bit.
-/

namespace Lox

open Float.Model UnpackedFloat

/-- A mantissa with its first bit set, and an exponent that needs neither to be cut off. -/
structure IsNormal (m : Nat) (e : Int) : Prop where
  low : 2 ^ 52 ≤ m
  high : m < 2 ^ 53
  least : -1074 ≤ e
  most : e ≤ 971

theorem IsWhole.isNormal {m n : Nat} {e : Int} (h : IsWhole m e n) : IsNormal m e := by
  have hge := h.le_exponent
  have hle := h.exponent_le
  exact ⟨h.low, h.high, by omega, by omega⟩

/-- The sign of a double taken apart. -/
def signOf (negative : Bool) : Sign :=
  if negative then .negative else .positive

section

variable {m : Nat} {e : Int}

theorem IsNormal.pos (h : IsNormal m e) : 0 < m :=
  Nat.lt_of_lt_of_le (by decide) h.low

theorem IsNormal.log2 (h : IsNormal m e) : m.log2 = 52 :=
  (Nat.log2_eq_iff h.pos.ne').mpr ⟨h.low, h.high⟩

/-! ## Rounding -/

theorem log2_mul_pow (hm : 0 < m) (j : Nat) : (m * 2 ^ j).log2 = m.log2 + j := by
  refine (Nat.log2_eq_iff (Nat.mul_pos hm (Nat.two_pow_pos j)).ne').mpr ⟨?_, ?_⟩
  · rw [Nat.pow_add]
    exact Nat.mul_le_mul_right _ (Nat.log2_self_le hm.ne')
  · rw [Nat.add_right_comm, Nat.pow_add]
    exact Nat.mul_lt_mul_of_pos_right Nat.lt_log2_self (Nat.two_pow_pos j)

/-- Where the first bit stands does not depend on where the point does. -/
theorem totalExponent_mul_pow (hm : 0 < m) (j : Nat) :
    totalExponent (m * 2 ^ j) (e - j) = totalExponent m e := by
  rw [totalExponent, totalExponent, log2_mul_pow hm]
  omega

theorem IsNormal.targetExponent (h : IsNormal m e) :
    Format.binary64.targetExponent (totalExponent m e) = e := by
  have hleast := h.least
  have hmin : Format.binary64.minExponent = -1074 := by decide
  have hbits : Format.binary64.mantissaBits = 53 := by decide
  rw [Format.targetExponent, totalExponent, h.log2, hmin, hbits]
  omega

/-- Nothing is lost when bits that are zero are shifted out. -/
theorem shiftRight_exact (m j : Nat) :
    ((⟨m * 2 ^ j, false, false⟩ : ExtendedMantissa) >>> j) = ⟨m, false, false⟩ := by
  show j.repeat ExtendedMantissa.shiftRightOne _ = _
  induction j generalizing m with
  | zero => rw [Nat.pow_zero, Nat.mul_one]; rfl
  | succ j ih =>
      rw [Nat.repeat, Nat.pow_succ', ← Nat.mul_assoc, ih]
      simp [ExtendedMantissa.shiftRightOne]

theorem IsNormal.shiftToTargetExponent (h : IsNormal m e) (j : Nat) :
    shiftToTargetExponent .binary64 (m * 2 ^ j) (e - j) .exact = (⟨m, false, false⟩, e) := by
  have hshift : (e - (e - (j : Int))).toNat = j := by omega
  simp only [UnpackedFloat.shiftToTargetExponent, totalExponent_mul_pow h.pos, h.targetExponent,
    shiftToExponent, hshift, ExtendedMantissa.ofMantissaAndAccuracy, shiftRight_exact,
    Int.sub_add_cancel]

/-- Rounding a double gives it back, wherever its point stands. -/
theorem IsNormal.roundWithAccuracy (h : IsNormal m e) (s : Sign) (j : Nat) :
    roundWithAccuracy .binary64 s (m * 2 ^ j) (e - j) .exact = .finite s m e h.pos := by
  have hfirst := h.shiftToTargetExponent j
  have hsecond := h.shiftToTargetExponent 0
  rw [Nat.pow_zero, Nat.mul_one, Int.ofNat_zero, Int.sub_zero] at hsecond
  have hrounded : (⟨m, false, false⟩ : ExtendedMantissa).roundedMantissa = m := rfl
  simp only [UnpackedFloat.roundWithAccuracy, hfirst, hrounded, hsecond, dif_neg h.pos.ne']

/-! ## Packing -/

theorem toNat_ofNat {w n : Nat} (h : n < 2 ^ w) : (BitVec.ofNat w n).toNat = n := by
  rw [BitVec.toNat_ofNat, Nat.mod_eq_of_lt h]

theorem toNat_one_append (v : BitVec 52) : (1#1 ++ v).toNat = v.toNat + 2 ^ 52 := by
  rw [BitVec.toNat_append, BitVec.toNat_ofNat, ← Nat.shiftLeft_add_eq_or_of_lt v.isLt,
    Nat.add_comm]
  rfl

/-- The parts that a double is packed into. The field of the exponent is neither that of the
smallest numbers nor that of infinity. -/
theorem IsNormal.pack (h : IsNormal m e) (s : Sign) :
    ∃ field : Nat, 0 < field ∧ field < 2047 ∧ e = field - 1075 ∧
      UnpackedFloat.pack .binary64 (.finite s m e h.pos) =
        packComponents .binary64 s (BitVec.ofNat _ field) (BitVec.ofNat _ m) := by
  have hleast := h.least
  have hmost := h.most
  have hbias : Format.binary64.exponentBias = 1023 := by decide
  have hbits : Format.binary64.mantissaBits = 52 + 1 := by decide
  obtain ⟨field, hfield⟩ :=
    Int.eq_ofNat_of_zero_le (show 0 ≤ e + (1023 : Nat) + (52 : Nat) by omega)
  have hsmall : ¬ 2 ^ 11 ≤ field + 1 := by omega
  refine ⟨field, by omega, by omega, by omega, ?_⟩
  simp only [UnpackedFloat.pack, h.log2, hbias, hbits, hfield, Int.toNat_natCast, if_neg hsmall,
    if_true]

/-- The first bit of the mantissa is left out when a double is packed, and put back. -/
theorem IsNormal.unpack_pack (h : IsNormal m e) (s : Sign) :
    UnpackedFloat.unpack .binary64 (UnpackedFloat.pack .binary64 (.finite s m e h.pos)) =
      .finite s m e h.pos := by
  obtain ⟨field, hpos, hlt, he, hpack⟩ := h.pack s
  have hbias : Format.binary64.exponentBias = 1023 := by decide
  have hexponent := toNat_ofNat (show field < 2 ^ 11 by omega)
  have hmantissa : (1#1 ++ BitVec.ofNat 52 m).toNat = m := by
    have hlow := h.low
    have hhigh := h.high
    rw [toNat_one_append, BitVec.toNat_ofNat]
    omega
  have hne : ∀ k < 2 ^ 11, field ≠ k → BitVec.ofNat 11 field ≠ BitVec.ofNat 11 k := by
    intro k hk hfieldk heq
    have := congrArg BitVec.toNat heq
    rw [hexponent, toNat_ofNat hk] at this
    exact hfieldk this
  have hlast : BitVec.ofNat 11 field ≠ -1#11 := hne 2047 (by decide) hlt.ne
  have hfirst : BitVec.ofNat 11 field ≠ 0#11 := hne 0 (by decide) hpos.ne'
  rw [hpack, UnpackedFloat.unpack]
  simp only [unpackExponent_packComponents, unpackMantissa_packComponents,
    unpackSign_packComponents, Sign.ofBitVec_toBitVec]
  rw [if_neg hlast, if_neg hfirst]
  simp only [UnpackedFloat.finite.injEq, hexponent, hmantissa, hbias]
  exact ⟨trivial, trivial, by omega⟩

end

theorem ofBitVec_unpackSign (b : UInt64) :
    Sign.ofBitVec (@unpackSign .binary64 b.toBitVec) =
      signOf (b.toNat / 2 ^ 63 == 1) := by
  have hlt : b.toNat < 2 ^ 64 := b.toNat_lt
  have hbit : (@unpackSign .binary64 b.toBitVec).toNat = b.toNat / 2 ^ 63 := by
    rw [unpackSign_def, BitVec.extractLsb'_toNat, Nat.shiftRight_eq_div_pow,
      UInt64.toNat_toBitVec]
    exact Nat.mod_eq_of_lt (Nat.div_lt_of_lt_mul hlt)
  simp only [Sign.ofBitVec, ← BitVec.toNat_inj, hbit, signOf]
  obtain hzero | hone : b.toNat / 2 ^ 63 = 0 ∨ b.toNat / 2 ^ 63 = 1 := by omega
  · rw [hzero]; rfl
  · rw [hone]; rfl

/-- The two ways to take a double apart agree. -/
theorem unpack_ofBits {b : UInt64} {negative : Bool} {m : Nat} {e : Int}
    (h : Binary.ofBits b = .finite negative m e) :
    UnpackedFloat.unpack .binary64 b.toBitVec =
      if hm : m = 0 then .zero (signOf negative)
      else .finite (signOf negative) m e (Nat.pos_of_ne_zero hm) := by
  have hmantissa : (@unpackMantissa .binary64 b.toBitVec).toNat = b.toNat % 2 ^ 52 := by
    rw [unpackMantissa_def, BitVec.extractLsb'_toNat, Nat.shiftRight_zero, UInt64.toNat_toBitVec]
  have hexponent : (@unpackExponent .binary64 b.toBitVec).toNat =
      b.toNat / 2 ^ 52 % 2 ^ 11 := by
    rw [unpackExponent_def, BitVec.extractLsb'_toNat, Nat.shiftRight_eq_div_pow,
      UInt64.toNat_toBitVec]
  have hsign := ofBitVec_unpackSign b
  have hbias : Format.binary64.exponentBias = 1023 := by decide
  rw [UnpackedFloat.unpack]
  have hlast : (-1#11).toNat = 2047 := rfl
  simp only [hsign, ← BitVec.toNat_inj, toNat_one_append, hmantissa, hexponent, hbias, hlast,
    BitVec.toNat_zero]
  simp only [Binary.ofBits, Nat.pow_eq] at h
  split at h
  · split at h <;> cases h
  · next hfinite =>
      rw [if_neg hfinite]
      split at h
      · next hsubnormal =>
          cases h
          simp only [hsubnormal, if_true]
          rfl
      · next hnormal =>
          cases h
          simp only [if_neg hnormal, dif_neg (Nat.add_pos_right _ (Nat.two_pow_pos 52)).ne']
          rfl

/-! ## Reading digits -/

section

variable {m n : Nat} {e : Int}

/-- A whole number whose mantissa is not longer than itself is rounded to its double. -/
theorem IsWhole.round (h : IsWhole m e n) (hle : e ≤ 0) (s : Sign) :
    UnpackedFloat.round .binary64 s n 0 = .finite s m e h.isNormal.pos := by
  obtain ⟨k, rfl⟩ := Int.exists_eq_neg_ofNat hle
  have hvalue : n * 2 ^ k = m := by
    have hvalue := h.value
    rwa [Int.neg_neg, Int.toNat_natCast, Int.toNat_neg_natCast, Nat.pow_zero, Nat.mul_one] at hvalue
  have htarget : Format.binary64.targetExponent (totalExponent n 0) = -(k : Int) := by
    rw [← totalExponent_mul_pow h.pos k, hvalue, Int.zero_sub, h.isNormal.targetExponent]
  have hrounded := h.isNormal.roundWithAccuracy s 0
  rw [Nat.pow_zero, Nat.mul_one, Int.ofNat_zero, Int.sub_zero] at hrounded
  simp only [UnpackedFloat.round, htarget, decreaseExponent, Int.sub_neg, Int.zero_add,
    Int.toNat_natCast, Nat.shiftLeft_eq, hvalue, Int.zero_sub, hrounded]

/-- The number is converted without a loss. -/
theorem IsWhole.unpack_toFloat (h : IsWhole m e n) (hle : e ≤ 0) :
    n.toUInt64.toFloat.toModel.unpack = .finite .positive m e h.isNormal.pos := by
  have hsmall := h.small
  have hn : n.toUInt64.toNat = n := Nat.mod_eq_of_lt (by omega)
  have hpos : compare (n : Int) 0 = .gt := by
    rw [Int.compare_eq_gt]
    exact Int.natCast_pos.mpr h.pos
  have hunpacked : UnpackedFloat.ofUInt64 .binary64 n.toUInt64 =
      .finite .positive m e h.isNormal.pos := by
    simp only [UnpackedFloat.ofUInt64, hn, UnpackedFloat.ofNat, UnpackedFloat.ofInt,
      UnpackedFloat.normalize, hpos, Int.toNat_natCast, h.round hle]
  have hpack := h.isNormal.unpack_pack .positive
  rw [← hunpacked] at hpack ⊢
  exact hpack

/-- Dividing by one only moves the point. -/
theorem IsNormal.div_one (h : IsNormal m e) (hleast : -1020 ≤ e) :
    UnpackedFloat.div .binary64 (.finite .positive m e h.pos)
      (.finite .positive (2 ^ 52) (-52) (Nat.two_pow_pos 52)) = .finite .positive m e h.pos := by
  have hmin : Format.binary64.minExponent = -1074 := by decide
  have hbits : Format.binary64.mantissaBits = 53 := by decide
  have htarget : min (e - -52) (Format.binary64.targetExponent
      (totalExponent m e - totalExponent (2 ^ 52) (-52))) = e - 1 := by
    rw [Format.targetExponent, totalExponent, totalExponent, h.log2, Nat.log2_two_pow, hmin, hbits]
    omega
  have hshift : (e - -52 - (e - 1)).toNat = 1 + 52 := by omega
  have hcore : divCore .binary64 m e (2 ^ 52) (-52) = (m * 2 ^ 1, e - (1 : Nat), .exact) := by
    simp only [divCore, htarget, hshift, Nat.shiftLeft_eq, Nat.pow_add 2 1 52, ← Nat.mul_assoc,
      Nat.mul_div_cancel _ (Nat.two_pow_pos 52), Nat.mul_mod_left, accuracyOfFraction, if_true]
    rfl
  rw [UnpackedFloat.div, hcore]
  exact h.roundWithAccuracy .positive 1

/-- The bits of the power of ten that whole numbers are divided by. -/
theorem unpack_one :
    (Float.ofBits 0x3FF0000000000000).toModel.unpack =
      .finite .positive (2 ^ 52) (-52) (Nat.two_pow_pos 52) := by
  have hbits : Binary.ofBits 0x3FF0000000000000 = .finite false (2 ^ 52) (-52) := by decide
  have hunpacked := unpack_ofBits hbits
  rw [dif_neg (Nat.two_pow_pos 52).ne'] at hunpacked
  have hnormal : IsNormal (2 ^ 52) (-52) := by constructor <;> decide
  have hpack := hnormal.unpack_pack .positive
  rw [show Sign.positive = signOf false from rfl, ← hunpacked] at hpack
  exact hpack.trans hunpacked

/-- A number that is too long for a mantissa is even, and nothing is rounded off. -/
theorem IsWhole.ofScientific (h : IsWhole m 1 n) :
    UnpackedFloat.ofScientific .binary64 n 0 = .finite .positive m 1 h.isNormal.pos := by
  have hn : n = m * 2 := (Nat.mul_one n).symm.trans h.value
  have hmantissa : n <<< Format.binary64.mantissaBits * 10 ^ (0 : Int).toNat = m * 2 ^ 54 := by
    rw [Nat.shiftLeft_eq, hn, show Format.binary64.mantissaBits = 53 by decide, Nat.mul_assoc m 2]
    exact Nat.mul_one _
  have hexponent : (-(Format.binary64.mantissaBits : Int)) + 0 = 1 - (54 : Nat) := by decide
  have htiny : ¬ (0 : Int) < -(2 ^ Format.binary64.exponentBits + (n.log2 : Int)) := by
    have : (0 : Int) ≤ 2 ^ Format.binary64.exponentBits := by decide
    omega
  rw [UnpackedFloat.ofScientific, dif_neg h.pos.ne', if_neg (by decide), if_neg htiny,
    if_pos (Int.le_refl 0), UnpackedFloat.mul]
  simp only [hmantissa, hexponent]
  exact h.isNormal.roundWithAccuracy .positive 54

/-- Digits of a double are read as that double. -/
theorem IsWhole.unpack_ofScientific (h : IsWhole m e n) :
    (Float.ofScientific n true 0).toModel.unpack = .finite .positive m e h.isNormal.pos := by
  have hpack := h.isNormal.unpack_pack .positive
  have hlow := h.low
  have hhigh := h.high
  have hvalue := h.value
  have hle := h.exponent_le
  obtain rfl | hsmall : e = 1 ∨ e ≤ 0 := by omega
  · have hn : n = m * 2 := (Nat.mul_one n).symm.trans hvalue
    rw [Float.ofScientific, dif_neg (by omega)]
    rw [← h.ofScientific] at hpack ⊢
    exact hpack
  · rw [Int.toNat_eq_zero.mpr hsmall, Nat.pow_zero, Nat.mul_one] at hvalue
    have hn : n ≤ m := hvalue ▸ Nat.le_mul_of_pos_right n (Nat.two_pow_pos _)
    have hdiv := h.isNormal.div_one (by have := h.le_exponent; omega)
    have hquotient : UnpackedFloat.div .binary64 n.toUInt64.toFloat.toModel.unpack
        (Float.ofBits 0x3FF0000000000000).toModel.unpack =
        .finite .positive m e h.isNormal.pos := by
      rw [h.unpack_toFloat hsmall, unpack_one, hdiv]
    rw [Float.ofScientific, dif_pos ⟨by omega, Nat.zero_le 22⟩]
    rw [← hquotient] at hpack ⊢
    exact hpack

end

/-- Doubles with the same parts are the same, bit for bit. -/
theorem eq_of_unpack {x y : Float} (h : x.toModel.unpack = y.toModel.unpack) : x = y := by
  refine Float.toBits_inj.mp (UInt64.toBitVec_inj.mp ?_)
  exact (unpack_inj_of_valid x.toModel.valid y.toModel.valid).mp h

/-- Putting a sign in front of what is read negates it, also if it is zero. -/
theorem unpack_neg {x : Float} {negative : Bool} {m : Nat} {e : Int}
    (h : x.toModel.unpack = if hm : m = 0 then .zero .positive
      else .finite .positive m e (Nat.pos_of_ne_zero hm))
    (hnormal : m = 0 ∨ IsNormal m e) :
    (if negative then -x else x).toModel.unpack =
      if hm : m = 0 then .zero (signOf negative)
      else .finite (signOf negative) m e (Nat.pos_of_ne_zero hm) := by
  cases negative with
  | false => exact h
  | true =>
      show UnpackedFloat.unpack .binary64 (UnpackedFloat.pack .binary64 x.toModel.unpack.neg) = _
      rw [h]
      obtain rfl | hnormal := hnormal
      · exact unpack_packedZero
      · simp only [dif_neg hnormal.pos.ne']
        exact hnormal.unpack_pack .negative

/-- A whole number is what its sign and its digits are read as. -/
theorem eq_readNumeral {x : Float} {negative : Bool} {m n : Nat} {e : Int}
    (hbinary : Binary.ofFloat x = .finite negative m e) (hwhole : m = 0 ∧ n = 0 ∨ IsWhole m e n) :
    x = if negative then -readNumeral (Nat.toDigits 10 n)
      else readNumeral (Nat.toDigits 10 n) := by
  refine eq_of_unpack ((unpack_ofBits hbinary).trans (unpack_neg ?_ ?_).symm)
  · rw [readNumeral_toDigits]
    obtain ⟨rfl, rfl⟩ | hwhole := hwhole
    · rfl
    · rw [hwhole.unpack_ofScientific, dif_neg hwhole.isNormal.pos.ne']
  · exact hwhole.imp And.left IsWhole.isNormal

/-- A whole number below `10 ^ 16` is printed as a sign, if it has one, and digits, and they are
read as that number. -/
theorem number_readsBack {x : Float} {i : Int} (hwhole : (Binary.ofFloat x).toInt? = some i)
    (hsmall : i.natAbs < 10 ^ 16) :
    ∃ (negative : Bool) (n : Nat),
      Layout.display.number x =
        (if negative then "-" else "") ++ String.ofList (Nat.toDigits 10 n) ∧
      x = if negative then -readNumeral (Nat.toDigits 10 n)
        else readNumeral (Nat.toDigits 10 n) := by
  cases hbinary : Binary.ofFloat x with
  | nan => rw [hbinary] at hwhole; cases hwhole
  | infinite negative => rw [hbinary] at hwhole; cases hwhole
  | finite negative m e =>
      rw [hbinary] at hwhole
      rw [Layout.number, hbinary]
      obtain rfl | hnumber := Binary.isWhole_of_toInt? hbinary hwhole hsmall
      · exact ⟨negative, 0, rfl, eq_readNumeral hbinary (.inl ⟨rfl, rfl⟩)⟩
      · exact ⟨negative, i.natAbs, Layout.display_finite hnumber,
          eq_readNumeral hbinary (.inr hnumber)⟩

end Lox
