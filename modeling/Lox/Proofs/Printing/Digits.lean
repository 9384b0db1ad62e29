import Lox.Proofs.Tiling
import Mathlib.Algebra.Group.Nat.Defs

/-!
# How whole numbers are written

The shortest decimal that rounds to a double need not be the double itself. For a whole
number below `10 ^ 16` it is: the doubles around it lie so close that no other whole number,
and no multiple of a power of ten, rounds to it. So the digits on paper are the digits of the
number, however many zeros of them the search leaves to the layout.
-/

namespace Lox

/-- The positive double `m * 2 ^ e`, with the first bit of its mantissa set, is the whole
number `n`, and `n` is written without an exponent. -/
structure IsWhole (m : Nat) (e : Int) (n : Nat) : Prop where
  low : 2 ^ 52 ≤ m
  high : m < 2 ^ 53
  value : n * 2 ^ (-e).toNat = m * 2 ^ e.toNat
  small : n < 10 ^ 16

namespace IsWhole

variable {m n : Nat} {e : Int}

theorem pos (h : IsWhole m e n) : 0 < n := by
  have hm : 0 < m := Nat.lt_of_lt_of_le (by decide) h.low
  refine Nat.pos_of_ne_zero fun hn => ?_
  have hvalue := h.value
  rw [hn, Nat.zero_mul] at hvalue
  exact Nat.ne_of_lt (Nat.mul_pos hm (Nat.two_pow_pos _)) hvalue

theorem exponent_le (h : IsWhole m e n) : e ≤ 1 := by
  by_contra hlt
  have hvalue := h.value
  rw [Int.toNat_eq_zero.mpr (by omega), Nat.pow_zero, Nat.mul_one] at hvalue
  have hpow : 2 ^ 2 ≤ 2 ^ e.toNat := Nat.pow_le_pow_right (by decide) (by omega)
  have hbound := Nat.mul_le_mul h.low hpow
  have hsmall := h.small
  omega

theorem le_exponent (h : IsWhole m e n) : -52 ≤ e := by
  by_contra hlt
  have hvalue := h.value
  rw [Int.toNat_eq_zero.mpr (show e ≤ 0 by omega), Nat.pow_zero, Nat.mul_one] at hvalue
  have hpow : 2 ^ 53 ≤ 2 ^ (-e).toNat := Nat.pow_le_pow_right (by decide) (by omega)
  have hbound := Nat.mul_le_mul h.pos hpow
  have hhigh := h.high
  omega

/-- In units of the interval the double is the number times the scale. -/
theorem value_around (h : IsWhole m e n) : n * 2 ^ (2 - e).toNat = 4 * m := by
  have hvalue := h.value
  have hle := h.exponent_le
  obtain heq | hneg : e = 1 ∨ e ≤ 0 := by omega
  · subst heq
    have hone : n * 2 ^ (-1 : Int).toNat = n := Nat.mul_one n
    have htwo : m * 2 ^ (1 : Int).toNat = m * 2 := rfl
    have hscale : n * 2 ^ (2 - 1 : Int).toNat = n * 2 := rfl
    omega
  · rw [Int.toNat_eq_zero.mpr hneg, Nat.pow_zero, Nat.mul_one] at hvalue
    rw [show (2 - e).toNat = (-e).toNat + 2 by omega, Nat.pow_add, ← Nat.mul_assoc, hvalue]
    omega

end IsWhole

namespace Interval

variable {i : Interval} {n : Nat}

/-- The number in the middle is the one that is found. -/
theorem nearestWhole_eq (hvalue : i.value = n * i.scale) (hscale : 0 < i.scale)
    (hlow : i.low < i.value) (hhigh : i.value < i.high) : i.nearestWhole = some n := by
  have hbelow : i.value / i.scale = n := by rw [hvalue, Nat.mul_div_cancel _ hscale]
  have hrest : 2 * (i.value % i.scale) = 0 := by rw [hvalue, Nat.mul_mod_left]
  have hin : i.contains n = true := by
    rw [contains, ← hvalue]
    split <;> simp <;> omega
  simp only [nearestWhole, hbelow, hrest, hin]
  cases i.contains (n + 1) with
  | true => exact if_pos hscale
  | false => rfl

theorem contains_of_nearestWhole {d : Nat} (h : i.nearestWhole = some d) :
    i.contains d = true := by
  simp only [nearestWhole] at h
  split at h
  · split at h
    · cases h; assumption
    · split at h
      · cases h; assumption
      · split at h <;> cases h <;> assumption
  · cases h; assumption
  · cases h; assumption
  · cases h

theorem bounds_of_contains {d : Nat} (h : i.contains d = true) :
    i.low ≤ d * i.scale ∧ d * i.scale ≤ i.high := by
  simp only [contains] at h
  split at h <;> simp only [Bool.and_eq_true, decide_eq_true_eq] at h <;> omega

/-- Multiples of a scale of four or more are the same if they are at most two apart. -/
theorem eq_of_near {p n scale : Nat} (hscale : 4 ≤ scale) (hlow : n * scale ≤ p * scale + 2)
    (hhigh : p * scale ≤ n * scale + 2) : p = n := by
  rcases Nat.lt_trichotomy p n with hlt | heq | hgt
  · have hnext := Nat.mul_le_mul_right scale (Nat.succ_le_of_lt hlt)
    rw [Nat.succ_mul] at hnext
    omega
  · exact heq
  · have hnext := Nat.mul_le_mul_right scale (Nat.succ_le_of_lt hgt)
    rw [Nat.succ_mul] at hnext
    omega

variable {m : Nat} {e : Int}

/-- Only the number itself is a multiple of a power of ten in its interval. -/
theorem nearestWhole_onGrid (h : IsWhole m e n) {k d : Nat}
    (hfound : ((around m e).onGrid (k + 1 : Nat)).nearestWhole = some d) :
    d * 10 ^ (k + 1) = n := by
  obtain ⟨hlow, hhigh⟩ := bounds_of_contains (contains_of_nearestWhole hfound)
  have hle := h.exponent_le
  have hvalue := h.value_around
  have hup : (e - 2).toNat = 0 := by omega
  have hfiner : (-((k + 1 : Nat) : Int)).toNat = 0 := by omega
  simp only [onGrid, around, hup, hfiner, Nat.pow_eq, Nat.pow_zero, Nat.mul_one,
    Int.toNat_natCast] at hlow hhigh
  have hgrid : d * (2 ^ (2 - e).toNat * 10 ^ (k + 1)) =
      d * 10 ^ (k + 1) * 2 ^ (2 - e).toNat := by
    rw [Nat.mul_comm (2 ^ _), Nat.mul_assoc]
  rw [hgrid] at hlow hhigh
  have hbelow : 4 * m - 2 ≤ d * 10 ^ (k + 1) * 2 ^ (2 - e).toNat := by
    refine Nat.le_trans ?_ hlow
    split <;> omega
  -- The step from one double to the next is two at most; for two, both sides are even.
  obtain heq | hneg : e = 1 ∨ e ≤ 0 := by omega
  · subst heq
    have hscale : ∀ a : Nat, a * 2 ^ (2 - 1 : Int).toNat = a * 2 := fun _ => rfl
    have heven : d * 10 ^ (k + 1) = d * 10 ^ k * 10 := by rw [Nat.pow_succ, Nat.mul_assoc]
    rw [hscale] at hvalue hbelow hhigh
    omega
  · have hfour : 2 ^ 2 ≤ 2 ^ (2 - e).toNat := Nat.pow_le_pow_right (by decide) (by omega)
    rw [← hvalue] at hbelow hhigh
    exact eq_of_near hfour (by omega) hhigh

theorem nearestWhole_onUnits (h : IsWhole m e n) :
    ((around m e).onGrid (0 : Nat)).nearestWhole = some n := by
  have hle := h.exponent_le
  have hup : (e - 2).toNat = 0 := by omega
  have hm := h.low
  refine nearestWhole_eq ?_ ?_ ?_ ?_ <;>
    simp only [onGrid, around, hup, Nat.pow_eq, Nat.pow_zero, Nat.mul_one, Int.neg_zero,
      Int.toNat_zero, Int.ofNat_zero]
  · exact h.value_around.symm
  · exact Nat.two_pow_pos _
  · split <;> omega
  · omega

/-- A walk that comes by the units ends on a grid on which the number lies. -/
theorem coarsest_eq (h : IsWhole m e n) {fuel k : Nat} (hk : k < fuel) :
    ∃ d j : Nat, (around m e).coarsest fuel k = some ⟨d, j⟩ ∧ d * 10 ^ j = n := by
  induction fuel generalizing k with
  | zero => cases hk
  | succ fuel ih =>
      cases k with
      | zero =>
          refine ⟨n, 0, ?_, Nat.mul_one n⟩
          rw [coarsest, nearestWhole_onUnits h]
      | succ k =>
          rw [coarsest]
          cases hfound : ((around m e).onGrid (k + 1 : Nat)).nearestWhole with
          | some d => exact ⟨d, k + 1, rfl, nearestWhole_onGrid h hfound⟩
          | none =>
              have hnext : ((k + 1 : Nat) : Int) - 1 = k := by omega
              simpa only [hnext] using ih (Nat.lt_of_succ_lt_succ hk)

end Interval

/-- The shortest decimal of a whole number is the number. -/
theorem Decimal.shortest_eq {m n : Nat} {e : Int} (h : IsWhole m e n) :
    ∃ d j : Nat, Decimal.shortest m e = ⟨d, j⟩ ∧ d * 10 ^ j = n := by
  have hlog : m.log2 = 52 := by
    have hm : m ≠ 0 := Nat.ne_of_gt (Nat.lt_of_lt_of_le (by decide) h.low)
    exact (Nat.log2_eq_iff hm).mpr ⟨h.low, h.high⟩
  have hle := h.exponent_le
  have hge := h.le_exponent
  simp only [shortest, hlog]
  rw [if_pos (by omega)]
  generalize hstart : ((52 : Nat) + 1 + e : Int) / 3 + 1 = start
  obtain ⟨k, rfl⟩ := Int.eq_ofNat_of_zero_le (show 0 ≤ start by omega)
  obtain ⟨d, j, heq, hvalue⟩ := Interval.coarsest_eq h
    (show k < ((k : Int) - min e 0 + 1).toNat by omega)
  exact ⟨d, j, by rw [heq]; rfl, hvalue⟩

/-! ## On paper -/

theorem toDigits_mul_pow {d : Nat} (hd : 0 < d) (j : Nat) :
    Nat.toDigits 10 (d * 10 ^ j) = Nat.toDigits 10 d ++ List.replicate j '0' := by
  induction j with
  | zero => rw [Nat.pow_zero, Nat.mul_one, List.replicate_zero, List.append_nil]
  | succ j ih =>
      have hpos : 0 < d * 10 ^ j := Nat.mul_pos hd (Nat.pow_pos (by decide))
      have happend := Nat.toDigits_append_toDigits (by decide : 1 < 10) hpos (by decide : 0 < 10)
      rw [Nat.pow_succ, ← Nat.mul_assoc, Nat.mul_comm _ 10]
      rw [← Nat.add_zero (10 * _), ← happend, ih, List.append_assoc, List.replicate_succ']
      rfl

theorem isDigit_of_mem_toDigits {n : Nat} {c : Char} (h : c ∈ Nat.toDigits 10 n) :
    Piece.isDigit c = true :=
  Nat.isDigit_of_mem_toDigits (by decide) (by decide) h

/-- Digits without a point are read as the number they are the digits of. -/
theorem readNumeral_toDigits (n : Nat) :
    readNumeral (Nat.toDigits 10 n) = Float.ofScientific n true 0 := by
  have hne : ∀ c ∈ Nat.toDigits 10 n, (c != '.') = true := by
    rintro c hc
    rw [bne_iff_ne]
    rintro rfl
    exact absurd (isDigit_of_mem_toDigits hc) (by decide)
  obtain ⟨htake, hdrop⟩ := Piece.takeWhile_append_stop (r := []) hne rfl
  rw [List.append_nil] at htake hdrop
  have hvalue : (Nat.toDigits 10 n).foldl (fun n c => 10 * n + (c.toNat - '0'.toNat)) 0 = n :=
    Nat.ofDigitChars_eq_foldl.symm.trans Nat.ofDigitChars_ten_toDigits
  simp only [readNumeral, htake, hdrop, List.drop_nil, List.append_nil, hvalue, List.length_nil]

/-- A positive whole number is written with its digits, unless they are too many. -/
theorem Layout.display_decimal {d j : Nat} (hd : 0 < d) (hsmall : d * 10 ^ j < 10 ^ 16) :
    Layout.display.decimal ⟨d, j⟩ = String.ofList (Nat.toDigits 10 (d * 10 ^ j)) := by
  have hlength : (Nat.toDigits 10 d).length + j ≤ 16 := by
    have h := (Nat.length_toDigits_le_iff (by decide : 1 < 10) (by decide : 0 < 16)).mpr hsmall
    rwa [toDigits_mul_pow hd, List.length_append, List.length_replicate] at h
  have hpos : 0 < (Nat.toDigits 10 d).length := Nat.length_toDigits_pos
  rw [Layout.decimal, if_pos, Layout.positional, if_neg, if_pos, toDigits_mul_pow hd]
  · rw [show (((j : Int) + ((Nat.toDigits 10 d).length : Nat)).toNat -
      (Nat.toDigits 10 d).length) = j by omega]
    exact String.append_empty
  all_goals simp only [Layout.display]; omega

/-- Programs print a whole number with its digits. -/
theorem Layout.display_finite {negative : Bool} {m n : Nat} {e : Int} (h : IsWhole m e n) :
    Layout.display.binary (.finite negative m e) =
      (if negative then "-" else "") ++ String.ofList (Nat.toDigits 10 n) := by
  obtain ⟨d, j, hshortest, hvalue⟩ := Decimal.shortest_eq h
  have hpos := h.pos
  have hd : 0 < d := Nat.pos_of_ne_zero fun hd => by
    rw [hd, Nat.zero_mul] at hvalue
    omega
  have hm : m ≠ 0 := Nat.ne_of_gt (Nat.lt_of_lt_of_le (by decide) h.low)
  have hsmall := h.small
  rw [Layout.binary, if_neg hm, hshortest, Layout.display_decimal hd (hvalue ▸ hsmall), hvalue]

/-! ## Which doubles are whole -/

theorem Binary.value_of_toInt? {negative : Bool} {m : Nat} {e i : Int}
    (h : (Binary.finite negative m e).toInt? = some i) :
    i.natAbs * 2 ^ (-e).toNat = m * 2 ^ e.toNat := by
  simp only [Binary.toInt?, Nat.pow_eq, Option.map_eq_some_iff] at h
  obtain ⟨_, hn, rfl⟩ := h
  obtain ⟨n, hn, ⟨⟩⟩ := Option.bind_eq_some_iff.mp hn
  have habs : (if negative then -(n : Int) else (n : Int)).natAbs = n := by
    cases negative <;> simp
  rw [habs]
  split at hn
  · next hpos =>
      cases hn
      rw [Int.toNat_eq_zero.mpr (show -e ≤ 0 by omega), Nat.pow_zero, Nat.mul_one]
  · next hneg =>
      split at hn
      · next hdvd =>
          cases hn
          rw [Int.toNat_eq_zero.mpr (show e ≤ 0 by omega), Nat.pow_zero, Nat.mul_one,
            Nat.div_mul_cancel (Nat.dvd_of_mod_eq_zero hdvd)]
      · cases hn

/-- Only zero has no first bit and still is whole; every other number has the first bit of its
mantissa set. -/
theorem Binary.isWhole_of_toInt? {b : UInt64} {negative : Bool} {m : Nat} {e i : Int}
    (hbits : Binary.ofBits b = .finite negative m e)
    (hwhole : (Binary.finite negative m e).toInt? = some i) (hsmall : i.natAbs < 10 ^ 16) :
    m = 0 ∨ IsWhole m e i.natAbs := by
  have hvalue := Binary.value_of_toInt? hwhole
  simp only [Binary.ofBits, Nat.pow_eq] at hbits
  split at hbits
  · split at hbits <;> cases hbits
  · split at hbits
    · cases hbits
      rw [show (-1074 : Int).toNat = 0 from rfl, Nat.pow_zero, Nat.mul_one] at hvalue
      have hlt : b.toNat % 2 ^ 52 < 2 ^ (- -1074 : Int).toNat :=
        Nat.lt_of_lt_of_le (Nat.mod_lt _ (Nat.two_pow_pos 52))
          (Nat.pow_le_pow_right (by decide) (by decide))
      refine .inl ?_
      obtain hzero | hpos := Nat.eq_zero_or_pos i.natAbs
      · rw [← hvalue, hzero, Nat.zero_mul]
      · exact absurd hvalue (Nat.ne_of_gt (Nat.lt_of_lt_of_le hlt (Nat.le_mul_of_pos_left _ hpos)))
    · cases hbits
      exact .inr ⟨Nat.le_add_left _ _, by omega, hvalue, hsmall⟩

end Lox
