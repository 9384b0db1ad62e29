import Lox.Proofs.Printing.Doubles

/-!
# Which doubles a decimal rounds to

The intervals of two doubles have no number in common. Where one ends the next begins, and
the end they share belongs to the one with the even mantissa. So the shortest decimal of a
double, which lies in the interval of the double, lies in no other.
-/

namespace Lox

/-- The parts of a positive double: only the smallest exponent goes with a mantissa that
lacks its first bit. -/
structure IsDouble (m : Nat) (e : Int) : Prop where
  pos : 0 < m
  high : m < 2 ^ 53
  least : -1074 ≤ e
  leading : -1074 < e → 2 ^ 52 ≤ m

/-- How far the interval of a double reaches below it, in quarters of the step above it. -/
def stepBelow (m : Nat) (e : Int) : Nat :=
  if m = Nat.pow 2 52 ∧ e > -1074 then 1 else 2

/-- The number `v` is rounded to the double `m * 2 ^ e`. -/
def RoundsTo (m : Nat) (e : Int) (v : ℚ) : Prop :=
  let low : ℚ := (4 * m - stepBelow m e : Nat) * 2 ^ (e - 2)
  let high : ℚ := (4 * m + 2 : Nat) * 2 ^ (e - 2)
  if m % 2 = 0 then low ≤ v ∧ v ≤ high else low < v ∧ v < high

section

variable {m m' : Nat} {e e' : Int} {v : ℚ}

theorem stepBelow_le (m : Nat) (e : Int) : stepBelow m e ≤ 2 := by
  rw [stepBelow]
  split <;> omega

theorem stepBelow_pos (m : Nat) (e : Int) : 0 < stepBelow m e := by
  rw [stepBelow]
  split <;> omega

/-- The exponents of two doubles are in the order of their first bits. -/
theorem ends_apart_of_lt (h : IsDouble m e) (h' : IsDouble m' e') (hlt : e < e') :
    4 * m + 2 ≤ (4 * m' - stepBelow m' e') * 2 ^ (e' - e).toNat ∧
      (4 * m + 2 = (4 * m' - stepBelow m' e') * 2 ^ (e' - e).toNat → m % 2 = 1) := by
  have hleast := h.least
  have hhigh := h.high
  have hleading := h'.leading (by omega)
  have hstep := stepBelow_le m' e'
  have hfirst : m' = 2 ^ 52 → stepBelow m' e' = 1 := fun heq => if_pos ⟨heq, by omega⟩
  have hpow : 2 ^ 1 ≤ 2 ^ (e' - e).toNat := Nat.pow_le_pow_right (by decide) (by omega)
  have hscaled := Nat.mul_le_mul_left (4 * m' - stepBelow m' e') hpow
  have hbelow : 2 ^ 55 - 2 ≤ (4 * m' - stepBelow m' e') * 2 ^ 1 := by
    by_cases heq : m' = 2 ^ 52
    · rw [hfirst heq]
      omega
    · omega
  omega

theorem ends_apart (h : IsDouble m e) (h' : IsDouble m' e') (hlt : e < e' ∨ e = e' ∧ m < m') :
    4 * m + 2 ≤ (4 * m' - stepBelow m' e') * 2 ^ (e' - e).toNat ∧
      (4 * m + 2 = (4 * m' - stepBelow m' e') * 2 ^ (e' - e).toNat →
        m % 2 = 1 ∨ m' % 2 = 1) := by
  rcases hlt with hlt | ⟨rfl, hlt⟩
  · exact (ends_apart_of_lt h h' hlt).imp_right fun hodd heq => .inl (hodd heq)
  · have hstep := stepBelow_le m' e
    rw [Int.sub_self, Int.toNat_zero, Nat.pow_zero, Nat.mul_one]
    omega

theorem RoundsTo.low_le (h : RoundsTo m e v) :
    ((4 * m - stepBelow m e : Nat) : ℚ) * 2 ^ (e - 2) ≤ v ∧
      (m % 2 = 1 → ((4 * m - stepBelow m e : Nat) : ℚ) * 2 ^ (e - 2) < v) := by
  simp only [RoundsTo] at h
  split at h
  · exact ⟨h.1, fun hodd => by omega⟩
  · exact ⟨h.1.le, fun _ => h.1⟩

theorem RoundsTo.le_high (h : RoundsTo m e v) :
    v ≤ ((4 * m + 2 : Nat) : ℚ) * 2 ^ (e - 2) ∧
      (m % 2 = 1 → v < ((4 * m + 2 : Nat) : ℚ) * 2 ^ (e - 2)) := by
  simp only [RoundsTo] at h
  split at h
  · exact ⟨h.2, fun hodd => by omega⟩
  · exact ⟨h.2.le, fun _ => h.2⟩

/-- Nothing is rounded to a double and to one that comes after it. -/
theorem RoundsTo.not_later (h : IsDouble m e) (h' : IsDouble m' e')
    (hlt : e < e' ∨ e = e' ∧ m < m') (hv : RoundsTo m e v) : ¬ RoundsTo m' e' v := by
  intro hv'
  obtain ⟨hle, hodd⟩ := ends_apart h h' hlt
  obtain ⟨hhigh, hhigh'⟩ := hv.le_high
  obtain ⟨hlow, hlow'⟩ := hv'.low_le
  have hunit : (0 : ℚ) < 2 ^ (e - 2) := zpow_pos (by norm_num) _
  have hexponent : (2 : ℚ) ^ (e' - 2) = 2 ^ (e' - e).toNat * 2 ^ (e - 2) := by
    rw [← zpow_natCast, ← zpow_add₀ (by norm_num)]
    congr 1
    omega
  have hscaled : ((4 * m' - stepBelow m' e' : Nat) : ℚ) * 2 ^ (e' - 2) =
      ((4 * m' - stepBelow m' e') * 2 ^ (e' - e).toNat : Nat) * 2 ^ (e - 2) := by
    rw [hexponent, Nat.cast_mul, Nat.cast_pow, Nat.cast_ofNat, mul_assoc]
  rw [hscaled] at hlow hlow'
  -- Both ends are the same number, so neither interval is open there.
  have hends : ((4 * m + 2 : Nat) : ℚ) * 2 ^ (e - 2) ≤
      ((4 * m' - stepBelow m' e') * 2 ^ (e' - e).toNat : Nat) * 2 ^ (e - 2) :=
    mul_le_mul_of_nonneg_right (Nat.cast_le.mpr hle) hunit.le
  have hsame : ((4 * m + 2 : Nat) : ℚ) * 2 ^ (e - 2) =
      ((4 * m' - stepBelow m' e') * 2 ^ (e' - e).toNat : Nat) * 2 ^ (e - 2) :=
    le_antisymm hends (hlow.trans hhigh)
  have heq := Nat.cast_injective (mul_right_cancel₀ hunit.ne' hsame)
  rcases hodd heq with hodd | hodd
  · exact absurd (hlow.trans_lt (hhigh' hodd)) (hsame ▸ lt_irrefl _)
  · exact absurd ((hlow' hodd).trans_le hhigh) (hsame ▸ lt_irrefl _)

/-- A number is rounded to one double. -/
theorem RoundsTo.unique (h : IsDouble m e) (h' : IsDouble m' e') (hv : RoundsTo m e v)
    (hv' : RoundsTo m' e' v) : m = m' ∧ e = e' := by
  rcases lt_trichotomy e e' with hlt | rfl | hgt
  · exact absurd hv' (hv.not_later h h' (.inl hlt))
  · rcases Nat.lt_trichotomy m m' with hlt | rfl | hgt
    · exact absurd hv' (hv.not_later h h' (.inr ⟨rfl, hlt⟩))
    · exact ⟨rfl, rfl⟩
    · exact absurd hv (hv'.not_later h' h (.inr ⟨rfl, hgt⟩))
  · exact absurd hv (hv'.not_later h' h (.inl hgt))

theorem RoundsTo.pos (h : IsDouble m e) (hv : RoundsTo m e v) : 0 < v := by
  have hm := h.pos
  have hstep := stepBelow_le m e
  have hunit : (0 : ℚ) < 2 ^ (e - 2) := zpow_pos (by norm_num) _
  exact lt_of_lt_of_le (mul_pos (Nat.cast_pos.mpr (by omega)) hunit) hv.low_le.1

end

/-! ## The search ends in the interval -/

namespace Interval

variable {i : Interval} {m d : Nat} {e k : Int}

theorem zpow_eq_div {b : ℚ} (hb : b ≠ 0) (k : Int) : b ^ k = b ^ k.toNat / b ^ (-k).toNat := by
  rw [eq_div_iff (pow_ne_zero _ hb), ← zpow_natCast, ← zpow_natCast, ← zpow_add₀ hb]
  congr 1
  omega

/-- A whole number on a grid lies in an interval as a number rounds to a double. -/
theorem roundsTo_of_contains (h : ((around m e).onGrid k).contains d = true) :
    RoundsTo m e (d * 10 ^ k) := by
  have hunit : (0 : ℚ) < 10 ^ (-k).toNat * 2 ^ (2 - e).toNat := by positivity
  have hten := zpow_eq_div (b := 10) (by norm_num) k
  have htwo := zpow_eq_div (b := 2) (by norm_num) (e - 2)
  rw [Int.neg_sub] at htwo
  have hgrid : ∀ a : Nat, (a : ℚ) * 2 ^ (e - 2) * (10 ^ (-k).toNat * 2 ^ (2 - e).toNat) =
      (a * 2 ^ (e - 2).toNat * 10 ^ (-k).toNat : Nat) := by
    intro a
    rw [htwo]
    push_cast
    field_simp
  have hvalue : (d : ℚ) * 10 ^ k * (10 ^ (-k).toNat * 2 ^ (2 - e).toNat) =
      (d * (2 ^ (2 - e).toNat * 10 ^ k.toNat) : Nat) := by
    rw [hten]
    push_cast
    field_simp
  have hlow : ∀ a : Nat, (a : ℚ) * 2 ^ (e - 2) ≤ d * 10 ^ k ↔
      a * 2 ^ (e - 2).toNat * 10 ^ (-k).toNat ≤ d * (2 ^ (2 - e).toNat * 10 ^ k.toNat) := by
    intro a
    rw [← mul_le_mul_iff_left₀ hunit, hgrid, hvalue, Nat.cast_le]
  have hhigh : ∀ a : Nat, (d : ℚ) * 10 ^ k ≤ a * 2 ^ (e - 2) ↔
      d * (2 ^ (2 - e).toNat * 10 ^ k.toNat) ≤ a * 2 ^ (e - 2).toNat * 10 ^ (-k).toNat := by
    intro a
    rw [← mul_le_mul_iff_left₀ hunit, hgrid, hvalue, Nat.cast_le]
  simp only [contains, onGrid, around, Nat.pow_eq, beq_iff_eq] at h
  simp only [RoundsTo]
  split at h
  · next heven =>
      rw [if_pos heven, hlow, hhigh]
      obtain ⟨h₁, h₂⟩ := Bool.and_eq_true_iff.mp h
      exact ⟨of_decide_eq_true h₁, of_decide_eq_true h₂⟩
  · next hodd =>
      rw [if_neg hodd, ← not_le, ← not_le, hlow, hhigh, not_le, not_le]
      obtain ⟨h₁, h₂⟩ := Bool.and_eq_true_iff.mp h
      exact ⟨of_decide_eq_true h₁, of_decide_eq_true h₂⟩

theorem contains_of_coarsest {fuel : Nat} {found : Decimal} (h : i.coarsest fuel k = some found) :
    (i.onGrid found.exponent).contains found.digits = true := by
  induction fuel generalizing k with
  | zero => cases h
  | succ fuel ih =>
      rw [coarsest] at h
      split at h
      · next d hfound =>
          cases h
          exact contains_of_nearestWhole hfound
      · exact ih h

/-- The search finds something if there is something to be found on its way. -/
theorem exists_coarsest {fuel j : Nat} (hj : j < fuel)
    (h : (i.onGrid (k - j)).nearestWhole = some d) : ∃ found, i.coarsest fuel k = some found := by
  induction fuel generalizing k j with
  | zero => cases hj
  | succ fuel ih =>
      rw [coarsest]
      cases hnearest : (i.onGrid k).nearestWhole with
      | some d' => exact ⟨_, rfl⟩
      | none =>
          cases j with
          | zero =>
              rw [Int.ofNat_zero, Int.sub_zero, hnearest] at h
              cases h
          | succ j =>
              refine ih (Nat.lt_of_succ_lt_succ hj) (k := k - 1) (j := j) ?_
              rwa [show k - 1 - (j : Int) = k - (j + 1 : Nat) by omega]

/-- The double itself lies on the grid of its last bit, or on that of the units. -/
theorem nearestWhole_onLast (h : IsDouble m e) :
    ((around m e).onGrid (min e 0)).nearestWhole = some (m * 2 ^ e.toNat * 5 ^ (-e).toNat) := by
  have hm := h.pos
  have hstep := stepBelow_le m e
  have hstep' := stepBelow_pos m e
  have hfiner : (-min e 0).toNat = (-e).toNat := by omega
  have hcoarser : (min e 0).toNat = 0 := by omega
  have hten : 10 ^ (-e).toNat = 2 ^ (-e).toNat * 5 ^ (-e).toNat := Nat.mul_pow 2 5 _
  have htwo : 4 * 2 ^ (e - 2).toNat * 2 ^ (-e).toNat = 2 ^ e.toNat * 2 ^ (2 - e).toNat := by
    rw [show 4 = 2 ^ 2 from rfl, ← Nat.pow_add, ← Nat.pow_add, ← Nat.pow_add]
    congr 1
    omega
  have hpos : 0 < 2 ^ (e - 2).toNat * 10 ^ (-e).toNat := by positivity
  have hdiff : ∀ a b : Nat, a < b → a * 2 ^ (e - 2).toNat * 10 ^ (-e).toNat <
      b * 2 ^ (e - 2).toNat * 10 ^ (-e).toNat := by
    intro a b hab
    rw [Nat.mul_assoc, Nat.mul_assoc]
    exact Nat.mul_lt_mul_of_pos_right hab hpos
  have hlow : 4 * m - stepBelow m e < 4 * m := by omega
  have hhigh : 4 * m < 4 * m + 2 := by omega
  refine nearestWhole_eq ?_ ?_ ?_ ?_ <;>
    simp only [onGrid, around, hfiner, hcoarser, Nat.pow_eq, Nat.pow_zero, Nat.mul_one]
  · calc 4 * m * 2 ^ (e - 2).toNat * 10 ^ (-e).toNat
        = m * (4 * 2 ^ (e - 2).toNat * 2 ^ (-e).toNat) * 5 ^ (-e).toNat := by rw [hten]; ring
      _ = m * 2 ^ e.toNat * 5 ^ (-e).toNat * 2 ^ (2 - e).toNat := by rw [htwo]; ring
  · exact Nat.two_pow_pos _
  · exact hdiff _ _ hlow
  · exact hdiff _ _ hhigh

end Interval

/-- The shortest decimal of a double rounds to the double. -/
theorem Decimal.shortest_roundsTo {m : Nat} {e : Int} (h : IsDouble m e) :
    RoundsTo m e ((Decimal.shortest m e).digits * 10 ^ (Decimal.shortest m e).exponent) := by
  have hstart : min e 0 ≤
      if 0 < (Nat.log2 m : Int) + 1 + e then ((Nat.log2 m : Int) + 1 + e) / 3 + 1
      else ((Nat.log2 m : Int) + 1 + e) / 4 + 1 := by
    split <;> omega
  simp only [Decimal.shortest]
  generalize (if 0 < (Nat.log2 m : Int) + 1 + e then ((Nat.log2 m : Int) + 1 + e) / 3 + 1
    else ((Nat.log2 m : Int) + 1 + e) / 4 + 1) = start at hstart
  have hlast : start - ((start - min e 0).toNat : Int) = min e 0 := by omega
  obtain ⟨found, hfound⟩ := Interval.exists_coarsest
    (show (start - min e 0).toNat < (start - min e 0 + 1).toNat by omega)
    (hlast ▸ Interval.nearestWhole_onLast h)
  rw [hfound, Option.getD_some]
  exact Interval.roundsTo_of_contains (Interval.contains_of_coarsest hfound)

/-- Doubles whose shortest decimals have one value are the same. -/
theorem Decimal.shortest_injective {m m' : Nat} {e e' : Int} (h : IsDouble m e)
    (h' : IsDouble m' e')
    (heq : (Decimal.shortest m e).digits * (10 : ℚ) ^ (Decimal.shortest m e).exponent =
      (Decimal.shortest m' e').digits * 10 ^ (Decimal.shortest m' e').exponent) :
    m = m' ∧ e = e' :=
  (Decimal.shortest_roundsTo h).unique h h' (heq ▸ Decimal.shortest_roundsTo h')

end Lox
