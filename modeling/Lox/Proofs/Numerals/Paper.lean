import Lox.Proofs.Numerals.Rounding

/-!
# Numbers on paper

What a dump shows of a number says which number it is. Its digits, its point and its exponent
give a decimal, the shortest one of the double, and that rounds to no other double. A sign
stands in front wherever there is one, and what is no decimal has a name.
-/

namespace Lox

open Nat (ofDigitChars toDigits)
open Float.Model UnpackedFloat

/-! ## Decimals on paper -/

/-- Digits, with or without a point among them, and the number they stand for. -/
inductive Mantissa : List Char → ℚ → Prop
  | whole {ds : List Char} : ds ≠ [] → (∀ c ∈ ds, Piece.isDigit c = true) →
      Mantissa ds (ofDigitChars 10 ds 0 : Nat)
  | pointed {w f : List Char} : w ≠ [] → (∀ c ∈ w, Piece.isDigit c = true) →
      (∀ c ∈ f, Piece.isDigit c = true) →
      Mantissa (w ++ '.' :: f) ((ofDigitChars 10 (w ++ f) 0 : Nat) / 10 ^ f.length)

/-- A decimal on paper, with or without an exponent, and the number it stands for. -/
inductive Numeral : List Char → ℚ → Prop
  | positional {text : List Char} {v : ℚ} : Mantissa text v → Numeral text v
  | scientific {text ds : List Char} {v : ℚ} (negative : Bool) : Mantissa text v →
      (∀ c ∈ ds, Piece.isDigit c = true) →
      Numeral (text ++ 'e' :: (if negative then '-' else '+') :: ds)
        (v * 10 ^ (if negative then -(ofDigitChars 10 ds 0 : Int) else ofDigitChars 10 ds 0))

section

variable {text : List Char} {v w : ℚ}

theorem Mantissa.head (h : Mantissa text v) : ∃ c cs, text = c :: cs ∧ Piece.isDigit c = true := by
  cases h with
  | whole hne hds =>
      obtain ⟨c, cs, rfl⟩ := List.exists_cons_of_ne_nil hne
      exact ⟨c, cs, rfl, hds c List.mem_cons_self⟩
  | pointed hne hds =>
      obtain ⟨c, cs, rfl⟩ := List.exists_cons_of_ne_nil hne
      exact ⟨c, _, rfl, hds c List.mem_cons_self⟩

theorem Numeral.head (h : Numeral text v) : ∃ c cs, text = c :: cs ∧ Piece.isDigit c = true := by
  cases h with
  | positional h => exact h.head
  | scientific _ h =>
      obtain ⟨c, cs, rfl, hc⟩ := h.head
      exact ⟨c, _, rfl, hc⟩

/-- The characters of a decimal. -/
def isNumeral (c : Char) : Bool :=
  Piece.isDigit c || c == '.' || c == 'e' || c == '+' || c == '-'

theorem isNumeral_of_isDigit {c : Char} (h : Piece.isDigit c = true) : isNumeral c = true := by
  simp only [isNumeral, h, Bool.true_or]

theorem Mantissa.isNumeral (h : Mantissa text v) : ∀ c ∈ text, isNumeral c = true := by
  cases h with
  | whole _ hds => exact fun c hc => isNumeral_of_isDigit (hds c hc)
  | pointed _ hds hfs =>
      refine List.forall_mem_append.mpr ⟨fun c hc => isNumeral_of_isDigit (hds c hc), ?_⟩
      exact List.forall_mem_cons.mpr ⟨rfl, fun c hc => isNumeral_of_isDigit (hfs c hc)⟩

theorem Numeral.isNumeral (h : Numeral text v) : ∀ c ∈ text, isNumeral c = true := by
  cases h with
  | positional h => exact h.isNumeral
  | scientific negative h hds =>
      refine List.forall_mem_append.mpr ⟨h.isNumeral, List.forall_mem_cons.mpr ⟨rfl, ?_⟩⟩
      refine List.forall_mem_cons.mpr ⟨?_, fun c hc => isNumeral_of_isDigit (hds c hc)⟩
      cases negative <;> rfl

/-! ## Reading a decimal -/

/-- The number that digits stand for, with or without a point among them. -/
def readMantissa (text : List Char) : ℚ :=
  let fraction := (text.dropWhile (· != '.')).drop 1
  (ofDigitChars 10 (text.takeWhile (· != '.') ++ fraction) 0 : Nat) / 10 ^ fraction.length

/-- The number that a sign and digits stand for. -/
def readExponent : List Char → Int
  | [] => 0
  | sign :: ds => if sign = '-' then -(ofDigitChars 10 ds 0 : Int) else ofDigitChars 10 ds 0

/-- The number that a decimal on paper stands for. -/
def readDecimal (text : List Char) : ℚ :=
  readMantissa (text.takeWhile (· != 'e')) *
    10 ^ readExponent ((text.dropWhile (· != 'e')).drop 1)

theorem all_ne_of_isDigit {ds : List Char} {c : Char} (h : ∀ d ∈ ds, Piece.isDigit d = true)
    (hc : Piece.isDigit c = false) : ∀ d ∈ ds, (d != c) = true := by
  rintro d hd
  rw [bne_iff_ne]
  rintro rfl
  exact absurd (h d hd) (by rw [hc]; decide)

theorem Mantissa.read (h : Mantissa text v) : readMantissa text = v := by
  cases h with
  | whole _ hds =>
      obtain ⟨htake, hdrop⟩ :=
        Piece.takeWhile_append_stop (r := []) (all_ne_of_isDigit (c := '.') hds rfl) rfl
      rw [List.append_nil] at htake hdrop
      simp only [readMantissa, htake, hdrop, List.drop_nil, List.append_nil, List.length_nil,
        pow_zero, div_one]
  | @pointed ds fs _ hds _ =>
      obtain ⟨htake, hdrop⟩ := Piece.takeWhile_append_stop (r := '.' :: fs)
        (all_ne_of_isDigit (c := '.') hds rfl) rfl
      simp only [readMantissa, htake, hdrop, List.drop_one, List.tail_cons]

theorem Mantissa.ne_mark (h : Mantissa text v) : ∀ c ∈ text, (c != 'e') = true := by
  cases h with
  | whole _ hds => exact all_ne_of_isDigit hds rfl
  | pointed _ hds hfs =>
      refine List.forall_mem_append.mpr ⟨all_ne_of_isDigit hds rfl, ?_⟩
      exact List.forall_mem_cons.mpr ⟨rfl, all_ne_of_isDigit hfs rfl⟩

theorem Numeral.read (h : Numeral text v) : readDecimal text = v := by
  cases h with
  | positional h =>
      obtain ⟨htake, hdrop⟩ := Piece.takeWhile_append_stop (r := []) h.ne_mark rfl
      rw [List.append_nil] at htake hdrop
      simp only [readDecimal, htake, hdrop, h.read, List.drop_nil, readExponent, zpow_zero, mul_one]
  | @scientific text ds _ negative h _ =>
      obtain ⟨htake, hdrop⟩ := Piece.takeWhile_append_stop
        (r := 'e' :: (if negative then '-' else '+') :: ds) h.ne_mark rfl
      have hsign : ((if negative = true then '-' else '+') = '-') ↔ negative = true := by
        cases negative <;> decide
      simp only [readDecimal, htake, hdrop, h.read, List.drop_one, List.tail_cons, readExponent,
        hsign]

theorem Numeral.unique (h : Numeral text v) (h' : Numeral text w) : v = w :=
  h.read.symm.trans h'.read

end

/-! ## How a decimal is written -/

section

theorem ofDigitChars_zeros_append (j : Nat) (ds : List Char) :
    ofDigitChars 10 (List.replicate j '0' ++ ds) 0 = ofDigitChars 10 ds 0 := by
  rw [Nat.ofDigitChars_append, Nat.ofDigitChars_replicate_zero, Nat.mul_zero]

theorem ofDigitChars_append_zeros (ds : List Char) (j : Nat) :
    ofDigitChars 10 (ds ++ List.replicate j '0') 0 = ofDigitChars 10 ds 0 * 10 ^ j := by
  rw [Nat.ofDigitChars_append, Nat.ofDigitChars_replicate_zero, Nat.mul_comm]

theorem isDigit_of_mem_zeros {j : Nat} {c : Char} (h : c ∈ List.replicate j '0') :
    Piece.isDigit c = true := by
  rw [List.eq_of_mem_replicate h]
  rfl

theorem isDigit_of_mem_append {as bs : List Char} (ha : ∀ c ∈ as, Piece.isDigit c = true)
    (hb : ∀ c ∈ bs, Piece.isDigit c = true) : ∀ c ∈ as ++ bs, Piece.isDigit c = true :=
  List.forall_mem_append.mpr ⟨ha, hb⟩

/-- An exponent is a sign and digits, of which there are at least two. -/
theorem exponentText_toList (e : Int) :
    ∃ (negative : Bool) (ds : List Char),
      (Layout.exponentText e).toList = 'e' :: (if negative then '-' else '+') :: ds ∧
      (∀ c ∈ ds, Piece.isDigit c = true) ∧
      (if negative then -(ofDigitChars 10 ds 0 : Int) else ofDigitChars 10 ds 0) = e := by
  have hdigits : ∀ c ∈ toDigits 10 e.natAbs, Piece.isDigit c = true :=
    fun c hc => isDigit_of_mem_toDigits hc
  -- A single digit has a zero in front.
  obtain ⟨ds, hds, hall, hvalue⟩ : ∃ ds : List Char,
      (if (toString e.natAbs).length < 2 then "0" ++ toString e.natAbs
        else toString e.natAbs).toList = ds ∧
      (∀ c ∈ ds, Piece.isDigit c = true) ∧ ofDigitChars 10 ds 0 = e.natAbs := by
    refine ⟨_, rfl, ?_⟩
    split
    · rw [String.toList_append, Nat.toString_eq_repr, Nat.toList_repr]
      exact ⟨List.forall_mem_cons.mpr ⟨rfl, hdigits⟩, Nat.ofDigitChars_ten_toDigits⟩
    · rw [Nat.toString_eq_repr, Nat.toList_repr]
      exact ⟨hdigits, Nat.ofDigitChars_ten_toDigits⟩
  refine ⟨decide (e < 0), ds, ?_, hall, ?_⟩
  · simp only [Layout.exponentText]
    rw [String.toList_append, hds]
    by_cases hneg : e < 0
    · rw [if_pos hneg, decide_eq_true hneg]
      rfl
    · rw [if_neg hneg, decide_eq_false hneg]
      rfl
  · rw [hvalue]
    by_cases hneg : e < 0
    · rw [decide_eq_true hneg, if_pos rfl]
      omega
    · rw [decide_eq_false hneg, if_neg Bool.false_ne_true]
      omega

variable {d : Decimal}

theorem ten_pow_toNat {k : Int} {n : Nat} (h : k = n) : (10 : ℚ) ^ n = 10 ^ k := by
  rw [h, zpow_natCast]

theorem div_ten_pow {k : Int} {n : Nat} (h : k = -n) (v : ℚ) : v / 10 ^ n = v * 10 ^ k := by
  rw [h, zpow_neg, zpow_natCast, div_eq_mul_inv]

/-- A decimal without an exponent. -/
theorem Layout.dump_positional (d : Decimal) :
    Numeral (Layout.dump.positional (toDigits 10 d.digits)
      (d.exponent + (toDigits 10 d.digits).length)).toList (d.digits * 10 ^ d.exponent) := by
  have hdigits : ∀ c ∈ toDigits 10 d.digits, Piece.isDigit c = true :=
    fun c hc => isDigit_of_mem_toDigits hc
  have hvalue : ofDigitChars 10 (toDigits 10 d.digits) 0 = d.digits :=
    Nat.ofDigitChars_ten_toDigits
  have hpos : 0 < (toDigits 10 d.digits).length := Nat.length_toDigits_pos
  generalize toDigits 10 d.digits = ds at hdigits hvalue hpos
  have hne : ds ≠ [] := List.ne_nil_of_length_pos hpos
  rw [Layout.positional]
  split
  · next hle =>
      have hfraction := isDigit_of_mem_append
        (fun c hc => isDigit_of_mem_zeros (j := (-(d.exponent + ds.length)).toNat) hc) hdigits
      have hnumeral := Numeral.positional (.pointed (w := ['0']) (by simp)
        (fun c hc => List.mem_singleton.mp hc ▸ rfl) hfraction)
      have hzero := ofDigitChars_zeros_append ((-(d.exponent + ds.length)).toNat + 1) ds
      rw [List.replicate_succ, List.cons_append, ← List.singleton_append, hvalue] at hzero
      rw [hzero, List.length_append, List.length_replicate,
        div_ten_pow (k := d.exponent) (by omega)] at hnumeral
      simp only [String.toList_append, String.toList_ofList]
      exact hnumeral
  · split
    · next hle =>
        have hwhole := isDigit_of_mem_append hdigits fun c hc =>
          isDigit_of_mem_zeros (j := (d.exponent + ds.length).toNat - ds.length) hc
        have hnumeral := Numeral.positional (.pointed (f := ['0'])
          (List.append_ne_nil_of_left_ne_nil hne _) hwhole
          (fun c hc => List.mem_singleton.mp hc ▸ rfl))
        have hzero := ofDigitChars_append_zeros ds
          ((d.exponent + ds.length).toNat - ds.length + 1)
        rw [List.replicate_succ', ← List.append_assoc, hvalue] at hzero
        rw [hzero, List.length_singleton, pow_one, pow_succ] at hnumeral
        rw [String.toList_append, String.toList_ofList]
        have hexponent := ten_pow_toNat (k := d.exponent)
          (n := (d.exponent + ds.length).toNat - ds.length) (by omega)
        rw [Nat.cast_mul, Nat.cast_mul, Nat.cast_pow, Nat.cast_ofNat, hexponent, ← mul_assoc,
          mul_div_cancel_right₀ _ (by norm_num)] at hnumeral
        exact hnumeral
    · next hpoint hle =>
        have hnumeral := Numeral.positional (.pointed
          (w := ds.take (d.exponent + ds.length).toNat)
          (f := ds.drop (d.exponent + ds.length).toNat)
          (by rw [Ne, List.take_eq_nil_iff, List.eq_nil_iff_length_eq_zero]; omega)
          (fun c hc => hdigits c (List.mem_of_mem_take hc))
          (fun c hc => hdigits c (List.mem_of_mem_drop hc)))
        rw [List.take_append_drop, hvalue, List.length_drop,
          div_ten_pow (k := d.exponent) (by omega)] at hnumeral
        simp only [String.toList_append, String.toList_ofList, List.append_assoc]
        exact hnumeral

/-- The digits in front of an exponent have a point after the first of them, if there are more. -/
theorem Layout.scientific_toList {ds : List Char} (hpos : 0 < ds.length)
    (hdigits : ∀ c ∈ ds, Piece.isDigit c = true) (e : Int) :
    ∃ mantissa, (Layout.scientific ds e).toList = mantissa ++ (Layout.exponentText e).toList ∧
      Mantissa mantissa ((ofDigitChars 10 ds 0 : Nat) / 10 ^ (ds.length - 1)) := by
  obtain ⟨c, cs, rfl⟩ := List.exists_cons_of_length_pos hpos
  cases cs with
  | nil =>
      refine ⟨[c], ?_, ?_⟩
      · rw [Layout.scientific, String.toList_append, String.toList_ofList]
        exact fun _ _ _ h => by cases h
      · rw [List.length_singleton, Nat.sub_self, pow_zero, div_one]
        exact .whole (by simp) hdigits
  | cons f rest =>
      refine ⟨c :: '.' :: f :: rest, ?_, ?_⟩
      · rw [Layout.scientific, String.toList_append, String.toList_ofList]
      · obtain ⟨hc, hrest⟩ := List.forall_mem_cons.mp hdigits
        exact Mantissa.pointed (w := [c]) (by simp)
          (fun c' hc' => List.mem_singleton.mp hc' ▸ hc) hrest

/-- A decimal with an exponent. -/
theorem Layout.scientific_numeral (d : Decimal) :
    Numeral (Layout.scientific (toDigits 10 d.digits)
      (d.exponent + (toDigits 10 d.digits).length - 1)).toList (d.digits * 10 ^ d.exponent) := by
  have hdigits : ∀ c ∈ toDigits 10 d.digits, Piece.isDigit c = true :=
    fun c hc => isDigit_of_mem_toDigits hc
  have hvalue : ofDigitChars 10 (toDigits 10 d.digits) 0 = d.digits :=
    Nat.ofDigitChars_ten_toDigits
  have hpos : 0 < (toDigits 10 d.digits).length := Nat.length_toDigits_pos
  generalize toDigits 10 d.digits = ds at hdigits hvalue hpos
  have hsplit : (10 : ℚ) ^ (d.exponent + ds.length - 1) =
      10 ^ (ds.length - 1) * 10 ^ d.exponent := by
    rw [← zpow_natCast, ← zpow_add₀ (by norm_num)]
    congr 1
    omega
  obtain ⟨mantissa, htext, hmantissa⟩ :=
    Layout.scientific_toList hpos hdigits (d.exponent + ds.length - 1)
  obtain ⟨negative, es, hes, hall, hexponent⟩ :=
    exponentText_toList (d.exponent + ds.length - 1)
  have hnumeral := Numeral.scientific negative hmantissa hall
  rw [hexponent, hvalue, hsplit, ← mul_assoc, div_mul_cancel₀ _ (pow_ne_zero _ (by norm_num))]
    at hnumeral
  rw [htext, hes]
  exact hnumeral

/-- What is written for a decimal stands for it. -/
theorem Layout.dump_decimal (d : Decimal) :
    Numeral (Layout.dump.decimal d).toList (d.digits * 10 ^ d.exponent) := by
  simp only [Layout.decimal]
  split
  · exact Layout.dump_positional d
  · exact Layout.scientific_numeral d

end

/-! ## Doubles on paper -/

/-- The decimal that a double without its sign is written as. -/
def Binary.magnitude (m : Nat) (e : Int) : ℚ :=
  if m = 0 then 0 else (Decimal.shortest m e).digits * 10 ^ (Decimal.shortest m e).exponent

/-- What a dump shows of a double. -/
inductive Dumped : Binary → List Char → Prop
  | nan : Dumped .nan ['n', 'a', 'n']
  | infinity : Dumped (.infinite false) ['i', 'n', 'f']
  | negativeInfinity : Dumped (.infinite true) ['-', 'i', 'n', 'f']
  | finite {m : Nat} {e : Int} {text : List Char} :
      Numeral text (Binary.magnitude m e) → Dumped (.finite false m e) text
  | negative {m : Nat} {e : Int} {text : List Char} :
      Numeral text (Binary.magnitude m e) → Dumped (.finite true m e) ('-' :: text)

theorem Layout.dumped (b : Binary) : Dumped b (Layout.dump.binary b).toList := by
  cases b with
  | nan => exact .nan
  | infinite negative =>
      cases negative with
      | false => exact .infinity
      | true => exact .negativeInfinity
  | finite negative m e =>
      have hnumeral : Numeral (if m = 0 then "0" ++ Layout.dump.wholeSuffix
          else Layout.dump.decimal (Decimal.shortest m e)).toList (Binary.magnitude m e) := by
        rw [Binary.magnitude]
        split
        · have hzero := Numeral.positional (.pointed (w := ['0']) (f := ['0']) (by simp)
            (fun c hc => List.mem_singleton.mp hc ▸ rfl)
            (fun c hc => List.mem_singleton.mp hc ▸ rfl))
          have hvalue : ofDigitChars 10 (['0'] ++ ['0']) 0 = 0 := rfl
          rw [hvalue, Nat.cast_zero, zero_div] at hzero
          exact hzero
        · exact Layout.dump_decimal _
      rw [Layout.binary, String.toList_append]
      cases negative with
      | false => exact .finite hnumeral
      | true => exact .negative hnumeral

/-- The parts of a double: zero has the smallest exponent. -/
theorem Binary.isDouble_of_ofBits {bits : UInt64} {negative : Bool} {m : Nat} {e : Int}
    (h : Binary.ofBits bits = .finite negative m e) : m = 0 ∧ e = -1074 ∨ IsDouble m e := by
  simp only [Binary.ofBits, Nat.pow_eq] at h
  split at h
  · split at h <;> cases h
  · split at h
    · cases h
      obtain hzero | hpos := Nat.eq_zero_or_pos (bits.toNat % 2 ^ 52)
      · exact .inl ⟨hzero, rfl⟩
      · exact .inr ⟨hpos, by omega, by omega, by omega⟩
    · cases h
      exact .inr ⟨by omega, by omega, by omega, by omega⟩

theorem Binary.magnitude_pos {m : Nat} {e : Int} (h : IsDouble m e) : 0 < magnitude m e := by
  rw [magnitude, if_neg h.pos.ne']
  exact (Decimal.shortest_roundsTo h).pos h

theorem Binary.magnitude_injective {m m' : Nat} {e e' : Int}
    (h : m = 0 ∧ e = -1074 ∨ IsDouble m e) (h' : m' = 0 ∧ e' = -1074 ∨ IsDouble m' e')
    (heq : magnitude m e = magnitude m' e') : m = m' ∧ e = e' := by
  rcases h with ⟨rfl, rfl⟩ | h
  · rcases h' with ⟨rfl, rfl⟩ | h'
    · exact ⟨rfl, rfl⟩
    · exact absurd heq (magnitude_pos h').ne
  · rcases h' with ⟨rfl, rfl⟩ | h'
    · exact absurd heq (magnitude_pos h).ne'
    · rw [magnitude, magnitude, if_neg h.pos.ne', if_neg h'.pos.ne'] at heq
      exact Decimal.shortest_injective h h' heq

/-- The two ways to take apart what is no finite double agree. -/
theorem unpack_of_last {b : UInt64} (h : b.toNat / 2 ^ 52 % 2 ^ 11 = 2047) :
    UnpackedFloat.unpack .binary64 b.toBitVec =
      if b.toNat % 2 ^ 52 = 0 then .infinity (signOf (b.toNat / 2 ^ 63 == 1)) else .notANumber := by
  have hmantissa : (@unpackMantissa .binary64 b.toBitVec).toNat = b.toNat % 2 ^ 52 := by
    rw [unpackMantissa_def, BitVec.extractLsb'_toNat, Nat.shiftRight_zero, UInt64.toNat_toBitVec]
  have hexponent : (@unpackExponent .binary64 b.toBitVec).toNat =
      b.toNat / 2 ^ 52 % 2 ^ 11 := by
    rw [unpackExponent_def, BitVec.extractLsb'_toNat, Nat.shiftRight_eq_div_pow,
      UInt64.toNat_toBitVec]
  have hlast : (-1#11).toNat = 2047 := rfl
  rw [UnpackedFloat.unpack]
  simp only [ofBitVec_unpackSign b, ← BitVec.toNat_inj, hmantissa, hexponent, hlast, h,
    BitVec.toNat_zero, if_true]

/-- The parts of a double as the library takes it apart. -/
def Binary.unpacked : Binary → UnpackedFloat
  | .nan => .notANumber
  | .infinite negative => .infinity (signOf negative)
  | .finite negative m e =>
    if hm : m = 0 then .zero (signOf negative)
    else .finite (signOf negative) m e (Nat.pos_of_ne_zero hm)

theorem unpack_eq_unpacked (b : UInt64) :
    UnpackedFloat.unpack .binary64 b.toBitVec = (Binary.ofBits b).unpacked := by
  cases hb : Binary.ofBits b with
  | finite negative m e => exact unpack_ofBits hb
  | nan =>
      simp only [Binary.ofBits, Nat.pow_eq] at hb
      split at hb
      · next hlast =>
          split at hb
          · cases hb
          · next hfraction => rw [unpack_of_last hlast, if_neg hfraction, Binary.unpacked]
      · split at hb <;> cases hb
  | infinite negative =>
      simp only [Binary.ofBits, Nat.pow_eq] at hb
      split at hb
      · next hlast =>
          split at hb
          · next hfraction =>
              cases hb
              rw [unpack_of_last hlast, if_pos hfraction, Binary.unpacked]
          · cases hb
      · split at hb <;> cases hb

/-- Doubles are the same if their parts are. -/
theorem Binary.ofFloat_injective {x y : Float} (h : Binary.ofFloat x = Binary.ofFloat y) :
    x = y := by
  refine eq_of_unpack ?_
  exact (unpack_eq_unpacked _).trans
    ((congrArg Binary.unpacked h).trans (unpack_eq_unpacked _).symm)

/-- A dump tells numbers apart. -/
theorem Layout.dump_number_injective {x y : Float}
    (h : Layout.dump.number x = Layout.dump.number y) : x = y := by
  refine Binary.ofFloat_injective ?_
  have hx := Layout.dumped (Binary.ofFloat x)
  have hy := Layout.dumped (Binary.ofFloat y)
  simp only [Layout.number] at h
  rw [h] at hx
  generalize hb : Binary.ofFloat x = b at hx
  generalize hb' : Binary.ofFloat y = b' at hx hy
  generalize (Layout.dump.binary b').toList = text at hx hy
  -- The first character, and after a sign the second, tells the sorts of doubles apart.
  have hdigit : ∀ {c cs v}, Numeral (c :: cs) v → Piece.isDigit c = true := by
    intro c cs v hv
    obtain ⟨c', cs', heq, hc⟩ := hv.head
    cases heq
    exact hc
  cases hx with
  | nan =>
      cases hy with
      | nan => rfl
      | finite hy => exact absurd (hdigit hy) (by decide)
  | infinity =>
      cases hy with
      | infinity => rfl
      | finite hy => exact absurd (hdigit hy) (by decide)
  | negativeInfinity =>
      cases hy with
      | negativeInfinity => rfl
      | finite hy => exact absurd (hdigit hy) (by decide)
      | negative hy => exact absurd (hdigit hy) (by decide)
  | finite hx =>
      cases hy with
      | nan | infinity | negativeInfinity | negative => exact absurd (hdigit hx) (by decide)
      | finite hy =>
          obtain ⟨rfl, rfl⟩ := Binary.magnitude_injective (Binary.isDouble_of_ofBits hb)
            (Binary.isDouble_of_ofBits hb') (hx.unique hy)
          rfl
  | negative hx =>
      cases hy with
      | negativeInfinity => exact absurd (hdigit hx) (by decide)
      | finite hy => exact absurd (hdigit hy) (by decide)
      | negative hy =>
          obtain ⟨rfl, rfl⟩ := Binary.magnitude_injective (Binary.isDouble_of_ofBits hb)
            (Binary.isDouble_of_ofBits hb') (hx.unique hy)
          rfl

end Lox
