/-!
# The shortest decimal that reads back

A finite double stands for a whole interval of reals: every real in it rounds to
that double. Among the decimals in the interval the shortest ones lie on the
coarsest grid of powers of ten that still has a point there, and of those the
nearest to the double is the one to write. Everything here is exact arithmetic
on natural numbers; no rounding happens before the digits are chosen.
-/

namespace Lox

/-- A double taken apart: `finite` stands for `mantissa * 2 ^ exponent`, negated
if `negative`. -/
inductive Binary where
  | nan
  | infinite (negative : Bool)
  | finite (negative : Bool) (mantissa : Nat) (exponent : Int)
deriving DecidableEq, Repr

/-- A decimal `digits * 10 ^ exponent`. -/
structure Decimal where
  digits : Nat
  exponent : Int
deriving DecidableEq, Repr

namespace Binary

/-- Reads the 64 bits of the interchange format: sign, eleven bits of exponent,
fifty-two of fraction. -/
def ofBits (bits : UInt64) : Binary :=
  let n : Nat := bits.toNat
  let negative := n / Nat.pow 2 63 == 1
  let field : Nat := n / Nat.pow 2 52 % Nat.pow 2 11
  let fraction : Nat := n % Nat.pow 2 52
  if field = 2047 then
    if fraction = 0 then .infinite negative else .nan
  else if field = 0 then
    .finite negative fraction (-1074)
  else
    .finite negative (fraction + Nat.pow 2 52) ((field : Int) - 1075)

/-- The parts of a double. -/
def ofFloat (x : Float) : Binary := ofBits x.toBits

/-- The value as an integer, if it is one. -/
def toInt? : Binary → Option Int
  | .nan => none
  | .infinite _ => none
  | .finite negative m e =>
    let magnitude : Option Nat :=
      if 0 ≤ e then some (m * Nat.pow 2 e.toNat)
      else if m % Nat.pow 2 (-e).toNat = 0 then some (m / Nat.pow 2 (-e).toNat)
      else none
    magnitude.map fun n => if negative then -(n : Int) else (n : Int)

end Binary

/-- The reals that round to one double, in units of `1 / scale`: all of them lie
between `low` and `high`, the double itself is `value`, and the two ends belong
to the interval if `closed`. -/
structure Interval where
  low : Nat
  value : Nat
  high : Nat
  scale : Nat
  closed : Bool

namespace Interval

/-- The interval of `m * 2 ^ e`. It reaches half a step to either side, except
that the step below a power of two is half as long. A tie goes to the even
mantissa, so the ends belong to the interval of an even one. -/
def around (m : Nat) (e : Int) : Interval :=
  let below := if m = Nat.pow 2 52 ∧ e > -1074 then 1 else 2
  let up := Nat.pow 2 (e - 2).toNat
  { low := (4 * m - below) * up
    value := 4 * m * up
    high := (4 * m + 2) * up
    scale := Nat.pow 2 (2 - e).toNat
    closed := m % 2 == 0 }

/-- The same interval in units of `10 ^ k`. -/
def onGrid (i : Interval) (k : Int) : Interval :=
  let finer := Nat.pow 10 (-k).toNat
  { i with
    low := i.low * finer
    value := i.value * finer
    high := i.high * finer
    scale := i.scale * Nat.pow 10 k.toNat }

/-- Does the whole number `n` lie in the interval? -/
def contains (i : Interval) (n : Nat) : Bool :=
  let p := n * i.scale
  if i.closed then i.low ≤ p && p ≤ i.high else i.low < p && p < i.high

/-- The whole number in the interval nearest to its value. Only the two
neighbours of the value can be it; halfway between them the even one is taken. -/
def nearestWhole (i : Interval) : Option Nat :=
  let below := i.value / i.scale
  let twice := 2 * (i.value % i.scale)
  match i.contains below, i.contains (below + 1) with
  | true, true =>
    if twice < i.scale then some below
    else if i.scale < twice then some (below + 1)
    else if below % 2 = 0 then some below
    else some (below + 1)
  | true, false => some below
  | false, true => some (below + 1)
  | false, false => none

/-- Walks from the grid of `10 ^ k` towards finer ones, at most `n` of them. -/
def coarsest (i : Interval) : Nat → Int → Option Decimal
  | 0, _ => none
  | n + 1, k =>
    match (i.onGrid k).nearestWhole with
    | some d => some ⟨d, k⟩
    | none => i.coarsest n (k - 1)

end Interval

namespace Decimal

/-- The shortest decimal that rounds to `m * 2 ^ e`, for a positive `m`. The walk
starts above the value: `m * 2 ^ e` is below `2 ^ b`, and `2 ^ b ≤ 10 ^ (b / 3 + 1)`
for a positive `b`, `2 ^ b ≤ 10 ^ (b / 4 + 1)` otherwise. It ends at the latest on
the grid of `10 ^ e`, on which the value itself lies. -/
def shortest (m : Nat) (e : Int) : Decimal :=
  let b := (Nat.log2 m : Int) + 1 + e
  let start := if 0 < b then b / 3 + 1 else b / 4 + 1
  let last := min e 0
  ((Interval.around m e).coarsest (start - last + 1).toNat start).getD ⟨0, 0⟩

end Decimal

end Lox
