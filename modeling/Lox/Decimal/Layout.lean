import Lox.Decimal.Shortest

/-!
# How numbers are written

The digits of a number are always the shortest that read back. Two layouts put
them on paper: `Layout.display` is what programs print, `Layout.dump` is what the
token and tree dumps show. They differ in whole numbers and in the names of the
values that are no numbers at all; both write a number positionally while its
first digit stands between the fourth place after the point and the sixteenth
before it, and with an exponent of at least two digits elsewhere.
-/

namespace Lox

/-- The choices a number format makes once the digits are known. -/
structure Layout where
  /-- What follows the digits of a whole number. -/
  wholeSuffix : String
  /-- The name of the value that is not a number. -/
  notANumber : String
  /-- The name of the value above all numbers. -/
  infinity : String
  /-- The smallest exponent of a first digit that is written positionally. -/
  lowest : Int := -4
  /-- The exponent from which on the scientific form is used. -/
  limit : Int := 16

namespace Layout

/-- Whole numbers are written without a point. -/
def display : Layout where
  wholeSuffix := ""
  notANumber := "NaN"
  infinity := "Infinity"

/-- Whole numbers keep a zero after the point, so that a number can be told from
a name. -/
def dump : Layout where
  wholeSuffix := ".0"
  notANumber := "nan"
  infinity := "inf"

/-- The exponent of the scientific form: a sign and at least two digits. -/
def exponentText (e : Int) : String :=
  let digits := toString e.natAbs
  (if e < 0 then "e-" else "e+") ++ (if digits.length < 2 then "0" ++ digits else digits)

/-- Writes the decimal with digits `ds` whose point stands after the first
`point` of them; `point` may be negative or beyond the last digit. -/
def positional (l : Layout) (ds : List Char) (point : Int) : String :=
  if point ≤ 0 then
    "0." ++ String.ofList (List.replicate (-point).toNat '0' ++ ds)
  else if (ds.length : Int) ≤ point then
    String.ofList (ds ++ List.replicate (point.toNat - ds.length) '0') ++ l.wholeSuffix
  else
    String.ofList (ds.take point.toNat) ++ "." ++ String.ofList (ds.drop point.toNat)

/-- Writes the digits `ds` with a point after the first of them. -/
def scientific (ds : List Char) (e : Int) : String :=
  let mantissa :=
    match ds with
    | d :: f :: rest => String.ofList (d :: '.' :: f :: rest)
    | short => String.ofList short
  mantissa ++ exponentText e

/-- A positive decimal. -/
def decimal (l : Layout) (d : Decimal) : String :=
  let ds := Nat.toDigits 10 d.digits
  let point := d.exponent + ds.length
  let first := point - 1
  if l.lowest ≤ first ∧ first < l.limit then l.positional ds point else scientific ds first

/-- A double taken apart. The sign is written wherever there is one, also before
a zero and before infinity. -/
def binary (l : Layout) : Binary → String
  | .nan => l.notANumber
  | .infinite negative => (if negative then "-" else "") ++ l.infinity
  | .finite negative m e =>
    (if negative then "-" else "") ++
      (if m = 0 then "0" ++ l.wholeSuffix else l.decimal (Decimal.shortest m e))

/-- A number in this layout. -/
def number (l : Layout) (x : Float) : String :=
  l.binary (Binary.ofFloat x)

end Layout

/-- The double nearest to a decimal numeral: digits, and optionally a point with
more digits after it. Only digits count towards the value, so the caller has to
have checked the form. -/
def readNumeral (numeral : List Char) : Float :=
  let whole := numeral.takeWhile (· != '.')
  let fraction := (numeral.dropWhile (· != '.')).drop 1
  let digits := (whole ++ fraction).foldl (fun n c => 10 * n + (c.toNat - '0'.toNat)) 0
  Float.ofScientific digits true fraction.length

end Lox
