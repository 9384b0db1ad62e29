import Lox.Yaml.Moment

/-!
# What a plain scalar means

A scalar written without quotes can stand for more than its own text. Its form
alone decides: a few words stand for truth values and for nothing, numerals stand
for numbers. A text that has one of these forms is written between quotes when it
is meant as a text.

Whole numbers may be written to base 2, 8, 10, 16, or 60 with colons between the
digits; underscores in them count for nothing.
-/

namespace Lox
namespace Scalar

/-- The forms of a plain scalar that stands for something else. -/
inductive Form where
  | null
  | bool (b : Bool)
  | int (negative : Bool) (base : Nat) (digits : List Char)
  /-- A number to base 60: its parts, the last of them with a fraction if it is real. -/
  | sexagesimal (negative real : Bool) (parts : List (List Char))
  | real (negative : Bool) (mantissa : List Char) (exponent : Int)
  | infinity (negative : Bool)
  | notANumber
  | moment (m : Document.Moment)
  /-- The key under which a mapping takes over the entries of others. -/
  | merge
  /-- The sign for a default value. -/
  | default

def nullWords : List String := ["", "~", "null", "Null", "NULL"]

def trueWords : List String :=
  ["yes", "Yes", "YES", "true", "True", "TRUE", "on", "On", "ON"]

def falseWords : List String :=
  ["no", "No", "NO", "false", "False", "FALSE", "off", "Off", "OFF"]

/-- The form of a word, if it is one of the words with a meaning. -/
def word? (s : String) : Option Form :=
  if nullWords.contains s then some .null
  else if trueWords.contains s then some (.bool true)
  else if falseWords.contains s then some (.bool false)
  else if s = "<<" then some .merge
  else if s = "=" then some .default
  else none

/-- A sign, if there is one, and what follows it. -/
def sign : List Char → Bool × List Char
  | '-' :: rest => (true, rest)
  | '+' :: rest => (false, rest)
  | cs => (false, cs)

def isDigitOf (base : Nat) (c : Char) : Bool :=
  (c.isDigit && c.toNat - 48 < base) ||
    (base == 16 && (('a' ≤ c && c ≤ 'f') || ('A' ≤ c && c ≤ 'F')))

/-- Are these digits of a base, at least one, with underscores between them? -/
def isNumeral (base : Nat) (cs : List Char) : Bool :=
  !cs.isEmpty && cs.all fun c => c == '_' || isDigitOf base c

/-- Does a text begin with a decimal digit? -/
def startsWithDigit (cs : List Char) : Bool :=
  cs.head?.any Char.isDigit

/-- The parts of a text between colons. -/
def splitColons : List Char → List (List Char)
  | [] => [[]]
  | c :: rest =>
    match splitColons rest with
    | [] => [[c]]
    | part :: parts => if c = ':' then [] :: part :: parts else (c :: part) :: parts

/-- Is this a digit to base 60, after the first one? -/
def isSixtieth (cs : List Char) : Bool :=
  match cs with
  | [a] => a.isDigit
  | [a, b] => isDigitOf 6 a && b.isDigit
  | _ => false

/-- The form of a whole number without its sign. -/
def whole? (negative : Bool) (cs : List Char) : Option Form :=
  match cs with
  | ['0'] => some (.int negative 10 cs)
  | '0' :: 'b' :: rest => if isNumeral 2 rest then some (.int negative 2 rest) else none
  | '0' :: 'x' :: rest => if isNumeral 16 rest then some (.int negative 16 rest) else none
  | '0' :: rest => if isNumeral 8 rest then some (.int negative 8 cs) else none
  | _ =>
    match splitColons cs with
    | [digits] =>
      if startsWithDigit digits && isNumeral 10 digits then some (.int negative 10 digits)
      else none
    | first :: rest =>
      if startsWithDigit first && isNumeral 10 first && rest.all isSixtieth then
        some (.sexagesimal negative false (first :: rest))
      else none
    | [] => none

/-- The exponent that a real number ends with: its sign must be written. -/
def exponent? : List Char → Option Int
  | [] => some 0
  | e :: s :: digits =>
    if (e == 'e' || e == 'E') && (s == '+' || s == '-') && !digits.isEmpty &&
        digits.all Char.isDigit then
      let n : Nat := digits.foldl (fun n c => 10 * n + (c.toNat - 48)) 0
      some (if s = '-' then -(n : Int) else n)
    else none
  | _ => none

/-- Digits and underscores, then whatever follows. -/
def digitsThen (cs : List Char) : List Char × List Char :=
  cs.span fun c => c.isDigit || c == '_'

/-- The form of a real number without its sign. One that begins with the point has
no sign. -/
def real? (signed negative : Bool) (cs : List Char) : Option Form :=
  match cs with
  | '.' :: rest =>
    let word := String.ofList rest
    if word = "inf" ∨ word = "Inf" ∨ word = "INF" then some (.infinity negative)
    else if !signed && (word == "nan" || word == "NaN" || word == "NAN") then some .notANumber
    else if !signed && startsWithDigit rest then
      let (fraction, rest) := digitsThen rest
      (exponent? rest).map (.real false ('.' :: fraction))
    else none
  | _ =>
    if startsWithDigit cs then
      let (first, rest) := digitsThen cs
      match rest with
      | '.' :: rest =>
        let (fraction, rest) := digitsThen rest
        (exponent? rest).map (.real negative (first ++ '.' :: fraction))
      | ':' :: rest =>
        let (whole, rest) := rest.span (· != '.')
        match rest with
        | '.' :: fraction =>
          if (splitColons whole).all isSixtieth && fraction.all (fun c => c.isDigit || c == '_')
          then some (.sexagesimal negative true (splitColons cs))
          else none
        | _ => none
      | _ => none
    else none

/-- The form of a plain scalar, if it stands for anything but its own text. -/
def form? (s : String) : Option Form :=
  match word? s with
  | some form => some form
  | none =>
    let cs := s.toList
    let (negative, rest) := sign cs
    match real? (rest.length < cs.length) negative rest with
    | some form => some form
    | none =>
      match whole? negative rest with
      | some form => some form
      | none => (Yaml.Moment.ofText? s).map .moment

/-- The value of a digit to any base. -/
def digitValue (c : Char) : Nat :=
  if c.isDigit then c.toNat - 48 else c.toLower.toNat - 87

/-- The value of digits; underscores count for nothing. -/
def numeral (base : Nat) (cs : List Char) : Nat :=
  (cs.filter (· != '_')).foldl (fun n c => base * n + digitValue c) 0

def signed (negative : Bool) (n : Nat) : Int :=
  if negative then -(n : Int) else n

/-- The real number nearest to digits with a point among them, times a power of ten.
A power beyond those of all real numbers is taken for the last one that makes a
difference. -/
def decimal (mantissa : List Char) (exponent : Int) : Float :=
  let ds := mantissa.filter (· != '_')
  let fraction := (ds.dropWhile (· != '.')).drop 1
  let digits := numeral 10 (ds.filter (· != '.'))
  let shift := max (-(400 + ds.length : Int)) (min 400 (exponent - fraction.length))
  Float.ofScientific digits (shift < 0) shift.natAbs

/-- The number that digits to a base stand for. -/
def integer (negative : Bool) (base : Nat) (digits : List Char) : Except Document.Failure Int :=
  let count := (digits.filter (· != '_')).length
  if count = 0 then .error (.notANumeral base "")
  else if base = 10 ∧ Document.digitLimit < count then .error (.tooManyDigits count)
  else .ok (signed negative (numeral base digits))

/-- The number that parts to base 60 stand for, each in decimal digits. -/
def sixtieths (negative : Bool) (parts : List (List Char)) : Except Document.Failure Int := do
  let ns ← parts.mapM (integer false 10)
  .ok ((if negative then -1 else 1) * ns.foldl (fun n d => 60 * n + d) 0)

/-- The real number that parts to base 60 stand for. They are added up from the last
one on, which decides how the sum is rounded. -/
def sumSixtieths (negative : Bool) (parts : List Float) : Float :=
  let (x, _) := parts.foldr
    (fun part (x, unit) => (x + part * Float.ofNat unit, 60 * unit)) (0.0, 1)
  if negative then -x else x

/-- What a form stands for. A merge key and the sign for a default value stand for
nothing by themselves. -/
def value : Form → Except Document.Failure Datum
  | .null => .ok .null
  | .bool b => .ok (.bool b)
  | .int negative base digits => (integer negative base digits).map .int
  | .sexagesimal negative false parts => (sixtieths negative parts).map .int
  | .sexagesimal negative true parts =>
    .ok (.real (sumSixtieths negative (parts.map fun part => decimal part 0)))
  | .real negative mantissa exponent =>
    let x := decimal mantissa exponent
    .ok (.real (if negative then -x else x))
  | .infinity negative => .ok (.real (if negative then -(1.0 / 0.0) else 1.0 / 0.0))
  | .notANumber => .ok (.real (0.0 / 0.0))
  | .moment m =>
    match Yaml.Moment.fault? m with
    | some part => .error (.momentOutOfRange part)
    | none => .ok (.moment m)
  | .merge => .error .malformed
  | .default => .error .malformed

end Scalar
end Lox
