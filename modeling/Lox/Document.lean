import Lox.Decimal.Layout
import Lox.Text.Quoted

/-!
# Documents

What the document in a settings file can hold, before anyone asks whether it makes sense
as a setting: scalars of six kinds, lists, and mappings, whose keys are scalars. How a
document is written down is no matter here; whoever reads settings is told how.

Most texts that are no document are refused without saying more. A document can also
be sound and hold a scalar whose form promises a value that does not exist: a numeral
without digits, a day that no month has, a character beyond the last one. Such a
failure has a report of its own.
-/

namespace Lox
namespace Document

/-- A time of day. -/
structure TimeOfDay where
  hour : Nat
  minute : Nat
  second : Nat
  /-- Millionths of the second. -/
  fraction : Nat
  /-- The offset from the common time in minutes, if it is known. -/
  offset : Option Int
deriving DecidableEq, Repr

/-- A day, and perhaps a time of that day. -/
structure Moment where
  year : Nat
  month : Nat
  day : Nat
  time : Option TimeOfDay
deriving DecidableEq, Repr

namespace Moment

/-- A number with at least so many digits. -/
def padded (width n : Nat) : String :=
  let digits := (toString n).toList
  String.ofList (List.replicate (width - digits.length) '0' ++ digits)

/-- A moment as it is shown. -/
def shown (m : Moment) : String :=
  let day := padded 4 m.year ++ "-" ++ padded 2 m.month ++ "-" ++ padded 2 m.day
  match m.time with
  | none => day
  | some t =>
    let fraction := if t.fraction = 0 then "" else "." ++ padded 6 t.fraction
    let offset :=
      match t.offset with
      | none => ""
      | some n =>
        (if n < 0 then "-" else "+") ++ padded 2 (n.natAbs / 60) ++ ":" ++
          padded 2 (n.natAbs % 60)
    day ++ " " ++ padded 2 t.hour ++ ":" ++ padded 2 t.minute ++ ":" ++ padded 2 t.second ++
      fraction ++ offset

end Moment

/-- The part of a date or of a time of day that is out of range. -/
inductive MomentPart where
  | year | month | day | hour | minute | second
deriving DecidableEq, Repr

/-- Why there are no data. -/
inductive Failure where
  /-- The text is not a document. -/
  | malformed
  /-- A text that is no numeral to this base. -/
  | notANumeral (base : Nat) (text : String)
  /-- A whole number with no text at all. -/
  | emptyNumeral
  /-- A decimal numeral with too many digits. -/
  | tooManyDigits (count : Nat)
  /-- A text that is no real number. -/
  | notAReal (text : String)
  /-- A text that is no truth value. -/
  | notATruthValue (text : String)
  /-- A text that is neither a day nor a day and a time. -/
  | notAMoment (text : String)
  | momentOutOfRange (part : MomentPart)
  /-- An escape with the code of no character. -/
  | noCharacter (code : Nat)
deriving DecidableEq, Repr

/-- The most digits that a decimal numeral may have. -/
def digitLimit : Nat := 4300

namespace MomentPart

/-- The report of a part that is out of range. -/
def message : MomentPart → String
  | year => "year 0 is out of range"
  | month => "month must be in 1..12"
  | day => "day is out of range for month"
  | hour => "hour must be in 0..23"
  | minute => "minute must be in 0..59"
  | second => "second must be in 0..59"

end MomentPart

namespace Failure

/-- The report of a failure. -/
def message : Failure → String
  | malformed => "not a document that can be read"
  | notANumeral base text =>
    "invalid literal for int() with base " ++ toString base ++ ": " ++ quoted text
  | emptyNumeral => "string index out of range"
  | tooManyDigits count =>
    "Exceeds the limit (" ++ toString digitLimit ++ " digits) for integer string conversion: " ++
      "value has " ++ toString count ++
      " digits; use sys.set_int_max_str_digits() to increase the limit"
  | notAReal text => "could not convert string to float: " ++ quoted text
  | notATruthValue text => quoted text
  | notAMoment text => quoted text
  | momentOutOfRange part => part.message
  | noCharacter _ => "chr() arg not in range(0x110000)"

/-- Is a failure no fault of the values, but of the forms they are asked for in? No
report is made of it. -/
def isEscape : Failure → Bool
  | emptyNumeral => true
  | notATruthValue _ => true
  | notAMoment _ => true
  | noCharacter code => 0x7fffffff < code
  | _ => false

end Failure

end Document

/-! ## Data -/

/-- A piece of data. -/
inductive Datum where
  | null
  | bool (b : Bool)
  | int (n : Int)
  | real (x : Float)
  | text (s : String)
  | moment (m : Document.Moment)
  | list (items : List Datum)
  | mapping (entries : List (Datum × Datum))

namespace Datum

/-- Is a datum something, rather than nothing, false, zero or empty? -/
def truthy : Datum → Bool
  | null => false
  | bool b => b
  | int n => n != 0
  | real x => x != 0
  | text s => s != ""
  | moment _ => true
  | list items => !items.isEmpty
  | mapping entries => !entries.isEmpty

def text? : Datum → Option String
  | text s => some s
  | _ => none

mutual

/-- A datum as it is shown inside another one. -/
def describe : Datum → String
  | null => "None"
  | bool b => if b then "True" else "False"
  | int n => toString n
  | real x => Layout.dump.number x
  | text s => quoted s
  | moment m => m.shown
  | list items => "[" ++ String.intercalate ", " (describeAll items) ++ "]"
  | mapping entries => "\x7b" ++ String.intercalate ", " (describeEntries entries) ++ "\x7d"

def describeAll : List Datum → List String
  | [] => []
  | d :: rest => d.describe :: describeAll rest

def describeEntries : List (Datum × Datum) → List String
  | [] => []
  | (key, value) :: rest => (key.describe ++ ": " ++ value.describe) :: describeEntries rest

end

/-- A datum as it is shown by itself: a text as it is. -/
def shown : Datum → String
  | text s => s
  | d => d.describe

mutual

/-- Are two data the same? A real that is not a number is not even the same as
itself. -/
def same : Datum → Datum → Bool
  | null, null => true
  | bool a, bool b => a == b
  | int a, int b => a == b
  | real x, real y => x == y
  | text s, text t => s == t
  | moment a, moment b => a == b
  | list a, list b => sameAll a b
  | mapping a, mapping b => sameEntries a b
  | _, _ => false

def sameAll : List Datum → List Datum → Bool
  | [], [] => true
  | a :: as, b :: bs => a.same b && sameAll as bs
  | _, _ => false

def sameEntries : List (Datum × Datum) → List (Datum × Datum) → Bool
  | [], [] => true
  | (k, a) :: as, (l, b) :: bs => k.same l && a.same b && sameEntries as bs
  | _, _ => false

end

/-- The whole number that a number or a truth value counts as. -/
def whole? : Datum → Option Int
  | bool b => some (if b then 1 else 0)
  | int n => some n
  | _ => none

/-- Do two data stand for the same key? Numbers of all kinds and truth values are
compared by their value. -/
def sameKey (a b : Datum) : Bool :=
  match a.whole?, b.whole? with
  | some m, some n => m == n
  | some m, none =>
    match b with
    | real x => Float.ofInt m == x
    | _ => false
  | none, some n =>
    match a with
    | real x => x == Float.ofInt n
    | _ => false
  | none, none => a.same b

/-- Can a datum be the key of a mapping? -/
def isKey : Datum → Bool
  | list _ => false
  | mapping _ => false
  | _ => true

/-- Entries with one more. If there is one with the same key, it keeps its place and
its key, and the new value counts. -/
def putEntry (entries : List (Datum × Datum)) (key value : Datum) : List (Datum × Datum) :=
  if entries.any fun (k, _) => k.sameKey key then
    entries.map fun (k, v) => (k, if k.sameKey key then value else v)
  else entries ++ [(key, value)]

end Datum

/-- A way to read documents. -/
abbrev DocumentReader := String → Except Document.Failure Datum

end Lox
