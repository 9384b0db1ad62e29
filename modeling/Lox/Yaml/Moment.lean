import Lox.Document

/-!
# Days and times

A plain scalar may stand for a day, written with dashes, or for a day and a time
after it, with a fraction of the second and the offset from the common time at will.
What is written need not exist: the parts are checked only when the moment is taken
for a value.
-/

namespace Lox
namespace Yaml

open Document

/-- A part that may be missing, in a document that cannot do without it. -/
def orMalformed {α : Type} : Option α → Except Failure α
  | some a => .ok a
  | none => .error .malformed

namespace Moment

/-- The value of decimal digits. -/
def number (digits : List Char) : Nat :=
  digits.foldl (fun n c => 10 * n + (c.toNat - 48)) 0

/-- A number of one or two digits at the beginning of a text, and what follows. -/
def oneOrTwo? (cs : List Char) : Option (Nat × List Char) :=
  let (digits, rest) := cs.span Char.isDigit
  if digits.length = 1 ∨ digits.length = 2 then some (number digits, rest) else none

/-- A number of two digits at the beginning of a text, and what follows. -/
def two? (cs : List Char) : Option (Nat × List Char) :=
  let (digits, rest) := cs.span Char.isDigit
  if digits.length = 2 then some (number digits, rest) else none

/-- What follows a character at the beginning of a text. -/
def after? (c : Char) (cs : List Char) : Option (List Char) :=
  match cs with
  | d :: rest => if c = d then some rest else none
  | [] => none

def skipBlanks (cs : List Char) : List Char :=
  cs.dropWhile fun c => c == ' ' || c == '\t'

/-- The offset at the end of a time of day; the outer `none` says that the text is
none. -/
def offset? (cs : List Char) : Option (Option Int) :=
  match skipBlanks cs with
  | [] => if cs.isEmpty then some none else none
  | ['Z'] => some (some 0)
  | s :: rest =>
    if s = '+' ∨ s = '-' then do
      let (hours, rest) ← oneOrTwo? rest
      let (minutes, rest) ← if rest.isEmpty then some (0, []) else (after? ':' rest).bind two?
      let n : Int := 60 * hours + minutes
      if rest.isEmpty then some (some (if s = '-' then -n else n)) else none
    else none

/-- Millionths from the digits of a fraction; those further on do not count. -/
def millionths (digits : List Char) : Nat :=
  number ((digits ++ List.replicate 6 '0').take 6)

/-- The time of day that a text is. -/
def timeOfDay? (cs : List Char) : Option TimeOfDay := do
  let (hour, rest) ← oneOrTwo? cs
  let (minute, rest) ← (after? ':' rest).bind two?
  let (second, rest) ← (after? ':' rest).bind two?
  let (fraction, rest) :=
    match rest with
    | '.' :: rest => rest.span Char.isDigit
    | _ => ([], rest)
  let offset ← offset? rest
  some { hour, minute, second, fraction := millionths fraction, offset }

/-- The day, and perhaps the time, that a text is. A day alone has two digits for the
month and for itself. -/
def ofText? (s : String) : Option Document.Moment := do
  let (year, rest) := s.toList.span Char.isDigit
  let (month, rest) := (← after? '-' rest).span Char.isDigit
  let (day, rest) := (← after? '-' rest).span Char.isDigit
  let m (time : Option TimeOfDay) : Document.Moment :=
    { year := number year, month := number month, day := number day, time }
  let short (digits : List Char) : Bool := digits.length == 1 || digits.length == 2
  if year.length = 4 ∧ short month ∧ short day then
    match rest with
    | [] => if month.length = 2 ∧ day.length = 2 then some (m none) else none
    | c :: after =>
      if c = 'T' ∨ c = 't' then (timeOfDay? after).map fun t => m (some t)
      else if c = ' ' ∨ c = '\t' then (timeOfDay? (skipBlanks after)).map fun t => m (some t)
      else none
  else none

def isLeap (year : Nat) : Bool :=
  year % 4 == 0 && (year % 100 != 0 || year % 400 == 0)

/-- How many days a month has. -/
def daysIn (year month : Nat) : Nat :=
  match month with
  | 2 => if isLeap year then 29 else 28
  | 4 => 30
  | 6 => 30
  | 9 => 30
  | 11 => 30
  | _ => 31

/-- The first part of a moment that is out of range. -/
def fault? (m : Document.Moment) : Option MomentPart :=
  if m.year = 0 then some .year
  else if m.month = 0 ∨ 12 < m.month then some .month
  else if m.day = 0 ∨ daysIn m.year m.month < m.day then some .day
  else
    match m.time with
    | none => none
    | some t =>
      if 23 < t.hour then some .hour
      else if 59 < t.minute then some .minute
      else if 59 < t.second then some .second
      else none

end Moment

end Yaml
end Lox
