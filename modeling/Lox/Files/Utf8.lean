/-!
# Reading bytes as UTF-8

A file is read as text only if its bytes are well formed. The first place where
they are not is reported with the bytes that begin an incomplete character.
-/

namespace Lox

/-- Why bytes are not UTF-8. -/
inductive EncodingFault where
  | invalidStart
  | invalidContinuation
  | unexpectedEnd
deriving DecidableEq, Repr

/-- A fault with its place: `length` bytes from `start` on belong to it, of which
`byte` is the first. -/
structure EncodingError where
  fault : EncodingFault
  start : Nat
  length : Nat
  byte : UInt8
deriving DecidableEq, Repr

namespace EncodingError

def reason : EncodingFault → String
  | .invalidStart => "invalid start byte"
  | .invalidContinuation => "invalid continuation byte"
  | .unexpectedEnd => "unexpected end of data"

/-- The report of the fault. -/
def message (e : EncodingError) : String :=
  let digits := Nat.toDigits 16 e.byte.toNat
  let hex := String.ofList (List.replicate (2 - digits.length) '0' ++ digits)
  let place :=
    if e.length = 1 then
      "byte 0x" ++ hex ++ " in position " ++ toString e.start
    else
      "bytes in position " ++ toString e.start ++ "-" ++ toString (e.start + e.length - 1)
  "'utf-8' codec can't decode " ++ place ++ ": " ++ reason e.fault

end EncodingError

namespace Utf8

/-- How many bytes follow a first byte, and between which bounds the one next to
it must lie. Bounds narrower than those of the later bytes exclude overlong forms,
surrogates, and code points that are too large. -/
def lead? (b : UInt8) : Option (Nat × UInt8 × UInt8) :=
  if b < 0xc2 then none
  else if b < 0xe0 then some (1, 0x80, 0xbf)
  else if b = 0xe0 then some (2, 0xa0, 0xbf)
  else if b = 0xed then some (2, 0x80, 0x9f)
  else if b < 0xf0 then some (2, 0x80, 0xbf)
  else if b = 0xf0 then some (3, 0x90, 0xbf)
  else if b < 0xf4 then some (3, 0x80, 0xbf)
  else if b = 0xf4 then some (3, 0x80, 0x8f)
  else none

/-- The bits of a first byte that belong to the code point when `n` bytes follow. -/
def leadBits (n : Nat) (b : UInt8) : Nat :=
  b.toNat % Nat.pow 2 (6 - n)

/-- Reads the rest of a character: `n` more bytes, the next between `low` and
`high`, `value` read so far from `taken` bytes. On failure gives the fault and
how many bytes belong to it. -/
def following (value taken : Nat) : (n : Nat) → (low high : UInt8) → List UInt8 →
    Except (EncodingFault × Nat) (Nat × List UInt8)
  | 0, _, _, rest => .ok (value, rest)
  | _ + 1, _, _, [] => .error (.unexpectedEnd, taken)
  | n + 1, low, high, b :: rest =>
    if low ≤ b ∧ b ≤ high then
      following (value * 64 + b.toNat % 64) (taken + 1) n 0x80 0xbf rest
    else .error (.invalidContinuation, taken)

/-- Reads at most `n` characters from bytes that start at `position`. -/
def decode (position : Nat) : Nat → List UInt8 → Except EncodingError (List Char)
  | 0, _ => .ok []
  | _ + 1, [] => .ok []
  | n + 1, b :: rest =>
    if b < 0x80 then do
      let cs ← decode (position + 1) n rest
      return Char.ofNat b.toNat :: cs
    else
      match lead? b with
      | none => .error ⟨.invalidStart, position, 1, b⟩
      | some (more, low, high) =>
        match following (leadBits more b) 1 more low high rest with
        | .error (fault, length) => .error ⟨fault, position, length, b⟩
        | .ok (value, after) => do
          let cs ← decode (position + 1 + more) n after
          return Char.ofNat value :: cs

end Utf8

/-- The text that bytes stand for. -/
def decodeUtf8 (bytes : List UInt8) : Except EncodingError (List Char) :=
  Utf8.decode 0 bytes.length bytes

end Lox
