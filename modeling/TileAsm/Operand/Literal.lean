import TileAsm.Error

/-!
# Numbers

A number is decimal, binary behind `0b` or hexadecimal behind `0x`, with ASCII digits of either
case. It may have any number of digits and denotes a byte: its value modulo 256, which is what the
arithmetic of `UInt8` computes.
-/

namespace TileAsm.Literal

/-- The value of a digit in a base up to 16. -/
def digit? (base : Nat) (c : Char) : Option Nat :=
  let value :=
    if c.isDigit then some (c.toNat - '0'.toNat)
    else if 'a' ≤ c ∧ c ≤ 'f' then some (c.toNat - 'a'.toNat + 10)
    else if 'A' ≤ c ∧ c ≤ 'F' then some (c.toNat - 'A'.toNat + 10)
    else none
  value.filter (· < base)

/-- The base that a number is written in, and its digits. -/
def radix : List Char → Nat × List Char
  | '0' :: 'b' :: digits => (2, digits)
  | '0' :: 'x' :: digits => (16, digits)
  | digits => (10, digits)

/-- The byte that a row of digits denotes, the most significant one first. -/
def byteOfDigits (base : Nat) (digits : List Nat) : UInt8 :=
  digits.foldl (fun value d ↦ value * UInt8.ofNat base + UInt8.ofNat d) 0

/-- The byte that a text denotes. There is none if it has no digit, or has a character that is
no digit of its base. -/
def byte? (text : List Char) : Option UInt8 :=
  let (base, digits) := radix text
  if digits.isEmpty then none
  else (digits.mapM (digit? base)).map (byteOfDigits base)

/-- Reads a number. -/
def parse (text : List Char) : Except ParseError UInt8 :=
  match byte? text with
  | some b => .ok b
  | none => .error (.notNumber (String.ofList text))

end TileAsm.Literal
