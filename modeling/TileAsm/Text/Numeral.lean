/-!
# Numbers as text

Addresses and bytes are printed in lower-case hexadecimal with a least number of digits, and
table columns are padded with spaces. A number that needs more room takes it: nothing is ever cut
off.
-/

namespace TileAsm.Text

/-- The lower-case hexadecimal digits of a number, filled up with zeros to at least `width`. -/
def hexDigits (width n : Nat) : List Char := (Nat.toDigits 16 n).leftpad width '0'

/-- A number in hexadecimal behind `0x`, with at least `width` digits. -/
def hex (width n : Nat) : String := "0x" ++ String.ofList (hexDigits width n)

/-- A byte in hexadecimal behind `0x`. -/
def hexByte (b : UInt8) : String := hex 2 b.toNat

/-- A text filled up with spaces on the right to at least `width` characters. -/
def padEnd (width : Nat) (s : String) : String := String.ofList (s.toList.rightpad width ' ')

/-- A text filled up with spaces on the left to at least `width` characters. -/
def padStart (width : Nat) (s : String) : String := String.ofList (s.toList.leftpad width ' ')

end TileAsm.Text
