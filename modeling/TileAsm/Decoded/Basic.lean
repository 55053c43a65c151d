import TileAsm.Address
import TileAsm.Opcode
import TileAsm.Tile

/-!
# Decoding images

The first byte of an encoded instruction decides the shape of its operands, and these decide how
many bytes it takes: strings end at their terminators, and a selector ends at an empty option. A
byte that is no opcode starts no instruction, and neither does an opcode whose operands are cut off
by the end of the image.
-/

namespace TileAsm

/-- The operands of an encoded instruction. Strings are given without their terminators. -/
inductive Operands where
  /-- No operands. -/
  | bare
  /-- The byte of a register. -/
  | register (register : UInt8)
  /-- An address. -/
  | address (target : UInt16)
  /-- The bytes of a source and a destination. -/
  | pair (source dest : UInt8)
  /-- A tile number and eight bytes. -/
  | tile (id : UInt8) (rows : TileRows)
  /-- The byte of a register and a string. -/
  | text (position : UInt8) (chars : List UInt8)
  /-- The byte of a register and the strings to choose from. -/
  | selector (position : UInt8) (options : List (List UInt8))
  deriving DecidableEq, Repr, Inhabited

/-- The number of bytes that operands take. -/
def Operands.width : Operands → Nat
  | bare => 0
  | register _ => 1
  | address _ => 2
  | pair _ _ => 2
  | tile _ _ => 9
  | text _ chars => 1 + (chars.length + 1)
  | selector _ options => 1 + (options.flatten.length + options.length) + 1

/-- A decoded instruction. -/
structure Decoded where
  /-- The opcode. -/
  op : Opcode
  /-- The operands. -/
  operands : Operands
  deriving DecidableEq, Repr, Inhabited

/-- The number of bytes that the instruction takes, opcode included. -/
def Decoded.width (d : Decoded) : Nat := 1 + d.operands.width

theorem Decoded.width_pos (d : Decoded) : 0 < d.width := by
  unfold width
  omega

namespace Operands

/-! ### Strings -/

/-- The bytes before the first zero, and those after it. -/
def cutString? (code : List UInt8) : Option (List UInt8 × List UInt8) :=
  match code.dropWhile (· != 0) with
  | [] => none
  | _ :: rest => some (code.takeWhile (· != 0), rest)

theorem length_cutString?_lt {code chars rest : List UInt8}
    (h : cutString? code = some (chars, rest)) : rest.length < code.length := by
  unfold cutString? at h
  split at h
  · cases h
  · rename_i heq
    cases h
    have := (List.dropWhile_sublist (· != 0) (l := code)).length_le
    rw [heq, List.length_cons] at this
    omega

/-- The strings up to the first empty one. -/
def strings? (code : List UInt8) : Option (List (List UInt8)) :=
  match _h : cutString? code with
  | none => none
  | some (chars, rest) => if chars.isEmpty then some [] else (strings? rest).map (chars :: ·)
termination_by code.length
decreasing_by exact length_cutString?_lt _h

/-- One step of reading strings. -/
theorem strings?_eq_bind (code : List UInt8) :
    strings? code = (cutString? code).bind fun (chars, rest) ↦
      if chars.isEmpty then some [] else (strings? rest).map (chars :: ·) := by
  rw [strings?]
  split <;> rename_i h <;> rw [h] <;> rfl

/-! ### Operands -/

/-- The operands of the given shape that stand in front of a row of bytes. -/
def ofBytes? : Shape → List UInt8 → Option Operands
  | .bare, _ => some .bare
  | .register, r :: _ => some (.register r)
  | .address, high :: low :: _ => some (.address (Address.ofBytes high low))
  | .pair, source :: dest :: _ => some (.pair source dest)
  | .tile, id :: a :: b :: c :: d :: e :: f :: g :: h :: _ =>
    some (.tile id (.ofBytes a b c d e f g h))
  | .text, r :: rest => (cutString? rest).map fun (chars, _) ↦ .text r chars
  | .selector, r :: rest => (strings? rest).map fun options ↦ .selector r options
  | _, _ => none

end Operands

/-- The instruction that a row of bytes starts with. -/
def Decoded.ofBytes? : List UInt8 → Option Decoded
  | [] => none
  | b :: rest => do
    let op ← Opcode.ofByte? b
    let operands ← Operands.ofBytes? op.shape rest
    return { op, operands }

end TileAsm
