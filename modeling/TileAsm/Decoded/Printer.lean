import TileAsm.Decoded.Basic
import TileAsm.Text.Quoted

/-!
# The text of a decoded instruction

An instruction is printed as it would be written, with registers named by their numbers and
addresses in place of labels.
-/

namespace TileAsm

open Text

/-- The register that a byte stands for. The high bit marks an indirect one. -/
def registerText (b : UInt8) : String :=
  if b < 0x80 then "r" ++ toString b.toNat else "*r" ++ toString (b.toNat - 0x80)

/-- The operands as text. The source of `STOR` is a number, that of every other instruction a
register. -/
def Operands.words (op : Opcode) : Operands → List String
  | bare => []
  | register r => [registerText r]
  | address a => [hex 4 a.toNat]
  | pair source dest =>
    [if op = .stor then hexByte source else registerText source, registerText dest]
  | tile id rows => toString id.toNat :: rows.toList.map hexByte
  | text r chars => [registerText r, Quoted.write chars]
  | selector r options => [registerText r, " ".intercalate (options.map Quoted.write)]

/-- The instruction as text, its parts separated by spaces. -/
def Decoded.render (d : Decoded) : String :=
  " ".intercalate (d.op.mnemonic :: d.operands.words d.op)

end TileAsm
