import TileAsm.Instruction.Basic

/-!
# Writing images

The instructions of a program are written one after the other to the end of one image. An
instruction looks up all its operands before it writes its first byte, so one that fails leaves the
image as it found it.
-/

namespace TileAsm

/-- A step that writes to an image. If it fails, the image is still there as the step left it. -/
abbrev ImageWriter := ExceptT AsmError (StateM (Array UInt8))

namespace ImageWriter

/-- Writes bytes to the end of the image. -/
def append (bytes : List UInt8) : ImageWriter Unit :=
  modify fun image : Array UInt8 ↦ image ++ bytes

/-- The image after a step that goes well. -/
def result (step : ImageWriter Unit) (image : Array UInt8) : Except AsmError (List UInt8) :=
  let (outcome, image) := step.run.run image
  outcome.map fun _ ↦ image.toList

end ImageWriter

open ImageWriter in
/-- Writes the bytes of an instruction. The first operand without a value is reported. -/
def Instruction.write : Instruction → ImageWriter Unit
  | label _ _ => return
  | bare op => append [op.code]
  | register op r => do append [op.code, ← r.resolved]
  | address op t => do append (op.code :: Address.toBytes (← t.resolved))
  | pair op source dest => do append [op.code, ← source.resolved, ← dest.resolved]
  | tile id rows => do
    append [Opcode.tile.code, id]
    append rows.toList
  | text r bytes => do
    append [Opcode.dtxt.code, ← r.resolved]
    append bytes
  | selector r options => do
    append [Opcode.dsel.code, ← r.resolved]
    options.forM append
    append [0]

end TileAsm
