import TileAsm.Compilation
import TileAsm.Labels
import TileAsm.Registers

/-!
# Assembly

Assembling a program numbers its registers, lays out its labels and emits the image; the first
step that fails decides the error. Assembling a source stops before these steps if a line was
rejected, unless it is to go on with the lines that were accepted.
-/

namespace TileAsm

/-- An assembled program. -/
structure Assembly where
  /-- The numbers of its registers. -/
  registers : RegisterTable
  /-- The offsets of its labels. -/
  labels : LabelTable
  /-- The program with all operands bound. -/
  program : Program
  /-- Its image. -/
  image : List UInt8

/-- Assembles a program. -/
def Program.assemble (p : Program) : Except AsmError Assembly := do
  let (table, p) := p.resolveRegisters
  let registers ← table
  let (table, p) := p.resolveLabels
  let labels ← table
  let image ← p.emit
  return { registers, labels, program := p, image }

/-- The program of a source that is to be assembled. -/
def Compilation.selected (c : Compilation) (keepGoing : Bool) : Except AsmError Program :=
  if keepGoing then .ok c.program else c.accepted

/-- The image of a source. -/
def assemble (source : String) (keepGoing : Bool) : Except AsmError (List UInt8) := do
  let program ← (compile source).selected keepGoing
  let assembly ← program.assemble
  return assembly.image

end TileAsm
