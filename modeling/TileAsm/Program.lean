import TileAsm.Instruction.Writer

/-!
# Programs

A program is a list of instructions, which are written one after the other into its image. There is
no image while an operand is unbound; the first such operand in the order of the image is reported.
-/

namespace TileAsm

/-- The instructions of a source, in its order. -/
abbrev Program := List Instruction

namespace Program

/-- The number of bytes of the image. -/
def size (p : Program) : Nat := p.foldr (fun i n ↦ i.size + n) 0

/-- Writes the instructions of a program. -/
def write (p : Program) : ImageWriter Unit := p.forM Instruction.write

/-- The image of a program whose operands are all bound. -/
def emit (p : Program) : Except AsmError (List UInt8) := p.write.result #[]

/-- The register operands, in the order of the image. -/
def registers (p : Program) : List RegisterRef := p.flatMap Instruction.registers

/-- Binds each register operand whose name is given a number. -/
def bindRegisters (p : Program) (number? : String → Option UInt8) : Program :=
  p.map (·.bindRegisters number?)

/-- Binds each label operand whose name is given an offset. -/
def bindLabels (p : Program) (offset? : String → Option UInt16) : Program :=
  p.map (·.bindTarget offset?)

@[simp] theorem size_nil : size [] = 0 := rfl

@[simp] theorem size_cons (i : Instruction) (p : Program) : size (i :: p) = i.size + size p := rfl

@[simp] theorem size_append (p q : Program) : size (p ++ q) = size p + size q := by
  induction p with
  | nil => simp
  | cons i p ih => simp [ih, Nat.add_assoc]

end Program

end TileAsm
