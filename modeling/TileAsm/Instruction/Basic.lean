import TileAsm.Address
import TileAsm.Operand.Reference
import TileAsm.Tile

/-!
# Instructions

An instruction as it stands in a program: a label, or an opcode with operands of one of the seven
shapes. The type does not tie an opcode to its shape, so that a program can be put together from
any instructions; what the parser builds always agrees with the instruction table.

Every operation on the operands goes through `registers` and `target?`, which list them, and
`mapRegisters` and `mapTarget`, which replace them. Operands are bound by their names, one name
after the other. `encode` fails on the first operand that is unbound, and its result has `size`
bytes whatever the operands are bound to.
-/

namespace TileAsm

/-- One instruction of a program. -/
inductive Instruction where
  /-- A name for the place of the next instruction, with the comment lines that document it. It
  takes no room in the image. -/
  | label (name : String) (doc : List String)
  /-- An instruction without operands. -/
  | bare (op : Opcode)
  /-- An instruction on one register. -/
  | register (op : Opcode) (operand : RegisterRef)
  /-- A jump or a call. -/
  | address (op : Opcode) (target : LabelRef)
  /-- An instruction with a source and a destination. -/
  | pair (op : Opcode) (source : Source) (dest : RegisterRef)
  /-- The definition of a tile by eight bytes. -/
  | tile (id : UInt8) (rows : TileRows)
  /-- The drawing of a text; `bytes` includes the terminator. -/
  | text (position : RegisterRef) (bytes : List UInt8)
  /-- The drawing of a choice; each option includes its terminator. -/
  | selector (position : RegisterRef) (options : List (List UInt8))
  deriving DecidableEq, Repr, Inhabited

namespace Instruction

/-- The opcode of an instruction. A label has none. -/
def opcode? : Instruction → Option Opcode
  | label _ _ => none
  | bare op => some op
  | register op _ => some op
  | address op _ => some op
  | pair op _ _ => some op
  | tile _ _ => some .tile
  | text _ _ => some .dtxt
  | selector _ _ => some .dsel

/-- The number of bytes that an instruction takes in the image. -/
def size : Instruction → Nat
  | label _ _ => 0
  | bare _ => 1
  | register _ _ => 2
  | address _ _ => 3
  | pair _ _ _ => 3
  | tile _ _ => 10
  | text _ bytes => 2 + bytes.length
  | selector _ options => 2 + options.flatten.length + 1

/-- Whether an instruction is a label. -/
def isLabel : Instruction → Bool
  | label _ _ => true
  | _ => false

/-! ### Operands -/

/-- The register operands in the order in which they are encoded. -/
def registers : Instruction → List RegisterRef
  | register _ r => [r]
  | pair _ source dest => source.register?.toList ++ [dest]
  | text r _ => [r]
  | selector r _ => [r]
  | _ => []

/-- The label operand. -/
def target? : Instruction → Option LabelRef
  | address _ t => some t
  | _ => none

/-- Applies a function to every register operand. -/
def mapRegisters (f : RegisterRef → RegisterRef) : Instruction → Instruction
  | register op r => register op (f r)
  | pair op source dest => pair op (source.mapRegister f) (f dest)
  | text r bytes => text (f r) bytes
  | selector r options => selector (f r) options
  | i => i

/-- Applies a function to the label operand. -/
def mapTarget (f : LabelRef → LabelRef) : Instruction → Instruction
  | address op t => address op (f t)
  | i => i

/-- Whether an operand names the given register. -/
def mentionsRegister (i : Instruction) (name : String) : Bool :=
  i.registers.any fun r ↦ r.name == name

/-- Whether the instruction jumps to the given label. -/
def targets (i : Instruction) (label : String) : Bool :=
  i.target?.any fun t ↦ t.label == label

/-- Binds every operand that names the given register, and tells whether there is one. -/
def bindRegister (i : Instruction) (name : String) (number : UInt8) : Bool × Instruction :=
  (i.mentionsRegister name, i.mapRegisters fun r ↦ r.bind name number)

/-- Binds the label operand if it names the given label, and tells whether it does. -/
def bindLabel (i : Instruction) (label : String) (offset : UInt16) : Bool × Instruction :=
  (i.targets label, i.mapTarget fun t ↦ t.bind label offset)

/-- Binds the operands with one name, if it is given a number. -/
def bindNamed (number? : String → Option UInt8) (i : Instruction) (name : String) : Instruction :=
  match number? name with
  | some number => (i.bindRegister name number).2
  | none => i

/-- Goes through the names of the register operands and binds those that are given a number. -/
def bindRegisters (i : Instruction) (number? : String → Option UInt8) : Instruction :=
  (i.registers.map (·.name)).foldl (bindNamed number?) i

/-- Binds the label operand if its name is given an offset. -/
def bindTarget (i : Instruction) (offset? : String → Option UInt16) : Instruction :=
  match i.target? with
  | none => i
  | some t =>
    match offset? t.label with
    | some offset => (i.bindLabel t.label offset).2
    | none => i

/-- Whether every operand is bound. -/
def isResolved (i : Instruction) : Bool :=
  i.target?.all LabelRef.isResolved && i.registers.all RegisterRef.isResolved

/-! ### Encoding -/

/-- The bytes of an instruction. The first operand without a value is reported. -/
def encode : Instruction → Except AsmError (List UInt8)
  | label _ _ => return []
  | bare op => return [op.code]
  | register op r => return [op.code, ← r.resolved]
  | address op t => return op.code :: Address.toBytes (← t.resolved)
  | pair op source dest => return [op.code, ← source.resolved, ← dest.resolved]
  | tile id rows => return Opcode.tile.code :: id :: rows.toList
  | text r bytes => return Opcode.dtxt.code :: (← r.resolved) :: bytes
  | selector r options => return Opcode.dsel.code :: (← r.resolved) :: (options.flatten ++ [0])

/-! ### What replacing operands keeps -/

@[simp] theorem size_mapRegisters (f : RegisterRef → RegisterRef) (i : Instruction) :
    (i.mapRegisters f).size = i.size := by
  cases i <;> rfl

@[simp] theorem size_mapTarget (f : LabelRef → LabelRef) (i : Instruction) :
    (i.mapTarget f).size = i.size := by
  cases i <;> rfl

@[simp] theorem target?_mapRegisters (f : RegisterRef → RegisterRef) (i : Instruction) :
    (i.mapRegisters f).target? = i.target? := by
  cases i <;> rfl

@[simp] theorem registers_mapTarget (f : LabelRef → LabelRef) (i : Instruction) :
    (i.mapTarget f).registers = i.registers := by
  cases i <;> rfl

@[simp] theorem registers_mapRegisters (f : RegisterRef → RegisterRef) (i : Instruction) :
    (i.mapRegisters f).registers = i.registers.map f := by
  cases i with
  | pair op source dest => cases source <;> rfl
  | _ => rfl

@[simp] theorem target?_mapTarget (f : LabelRef → LabelRef) (i : Instruction) :
    (i.mapTarget f).target? = i.target?.map f := by
  cases i <;> rfl

end Instruction

end TileAsm
