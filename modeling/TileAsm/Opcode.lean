/-!
# The instruction set

The console knows 27 instructions. Their bytes are `0x00` to `0x1A`, and `Opcode.all` lists them
in the order of their bytes. All that is fixed about an instruction, its byte, the mnemonic that
the source names it by, the shape of its operands and the two texts of the reference, stands in
one table, `Opcode.entry`; the functions after it read single columns.
-/

namespace TileAsm

/-- The operands that an instruction takes. -/
inductive Shape where
  /-- None. -/
  | bare
  /-- One register. -/
  | register
  /-- One label, encoded as a 16-bit address. -/
  | address
  /-- A source and a destination. -/
  | pair
  /-- A tile number and the eight bytes of its picture. -/
  | tile
  /-- A register and one string. -/
  | text
  /-- A register and one or more strings. -/
  | selector
  deriving DecidableEq, Repr, Inhabited

/-- The name of a shape in the printed reference. -/
def Shape.name : Shape → String
  | .bare => "Zero"
  | .register => "OneRegister"
  | .address => "OneAddress"
  | .pair => "Two"
  | .tile => "Tile"
  | .text => "Text"
  | .selector => "Selector"

/-- The instructions, each named by its mnemonic. -/
inductive Opcode where
  | nope | exit | wkey | gkey | tick | save | load | tile | stor
  | move | addi | subi | muli | divi | modi | invi | jump | jpez
  | jpgz | jplz | call | retn | dtil | dnum | dtxt | dsel | rand
  deriving DecidableEq, Repr, Inhabited

namespace Opcode

/-- The instructions in the order of their bytes. -/
def all : List Opcode :=
  [.nope, .exit, .wkey, .gkey, .tick, .save, .load, .tile, .stor, .move, .addi, .subi, .muli,
    .divi, .modi, .invi, .jump, .jpez, .jpgz, .jplz, .call, .retn, .dtil, .dnum, .dtxt, .dsel,
    .rand]

/-- What is fixed about one instruction. -/
structure Entry where
  /-- The byte that an encoded instruction starts with. -/
  code : UInt8
  /-- The word that names the instruction in a source, in capitals. -/
  mnemonic : String
  /-- The operands that it takes. -/
  shape : Shape
  /-- How it is written, for the reference. -/
  usage : String
  /-- What it does, for the reference. -/
  summary : String

/-- The instruction table. -/
def entry : Opcode → Entry
  | .nope => ⟨0x00, "NOPE", .bare, "NOPE",
    "Do nothing. Some runtimes use this as a debug instruction."⟩
  | .exit => ⟨0x01, "EXIT", .bare, "EXIT", "Exit the program."⟩
  | .wkey => ⟨0x02, "WKEY", .bare, "WKEY", "Wait for a key change; the key event is stored in r0."⟩
  | .gkey => ⟨0x03, "GKEY", .bare, "GKEY", "Get the key event into r0."⟩
  | .tick => ⟨0x04, "TICK", .bare, "TICK", "Store the clock tick in milliseconds into r0."⟩
  | .save => ⟨0x05, "SAVE", .bare, "SAVE", "Save rs0..rs15 (16 bytes) to disk."⟩
  | .load => ⟨0x06, "LOAD", .bare, "LOAD", "Load rs0..rs15 (16 bytes) from disk."⟩
  | .tile => ⟨0x07, "TILE", .tile, "TILE id d0 d1 d2 d3 d4 d5 d6 d7",
    "Define the tile data; id in range [0, 63]."⟩
  | .stor => ⟨0x08, "STOR", .pair, "STOR num reg",
    "Store the number (or &reg, the register's own index) into reg."⟩
  | .move => ⟨0x09, "MOVE", .pair, "MOVE reg1 reg2", "Copy the value of reg1 into reg2."⟩
  | .addi => ⟨0x0A, "ADDI", .register, "ADDI reg", "r0 = r0 + reg"⟩
  | .subi => ⟨0x0B, "SUBI", .register, "SUBI reg", "r0 = r0 - reg"⟩
  | .muli => ⟨0x0C, "MULI", .register, "MULI reg", "r0 = r0 * reg"⟩
  | .divi => ⟨0x0D, "DIVI", .register, "DIVI reg", "r0 = r0 / reg"⟩
  | .modi => ⟨0x0E, "MODI", .register, "MODI reg", "r0 = r0 % reg"⟩
  | .invi => ⟨0x0F, "INVI", .bare, "INVI", "r0 = ~r0"⟩
  | .jump => ⟨0x10, "JUMP", .address, "JUMP loc", "Jump to loc."⟩
  | .jpez => ⟨0x11, "JPEZ", .address, "JPEZ loc", "Jump to loc if r0 == 0."⟩
  | .jpgz => ⟨0x12, "JPGZ", .address, "JPGZ loc", "Jump to loc if r0 > 0 and r0 < 128."⟩
  | .jplz => ⟨0x13, "JPLZ", .address, "JPLZ loc", "Jump to loc if r0 >= 128."⟩
  | .call => ⟨0x14, "CALL", .address, "CALL loc", "Push the return location and jump to loc."⟩
  | .retn => ⟨0x15, "RETN", .bare, "RETN", "Return to the last CALL location."⟩
  | .dtil => ⟨0x16, "DTIL", .pair, "DTIL reg1 reg2",
    "Draw the tile with id reg2 at position reg1; both in [0, 63]."⟩
  | .dnum => ⟨0x17, "DNUM", .pair, "DNUM reg1 reg2",
    "Draw the number in reg2 at position reg1 in [0, 63]."⟩
  | .dtxt => ⟨0x18, "DTXT", .text, "DTXT reg \"text...\"",
    "Draw ASCII text at position reg in [0, 63]."⟩
  | .dsel => ⟨0x19, "DSEL", .selector, "DSEL reg \"option1\" \"option2\" ...",
    "Draw a selector at the row of position reg and store the choice in r0."⟩
  | .rand => ⟨0x1A, "RAND", .bare, "RAND", "Generate a random number seeded by r0 into r0."⟩

/-- The byte of an instruction. -/
def code (op : Opcode) : UInt8 := op.entry.code

/-- The mnemonic of an instruction, in capitals. -/
def mnemonic (op : Opcode) : String := op.entry.mnemonic

/-- The shape of an instruction's operands. -/
def shape (op : Opcode) : Shape := op.entry.shape

/-- How an instruction is written. -/
def usage (op : Opcode) : String := op.entry.usage

/-- What an instruction does. -/
def summary (op : Opcode) : String := op.entry.summary

/-- The name of an instruction in the printed reference: its mnemonic with only the first letter
a capital. -/
def name (op : Opcode) : String := op.mnemonic.toLower.capitalize

/-! ### Look-up -/

/-- The instruction with the given byte, if there is one. -/
def ofByte? (b : UInt8) : Option Opcode := all.find? fun op ↦ op.code == b

/-- The instruction that a word names. The case of ASCII letters does not matter, and no other
letter stands for one of them. -/
def ofMnemonic? (word : List Char) : Option Opcode :=
  let capitals := String.ofList (word.map Char.toUpper)
  all.find? fun op ↦ op.mnemonic == capitals

theorem mem_all (op : Opcode) : op ∈ all := by
  cases op <;> decide

@[simp] theorem ofByte?_code (op : Opcode) : ofByte? op.code = some op := by
  cases op <;> rfl

theorem code_of_ofByte? {b : UInt8} {op : Opcode} (h : ofByte? b = some op) : op.code = b := by
  simpa using List.find?_some h

end Opcode

end TileAsm
