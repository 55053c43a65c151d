import TileAsm.Program

/-!
# Numbering registers

There are 128 register numbers. The accumulator, the carry registers and the storage registers
have fixed ones; every other name that a program mentions is a **user register** and takes the next
free number, in the order in which the names first appear. A table therefore only keeps the names
of the user registers: their numbers are their places.
-/

namespace TileAsm

/-- The registers with fixed numbers: accumulator, carry and storage. -/
def fixedRegisters : List (String × UInt8) :=
  [("r0", 0), ("rc0", 1), ("rc1", 2), ("rc2", 3), ("rc3", 4),
    ("rs0", 112), ("rs1", 113), ("rs2", 114), ("rs3", 115), ("rs4", 116), ("rs5", 117),
    ("rs6", 118), ("rs7", 119), ("rs8", 120), ("rs9", 121), ("rs10", 122), ("rs11", 123),
    ("rs12", 124), ("rs13", 125), ("rs14", 126), ("rs15", 127)]

/-- The number of a fixed register. -/
def fixedNumber? (name : String) : Option UInt8 := fixedRegisters.lookup name

/-- The number of the first user register. -/
def firstUserNumber : Nat := 5

/-- The registers of one program. -/
structure RegisterTable where
  /-- The names of the user registers, in the order of their numbers. -/
  user : List String := []
  deriving DecidableEq, Repr, Inhabited

namespace RegisterTable

/-- The user registers with their numbers. -/
def userEntries (t : RegisterTable) : List (String × UInt8) :=
  (t.user.zipIdx firstUserNumber).map fun (name, number) ↦ (name, UInt8.ofNat number)

/-- All registers with their numbers, the fixed ones first. -/
def entries (t : RegisterTable) : List (String × UInt8) := fixedRegisters ++ t.userEntries

/-- The number of a register. -/
def get? (t : RegisterTable) (name : String) : Option UInt8 :=
  fixedNumber? name <|> t.userEntries.lookup name

end RegisterTable

namespace Program

/-- The user registers that a program mentions, each once, in the order of their first mention. -/
def userRegisters (p : Program) : List String :=
  ((p.registers.map (·.name)).filter fun name ↦ (fixedNumber? name).isNone).eraseDups

/-- Numbers the registers of a program. -/
def allocate (p : Program) : Except AsmError RegisterTable :=
  let user := p.userRegisters
  if user.length > registerCapacity then .error (.tooManyRegisters user.length) else .ok { user }

/-- Binds all register operands of a program. If there are too many registers only the operands
that name fixed ones are bound. -/
def resolveRegisters (p : Program) : Except AsmError RegisterTable × Program :=
  let p := p.bindRegisters fixedNumber?
  match p.allocate with
  | .error e => (.error e, p)
  | .ok table => (.ok table, p.bindRegisters table.get?)

end Program

end TileAsm
