import TileAsm.Opcode

/-!
# What can go wrong

A `ParseError` is confined to one line of the source: the line gives no instruction, and the
lines after it are still read. An `AsmError` stops the whole program. Both name their cause; the
wording stands in one `message` function each.
-/

namespace TileAsm

/-- The most bytes that the strings of one instruction may take, terminators included. -/
def maxPayload : Nat := 128

/-- The most user registers that a program can have: 128 numbers, of which the accumulator, four
carry and sixteen storage registers take 21. -/
def registerCapacity : Nat := 107

/-- The last offset that a 16-bit address can hold. -/
def maxOffset : Nat := 0xFFFF

/-- Why a line was rejected. A text carried here is the one that is quoted in the message. -/
inductive ParseError where
  /-- A label was expected. -/
  | notLabel (text : String)
  /-- A register was expected. -/
  | notRegister (text : String)
  /-- A number was expected. -/
  | notNumber (text : String)
  /-- A quoted string was expected, or one has no end. -/
  | notString (text : String)
  /-- A string holds a character that is not printable ASCII. -/
  | notAscii (text : String)
  /-- The strings of one instruction take more than `maxPayload` bytes. -/
  | stringTooLong (length : Nat)
  /-- An instruction got the wrong number of operands. -/
  | operandCount (op : Opcode) (expected found : Nat)
  /-- An instruction without operands got some. -/
  | unexpectedOperands (op : Opcode) (text : String)
  /-- Something follows the string of an instruction that takes one. -/
  | trailingText (text : String)
  /-- An instruction that works on a register itself got an indirect one. -/
  | indirectRegister (op : Opcode) (text : String)
  /-- A tile number above 63. -/
  | tileOutOfRange (text : String)
  /-- The first word of the line is no mnemonic. -/
  | unknownInstruction (text : String)
  deriving DecidableEq, Repr, Inhabited

/-- The wording of a rejection. -/
def ParseError.message : ParseError → String
  | .notLabel text => s!"'{text}' is not a label."
  | .notRegister text => s!"'{text}' is not a register."
  | .notNumber text => s!"'{text}' is not a number."
  | .notString text => s!"'{text}' is not a string."
  | .notAscii text => s!"'{text}' is not ascii encoded string."
  | .stringTooLong length => s!"String is too large ({length} bytes, at most {maxPayload})."
  | .operandCount op expected found =>
    s!"'{op.mnemonic}' requires {expected} parameters, found {found}."
  | .unexpectedOperands op text => s!"'{op.mnemonic}' takes no parameters, found '{text}'."
  | .trailingText text => s!"Unexpected '{text}' after string."
  | .indirectRegister op text =>
    s!"'{op.mnemonic}' cannot take the indirect register '{text}'."
  | .tileOutOfRange text => s!"{text} out of range [0, 63]."
  | .unknownInstruction text => s!"Unknown instruction: {text}"

/-- A rejected line. -/
structure LineError where
  /-- The number of the line, counted from 0. -/
  line : Nat
  /-- Why it was rejected. -/
  error : ParseError
  deriving DecidableEq, Repr, Inhabited

/-- The number of the line as users count, from 1. -/
def LineError.reportedLine (e : LineError) : Nat := e.line + 1

/-- The wording of a rejected line. -/
def LineError.message (e : LineError) : String :=
  s!"> Line {e.reportedLine}: {e.error.message}"

/-- Why a program has no image. -/
inductive AsmError where
  /-- Some lines were rejected, and the assembly was not to go on without them. -/
  | rejectedLines (errors : List LineError)
  /-- More user registers than there is room for. -/
  | tooManyRegisters (count : Nat)
  /-- The program reaches an offset beyond the address space. -/
  | programTooLarge (size : Nat)
  /-- An operand is bound to no value. It is named as it is written. -/
  | unresolved (name : String)
  deriving DecidableEq, Repr, Inhabited

/-- The wording of a failed assembly. -/
def AsmError.message : AsmError → String
  | .rejectedLines errors => s!"{errors.length} compile error(s)"
  | .tooManyRegisters count =>
    s!"Too many registers: {count} user registers, capacity is {registerCapacity}."
  | .programTooLarge size =>
    s!"Too many instructions: program reaches {size} bytes, the address space ends at 0xFFFF."
  | .unresolved name => s!"Could not resolve '{name}'"

end TileAsm
