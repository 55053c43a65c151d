import TileAsm.Instruction.Basic
import TileAsm.Operand.StringLiteral

/-!
# Reading instructions

A line of code is an optional label, written `:name`, and an optional instruction, which is a
mnemonic and its operands. The mnemonic decides the shape of the operands, and one reader per
shape follows. Where a line has two faults, the one that stands first in the text is reported,
but for two rules: the number of operands is checked before any of them, and the length of strings
last of all.
-/

namespace TileAsm

open Text

namespace Instruction

/-! ### One reader per shape -/

/-- Nothing may follow the mnemonic. -/
def parseBare (op : Opcode) (params : List Char) : Except ParseError Instruction :=
  if params.isEmpty then .ok (.bare op)
  else .error (.unexpectedOperands op (String.ofList params))

/-- One direct register. -/
def parseRegister (op : Opcode) (params : List Char) : Except ParseError Instruction := do
  let r ← RegisterRef.parse params
  if r.mode = .indirect then .error (.indirectRegister op (String.ofList params))
  else return .register op r

/-- One label. -/
def parseAddress (op : Opcode) (params : List Char) : Except ParseError Instruction :=
  return .address op (← LabelRef.parse params)

/-- The source of an instruction with two operands: an immediate value for `STOR`, a register
for every other. -/
def parseSource (op : Opcode) (text : List Char) : Except ParseError Source :=
  if op = .stor then Source.parseImmediate text else .register <$> RegisterRef.parse text

/-- A source and a destination. -/
def parsePair (op : Opcode) (params : List Char) : Except ParseError Instruction :=
  match words params with
  | [source, dest] => return .pair op (← parseSource op source) (← RegisterRef.parse dest)
  | ws => .error (.operandCount op 2 ws.length)

/-- The number of a tile, which is at most 63. -/
def parseTileId (text : List Char) : Except ParseError UInt8 := do
  let id ← Literal.parse text
  if id > 63 then .error (.tileOutOfRange (String.ofList text)) else return id

/-- A tile number and eight bytes. -/
def parseTile (params : List Char) : Except ParseError Instruction :=
  match words params with
  | [id, a, b, c, d, e, f, g, h] => do
    let id ← parseTileId id
    let rows := TileRows.ofBytes (← Literal.parse a) (← Literal.parse b) (← Literal.parse c)
      (← Literal.parse d) (← Literal.parse e) (← Literal.parse f) (← Literal.parse g)
      (← Literal.parse h)
    return .tile id rows
  | ws => .error (.operandCount .tile 9 ws.length)

/-- The register in front of the strings of an instruction, and the text of the strings. -/
def parsePosition (op : Opcode) (params : List Char) :
    Except ParseError (RegisterRef × List Char) :=
  if params.isEmpty then .error (.operandCount op 2 0)
  else
    let (name, rest) := cutToken params
    return (← RegisterRef.parse name, rest)

/-- Accepts strings of the given total length if they fit into one instruction. -/
def checkPayload (length : Nat) : Except ParseError Unit :=
  if length > maxPayload then .error (.stringTooLong length) else .ok ()

/-- A register and exactly one string. -/
def parseText (params : List Char) : Except ParseError Instruction := do
  let (position, rest) ← parsePosition .dtxt params
  let (bytes, tail) ← StringLiteral.parse rest
  if isBlankText tail then
    checkPayload bytes.length
    return .text position bytes
  else .error (.trailingText (String.ofList (trim tail)))

/-- A register and at least one string. A terminator of their own follows the options. -/
def parseSelector (params : List Char) : Except ParseError Instruction := do
  let (position, rest) ← parsePosition .dsel params
  let options ← StringLiteral.parseMany rest
  checkPayload (options.flatten.length + 1)
  return .selector position options

/-- Reads the operands of an instruction. -/
def parseOperands (op : Opcode) (params : List Char) : Except ParseError Instruction :=
  match op.shape with
  | .bare => parseBare op params
  | .register => parseRegister op params
  | .address => parseAddress op params
  | .pair => parsePair op params
  | .tile => parseTile params
  | .text => parseText params
  | .selector => parseSelector params

/-- Reads a mnemonic and its operands. -/
def parse (text : List Char) : Except ParseError Instruction :=
  let (word, params) := cutToken text
  match Opcode.ofMnemonic? word with
  | none => .error (.unknownInstruction (String.ofList text))
  | some op => parseOperands op params

end Instruction

/-! ### Lines -/

/-- What one line of code gives. A label stays even if the instruction after it is rejected, so
there may be an error beside an instruction. -/
structure ParsedLine where
  /-- The label, if there is one, and the instruction, if there is one. -/
  instructions : List Instruction := []
  /-- Why something on the line was rejected. -/
  error? : Option ParseError := none
  deriving DecidableEq, Repr, Inhabited

namespace ParsedLine

/-- The line that holds one instruction, or is rejected. -/
def ofInstruction : Except ParseError Instruction → ParsedLine
  | .ok i => { instructions := [i] }
  | .error e => { error? := some e }

/-- Reads a line of code. A label on it is documented by the given comment lines. -/
def parse (text : List Char) (doc : List String) : ParsedLine :=
  match cutToken text with
  | (':' :: name, params) =>
    if Name.isLabel name then
      let after : ParsedLine :=
        if params.isEmpty then {} else ofInstruction (Instruction.parse params)
      { after with instructions := .label (String.ofList name) doc :: after.instructions }
    else { error? := some (.notLabel (String.ofList name)) }
  | _ => ofInstruction (Instruction.parse text)

end ParsedLine

end TileAsm
