import TileAsm.Assembly
import TileAsm.Listing
import TileAsm.Outline
import TileAsm.Report.Json

/-!
# The reports of the command lines

Each report has a form to read, one item per line, and a JSON form. The labels of a program are
listed by their offsets, and by their names where offsets are equal.
-/

namespace TileAsm.Report

open Text

/-- The form of a report. -/
inductive Format where
  /-- Lines to read. -/
  | text
  /-- JSON. -/
  | json
  deriving DecidableEq, Repr, Inhabited

/-- The form with the given name. -/
def Format.ofName? (name : String) : Option Format :=
  if name = "text" then some .text else if name = "json" then some .json else none

/-- A report on a list of things, given the lines and the record of each of them. -/
def render {α : Type} (format : Format) (line : α → String) (record : α → Record)
    (items : List α) : String :=
  match format with
  | .text => String.join (items.map line)
  | .json => Report.json (items.map record)

/-! ### The instruction set -/

/-- One line of the instruction reference. -/
def opcodeLine (op : Opcode) : String :=
  hexByte op.code ++ "  " ++ padEnd 40 op.usage ++ " " ++ op.summary ++ "\n"

/-- One record of the instruction reference. -/
def opcodeRecord (op : Opcode) : Record :=
  [("op", .string op.name), ("mnemonic", .string op.mnemonic), ("shape", .string op.shape.name),
    ("syntax", .string op.usage), ("summary", .string op.summary)]

/-- The instruction reference. -/
def instructionSet (format : Format) : String :=
  render format opcodeLine opcodeRecord Opcode.all

/-! ### Labels -/

/-- A label as it is reported. -/
structure LabelEntry where
  /-- The name. -/
  name : String
  /-- The offset that it stands for. -/
  offset : UInt16
  /-- Its documentation. -/
  doc : String
  deriving DecidableEq, Repr, Inhabited

/-- The labels of a program, by offset and then by name. -/
def labelEntries (labels : LabelTable) (program : Program) : List LabelEntry :=
  let docs := program.labelDocs
  let byName := labels.toList.map fun (name, offset) ↦
    { name, offset, doc := docs.getD name "" : LabelEntry }
  byName.mergeSort fun a b ↦ a.offset ≤ b.offset

/-- A label with the lines of its documentation under it. -/
def labelLine (l : LabelEntry) : String :=
  let doc := (lines l.doc.toList).map fun line ↦ "         ; " ++ String.ofList line ++ "\n"
  hex 4 l.offset.toNat ++ " " ++ l.name ++ "\n" ++ String.join doc

/-- The record of a label. -/
def labelRecord (l : LabelEntry) : Record :=
  [("name", .string l.name), ("offset", .number l.offset.toNat), ("doc", .string l.doc)]

/-- The labels of an assembled program. -/
def labels (format : Format) (a : Assembly) : String :=
  render format labelLine labelRecord (labelEntries a.labels a.program)

/-! ### Registers -/

/-- A register behind its number. -/
def registerLine (entry : String × UInt8) : String :=
  padStart 3 (toString entry.2.toNat) ++ " " ++ entry.1 ++ "\n"

/-- The record of a register. -/
def registerRecord (entry : String × UInt8) : Record :=
  [("name", .string entry.1), ("number", .number entry.2.toNat)]

/-- The registers of an assembled program, the fixed ones first. -/
def registers (format : Format) (a : Assembly) : String :=
  render format registerLine registerRecord a.registers.entries

/-! ### Listings -/

/-- The record of a line of a listing. -/
def listingRecord (line : ListingLine) : Record :=
  [("offset", .number line.offset), ("bytes", .numbers (line.bytes.map UInt8.toNat)),
    ("text", .string line.text)]

/-- The listing of an image. The JSON form always has the bytes. -/
def listing (format : Format) (showBytes : Bool) (img : Image) : String :=
  render format (ListingLine.render showBytes) listingRecord img.listing

end TileAsm.Report
