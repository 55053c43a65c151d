import Std.Data.TreeMap
import TileAsm.Program

/-!
# Laying out labels

The instructions of a program follow each other from offset 0, and a label stands for the offset
of whatever follows it. A name that is declared more than once stands for its last place. Offsets
must fit into an address, also the one behind the last instruction.
-/

namespace TileAsm

/-- The offsets of the labels of one program, in the order of the names. -/
abbrev LabelTable := Std.TreeMap String UInt16

/-- Notes the offset of an instruction if that is a label. -/
def LabelTable.record (table : LabelTable) (offset : Nat) : Instruction → LabelTable
  | .label name _ => table.insert name (UInt16.ofNat offset)
  | _ => table

namespace Program

/-- Lays out instructions from the given offset on and adds their labels to a table. -/
def layoutFrom (offset : Nat) (table : LabelTable) : Program → Except AsmError LabelTable
  | [] => .ok table
  | i :: rest =>
    let next := offset + i.size
    if next > maxOffset then .error (.programTooLarge next)
    else layoutFrom next (table.record offset i) rest

/-- The offsets of a program's labels. -/
def layout (p : Program) : Except AsmError LabelTable := layoutFrom 0 ∅ p

/-- Binds the label operands of a program. One that names no label of the program stays as it
is. If the labels cannot be laid out nothing is bound. -/
def resolveLabels (p : Program) : Except AsmError LabelTable × Program :=
  match p.layout with
  | .error e => (.error e, p)
  | .ok table => (.ok table, p.bindLabels (table[·]?))

end Program

end TileAsm
