import Std.Data.TreeMap
import TileAsm.Registers

/-!
# The outline of a program

What an editor shows about a program without assembling it: its labels, the comments that document
them, and the registers that can be named in it.
-/

namespace TileAsm.Program

/-- The labels of a program with their documentation, in the order of their declarations. -/
def declarations (p : Program) : List (String × List String) :=
  p.filterMap fun
    | .label name doc => some (name, doc)
    | _ => none

/-- The documentation of the labels, as lines of one text. A name that is declared more than once
has that of its last declaration. -/
def labelDocs (p : Program) : Std.TreeMap String String :=
  p.declarations.foldl (fun docs (name, doc) ↦ docs.insert name ("\n".intercalate doc)) ∅

/-- The names of the registers, each once: the fixed ones, and then the others that the program
mentions, in the order of their first mention. -/
def registerNames (p : Program) : List String :=
  (fixedRegisters.map (·.1) ++ p.registers.map (·.name)).eraseDups

end TileAsm.Program
