import TileAsm.Instruction.Parser
import TileAsm.Program
import TileAsm.Source.Comments

/-!
# Compilation

Every line of code is read on its own, and a rejected line does not keep the others from being
read. So compiling always gives a program, together with the errors of the lines that are not,
or not fully, part of it.
-/

namespace TileAsm

/-- A compiled source. -/
structure Compilation where
  /-- The instructions of the lines that were accepted. -/
  program : Program := []
  /-- The rejected lines, in the order of the source. -/
  errors : List LineError := []
  deriving DecidableEq, Repr, Inhabited

namespace Compilation

/-- Puts together what the lines of code gave, each with its number. -/
def ofParsed (parsed : List (Nat × ParsedLine)) : Compilation where
  program := parsed.flatMap fun (_, p) ↦ p.instructions
  errors := parsed.filterMap fun (line, p) ↦ p.error?.map fun error ↦ { line, error }

/-- Whether a line was rejected. -/
def hasErrors (c : Compilation) : Bool := !c.errors.isEmpty

/-- The program of a source of which no line was rejected. -/
def accepted (c : Compilation) : Except AsmError Program :=
  if c.hasErrors then .error (.rejectedLines c.errors) else .ok c.program

end Compilation

/-- Compiles a source. -/
def compile (source : String) : Compilation :=
  .ofParsed <| (CodeLine.ofLines (SourceLine.scan source)).map fun line ↦
    (line.number, ParsedLine.parse line.code line.doc)

end TileAsm
