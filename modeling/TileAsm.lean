import TileAsm.Address
import TileAsm.Assembly
import TileAsm.Command.Argument
import TileAsm.Command.Assemble
import TileAsm.Command.Disassemble
import TileAsm.Command.Files
import TileAsm.Command.Outcome
import TileAsm.Compilation
import TileAsm.Decoded.Basic
import TileAsm.Decoded.Printer
import TileAsm.Error
import TileAsm.Instruction.Basic
import TileAsm.Instruction.Parser
import TileAsm.Instruction.Writer
import TileAsm.Labels
import TileAsm.Listing
import TileAsm.Main
import TileAsm.Name
import TileAsm.Opcode
import TileAsm.Operand.Literal
import TileAsm.Operand.Reference
import TileAsm.Operand.StringLiteral
import TileAsm.Outline
import TileAsm.Program
import TileAsm.Proofs.Admissible
import TileAsm.Proofs.Aliasing
import TileAsm.Proofs.AssembleCommand
import TileAsm.Proofs.Assembly
import TileAsm.Proofs.Basic
import TileAsm.Proofs.Binding
import TileAsm.Proofs.Bindings
import TileAsm.Proofs.BlankLines
import TileAsm.Proofs.CodeLines
import TileAsm.Proofs.Coverage
import TileAsm.Proofs.Decoding
import TileAsm.Proofs.Delimiting
import TileAsm.Proofs.Disassembly
import TileAsm.Proofs.Documentation
import TileAsm.Proofs.Emission
import TileAsm.Proofs.Files
import TileAsm.Proofs.Frames
import TileAsm.Proofs.InertText
import TileAsm.Proofs.JumpTargets
import TileAsm.Proofs.KeepGoing
import TileAsm.Proofs.LabelReport
import TileAsm.Proofs.LastDeclarations
import TileAsm.Proofs.Layout
import TileAsm.Proofs.LineByLine
import TileAsm.Proofs.Lines
import TileAsm.Proofs.Listed
import TileAsm.Proofs.Lossless
import TileAsm.Proofs.NameIndependence
import TileAsm.Proofs.NumberGrammar
import TileAsm.Proofs.Numbering
import TileAsm.Proofs.Numerals
import TileAsm.Proofs.Outline
import TileAsm.Proofs.Printing
import TileAsm.Proofs.Quoting
import TileAsm.Proofs.Reading
import TileAsm.Proofs.Reassembly
import TileAsm.Proofs.Reencoding
import TileAsm.Proofs.References
import TileAsm.Proofs.Relocation
import TileAsm.Proofs.Renaming
import TileAsm.Proofs.Rereading
import TileAsm.Proofs.Selectors
import TileAsm.Proofs.Semicolons
import TileAsm.Proofs.StringGrammar
import TileAsm.Proofs.StringOperands
import TileAsm.Proofs.TileOperands
import TileAsm.Proofs.Tokens
import TileAsm.Proofs.WellFormed
import TileAsm.Proofs.Windows
import TileAsm.Proofs.Written
import TileAsm.Registers
import TileAsm.Report.Json
import TileAsm.Report.Table
import TileAsm.Source.Comments
import TileAsm.Source.Line
import TileAsm.Text.Blank
import TileAsm.Text.Lines
import TileAsm.Text.Numeral
import TileAsm.Text.Quoted
import TileAsm.Tile
