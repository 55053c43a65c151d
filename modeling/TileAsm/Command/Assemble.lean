import TileAsm.Command.Argument
import TileAsm.Command.Files
import TileAsm.Command.Outcome
import TileAsm.Report.Table

/-!
# The assembler command

The command reads a source, writes its image and reports on it. Rejected lines are printed with
their place in the source, also when the assembly goes on without them. No file is written unless
there is an image.
-/

namespace TileAsm.Command.Assemble

open Report (Format)

/-- The name of the command. -/
def name : String := "vasm"

/-- What `--version` prints. -/
def version : String := name ++ " 0.1.0"

/-- How the command is used. -/
def usage : String :=
  "Usage: vasm [OPTIONS] SOURCE\n\n" ++
  "  -o, --output FILE  write the image to FILE (a.out)\n" ++
  "  --keep-going       assemble the lines that were accepted even if others were not\n" ++
  "  --labels           print the labels\n" ++
  "  --registers        print the registers\n" ++
  "  --mnemonics        print the instruction set and do nothing else\n" ++
  "  --format FORMAT    print reports as text or json (text)\n" ++
  "  -h, --help         print this text\n" ++
  "  -V, --version      print the version\n"

/-! ### Options -/

/-- The options of the command. -/
inductive Key where
  | output | keepGoing | labels | registers | mnemonics | format | help | version
  deriving DecidableEq, Repr, Inhabited

/-- How the options are written. -/
def forms : List (OptionForm Key) :=
  [{ key := .output, name := "output", letter? := some 'o', takesValue := true },
    { key := .keepGoing, name := "keep-going" },
    { key := .labels, name := "labels" },
    { key := .registers, name := "registers" },
    { key := .mnemonics, name := "mnemonics" },
    { key := .format, name := "format", takesValue := true },
    { key := .help, name := "help", letter? := some 'h' },
    { key := .version, name := "version", letter? := some 'V' }]

/-- The options as far as they are known. -/
structure Options where
  /-- The source file. -/
  source? : Option String := none
  /-- The file for the image. -/
  output? : Option String := none
  /-- Whether to go on without the rejected lines. -/
  keepGoing : Bool := false
  /-- Whether to report the labels. -/
  labels : Bool := false
  /-- Whether to report the registers. -/
  registers : Bool := false
  /-- Whether to print the instruction set instead of assembling. -/
  mnemonics : Bool := false
  /-- The form of the reports. -/
  format? : Option Format := none
  deriving DecidableEq, Repr, Inhabited

/-- Takes in one argument. No option may be given twice, and no file name may be empty. -/
def Options.add (o : Options) : Argument Key → Except Halt Options
  | .flag .help => .error .help
  | .flag .version => .error .version
  | .flag .keepGoing => if o.keepGoing then .error .usage else .ok { o with keepGoing := true }
  | .flag .labels => if o.labels then .error .usage else .ok { o with labels := true }
  | .flag .registers => if o.registers then .error .usage else .ok { o with registers := true }
  | .flag .mnemonics => if o.mnemonics then .error .usage else .ok { o with mnemonics := true }
  | .setting .output file =>
    if o.output?.isSome || file.isEmpty then .error .usage else .ok { o with output? := some file }
  | .setting .format form =>
    match o.format?, Format.ofName? form with
    | none, some format => .ok { o with format? := some format }
    | _, _ => .error .usage
  | .operand file =>
    if o.source?.isSome || file.isEmpty then .error .usage else .ok { o with source? := some file }
  | _ => .error .usage

/-- What the command is asked to do. -/
inductive Request where
  /-- Print the instruction set. -/
  | instructionSet (format : Format)
  /-- Assemble a source. -/
  | assemble (source output : String) (keepGoing labels registers : Bool) (format : Format)
  deriving DecidableEq, Repr, Inhabited

/-- The request that the words of a command line make. A source is needed unless the instruction
set is to be printed. -/
def Request.ofWords (words : List String) : Except Halt Request := do
  let o ← (Argument.ofWords forms words).foldlM Options.add {}
  let format := o.format?.getD .text
  if o.mnemonics then return .instructionSet format
  else match o.source? with
    | none => .error .usage
    | some source =>
      return .assemble source (o.output?.getD "a.out") o.keepGoing o.labels o.registers format

/-! ### The work -/

/-- The two lines that are printed for a rejected line of the source at `path`. -/
def diagnostic (path : String) (e : LineError) : String :=
  e.message ++ "\n  at (file://" ++ path ++ ":" ++ toString e.reportedLine ++ ":0)\n"

/-- The steps from a compiled source to its image. The first one that fails gives the sentence to
report; without `keepGoing` no step is taken after rejected lines. -/
def build (c : Compilation) (keepGoing : Bool) : Except String Assembly := do
  if c.hasErrors && !keepGoing then
    throw (toString c.errors.length ++ " line(s) failed to assemble")
  let (table, p) := c.program.resolveRegisters
  let registers ← table.mapError AsmError.message
  let (table, p) := p.resolveLabels
  let labels ← table.mapError AsmError.message
  let image ← p.emit.mapError AsmError.message
  return { registers, labels, program := p, image }

/-- The reports that were asked for. -/
def reports (labels registers : Bool) (format : Format) (a : Assembly) : String :=
  (if labels then Report.labels format a else "") ++
    if registers then Report.registers format a else ""

variable {m : Type → Type} [Monad m] [FileAccess m]

/-- Reads a file as text. -/
def readText (path : String) : m (Except String String) := do
  match ← FileAccess.read path with
  | .error e => return .error e.message
  | .ok bytes =>
    match String.fromUTF8? bytes.toByteArray with
    | some text => return .ok text
    | none => return .error "stream did not contain valid UTF-8"

/-- What is printed for the rejected lines of a compiled source. -/
def diagnostics (source : String) (c : Compilation) : m String := do
  if c.hasErrors then
    let path ← FileAccess.absolute source
    return String.join (c.errors.map (diagnostic path))
  else return ""

/-- Assembles a source. -/
def assemble (source output : String) (keepGoing labels registers : Bool) (format : Format) :
    m Outcome := do
  match ← readText source with
  | .error cause => return .failure "" ("reading " ++ source) (some cause)
  | .ok text =>
    let c := compile text
    let errors ← diagnostics source c
    match build c keepGoing with
    | .error message => return .failure errors message
    | .ok a =>
      match ← FileAccess.write output a.image with
      | .error e => return .failure errors ("writing " ++ output) (some e.message)
      | .ok () => return { output := reports labels registers format a, errors }

/-- Runs the command on the words of its command line. -/
def run (words : List String) : m Outcome :=
  match Request.ofWords words with
  | .error halt => return halt.outcome version usage
  | .ok (.instructionSet format) => return { output := Report.instructionSet format }
  | .ok (.assemble source output keepGoing labels registers format) =>
    assemble source output keepGoing labels registers format

end TileAsm.Command.Assemble
