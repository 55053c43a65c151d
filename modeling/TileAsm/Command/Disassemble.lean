import TileAsm.Command.Argument
import TileAsm.Command.Files
import TileAsm.Command.Outcome
import TileAsm.Report.Table

/-!
# The disassembler command

The command reads an image, or a part of one, and prints its listing or writes it to a file.
-/

namespace TileAsm.Command.Disassemble

open Report (Format)

/-- The name of the command. -/
def name : String := "vasm-disasm"

/-- What `--version` prints. -/
def version : String := name ++ " 0.1.0"

/-- How the command is used. -/
def usage : String :=
  "Usage: vasm-disasm [OPTIONS] BINFILE\n\n" ++
  "  --skip N         leave out the first N bytes (0)\n" ++
  "  --len N          take N bytes (all that are left)\n" ++
  "  --show-bytes     print the bytes of the instructions\n" ++
  "  --format FORMAT  print the listing as text or json (text)\n" ++
  "  --out FILE       write the listing to FILE\n" ++
  "  -h, --help       print this text\n" ++
  "  -V, --version    print the version\n"

/-! ### Options -/

/-- The options of the command. -/
inductive Key where
  | skip | length | showBytes | format | out | help | version
  deriving DecidableEq, Repr, Inhabited

/-- How the options are written. -/
def forms : List (OptionForm Key) :=
  [{ key := .skip, name := "skip", takesValue := true },
    { key := .length, name := "len", takesValue := true },
    { key := .showBytes, name := "show-bytes" },
    { key := .format, name := "format", takesValue := true },
    { key := .out, name := "out", takesValue := true },
    { key := .help, name := "help", letter? := some 'h' },
    { key := .version, name := "version", letter? := some 'V' }]

/-- The options as far as they are known. -/
structure Options where
  /-- The image file. -/
  input? : Option String := none
  /-- The number of bytes to leave out. -/
  skip? : Option Nat := none
  /-- The number of bytes to take. -/
  length? : Option Nat := none
  /-- Whether to print the bytes of the instructions. -/
  showBytes : Bool := false
  /-- The form of the listing. -/
  format? : Option Format := none
  /-- The file for the listing. -/
  out? : Option String := none
  deriving DecidableEq, Repr, Inhabited

/-- Takes in one argument. No option may be given twice, and no file name may be empty. -/
def Options.add (o : Options) : Argument Key → Except Halt Options
  | .flag .help => .error .help
  | .flag .version => .error .version
  | .flag .showBytes => if o.showBytes then .error .usage else .ok { o with showBytes := true }
  | .setting .skip number =>
    match o.skip?, size? number with
    | none, some n => .ok { o with skip? := some n }
    | _, _ => .error .usage
  | .setting .length number =>
    match o.length?, size? number with
    | none, some n => .ok { o with length? := some n }
    | _, _ => .error .usage
  | .setting .format form =>
    match o.format?, Format.ofName? form with
    | none, some format => .ok { o with format? := some format }
    | _, _ => .error .usage
  | .setting .out file =>
    if o.out?.isSome || file.isEmpty then .error .usage else .ok { o with out? := some file }
  | .operand file =>
    if o.input?.isSome || file.isEmpty then .error .usage else .ok { o with input? := some file }
  | _ => .error .usage

/-- What the command is asked to do. -/
structure Request where
  /-- The image file. -/
  input : String
  /-- The number of bytes to leave out. -/
  skip : Nat
  /-- The number of bytes to take, if not all. -/
  length? : Option Nat
  /-- Whether to print the bytes of the instructions. -/
  showBytes : Bool
  /-- The form of the listing. -/
  format : Format
  /-- The file for the listing, if it is not to be printed. -/
  out? : Option String
  deriving DecidableEq, Repr, Inhabited

/-- The request that the words of a command line make. An image file is needed. -/
def Request.ofWords (words : List String) : Except Halt Request := do
  let o ← (Argument.ofWords forms words).foldlM Options.add {}
  match o.input? with
  | none => .error .usage
  | some input =>
    return { input, skip := o.skip?.getD 0, length? := o.length?, showBytes := o.showBytes,
             format := o.format?.getD .text, out? := o.out? }

/-! ### The work -/

variable {m : Type → Type} [Monad m] [FileAccess m]

/-- Prints or writes a listing. -/
def deliver (listing : String) : Option String → m Outcome
  | none => return { output := listing }
  | some file => do
    match ← FileAccess.write file listing.toUTF8.toList with
    | .error e => return .failure "" e.message
    | .ok () => return {}

/-- Disassembles an image. -/
def disassemble (r : Request) : m Outcome := do
  match ← FileAccess.read r.input with
  | .error e => return .failure "" e.message
  | .ok file =>
    match Image.window file r.skip r.length? with
    | .error e => return .failure "" e.message
    | .ok img => deliver (Report.listing r.format r.showBytes img) r.out?

/-- Runs the command on the words of its command line. -/
def run (words : List String) : m Outcome :=
  match Request.ofWords words with
  | .error halt => return halt.outcome version usage
  | .ok request => disassemble request

end TileAsm.Command.Disassemble
