import TileAsm.Command.Assemble
import TileAsm.Command.Disassemble

/-!
# The program

One program holds both commands; the first word of the command line says which one to run. Only
this module touches the disk and the terminal.
-/

open TileAsm.Command

namespace TileAsm.Main

/-- Whether an error code has the given number. Some file operations give it with its sign
changed. -/
def isCode (code number : UInt32) : Bool := code == number || code == -number

/-- The cause of a failed file operation. -/
def fileError (e : IO.Error) : FileError :=
  match e with
  | .noFileOrDirectory _ _ _ => .notFound
  | .inappropriateType _ code _ => if isCode code 20 then .notDirectory else .isDirectory
  | .invalidArgument _ code details =>
    if isCode code 36 then .nameTooLong else .other details
  | .permissionDenied _ _ _ => .other "Permission denied (os error 13)"
  | e => .other (toString e)

/-- Runs a file operation. -/
def attempt {α : Type} (act : IO α) : IO (Except FileError α) := do
  try return .ok (← act) catch e => return .error (fileError e)

instance : FileAccess IO where
  read path := attempt do return (← IO.FS.readBinFile path).toList
  write path bytes := attempt (IO.FS.writeBinFile path bytes.toByteArray)
  absolute path := do
    try return (← IO.FS.realPath path).toString catch _ => return path

/-- The outcome of a command line that names no command. -/
def noCommand : Outcome where
  status := 2
  errors := Assemble.usage ++ "\n" ++ Disassemble.usage

/-- Runs the command that the first word names on the words after it. -/
def run : List String → IO Outcome
  | [] => return noCommand
  | word :: rest =>
    if word = Assemble.name then Assemble.run rest
    else if word = Disassemble.name then Disassemble.run rest
    else return noCommand

end TileAsm.Main

/-- Runs a command and prints what it leaves behind. -/
def main (words : List String) : IO UInt32 := do
  let outcome ← TileAsm.Main.run words
  (← IO.getStderr).putStr outcome.errors
  (← IO.getStdout).putStr outcome.output
  return outcome.status.toUInt32
