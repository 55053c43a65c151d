/-!
# What a command leaves behind

A command prints to two channels and ends with a status: 0 if it did its work, 1 if it failed, 2
if its command line made no sense.
-/

namespace TileAsm.Command

/-- The end of a command. -/
structure Outcome where
  /-- The exit status. -/
  status : UInt8 := 0
  /-- What was printed to standard output. -/
  output : String := ""
  /-- What was printed to standard error. -/
  errors : String := ""
  deriving DecidableEq, Repr, Inhabited

/-- Why a command does not get to its work. -/
inductive Halt where
  /-- The command line makes no sense. -/
  | usage
  /-- Help was asked for. -/
  | help
  /-- The version was asked for. -/
  | version
  deriving DecidableEq, Repr, Inhabited

/-- The outcome of a command that does not get to its work. -/
def Halt.outcome (version usage : String) : Halt → Outcome
  | .usage => { status := 2, errors := usage }
  | .help => { output := usage }
  | .version => { output := version ++ "\n" }

/-- The outcome of a command that fails, after it has printed `errors`. -/
def Outcome.failure (errors message : String) (cause? : Option String := none) : Outcome where
  status := 1
  errors := errors ++ "Error: " ++ message ++ "\n" ++
    cause?.elim "" fun cause ↦ "\nCaused by:\n    " ++ cause ++ "\n"

end TileAsm.Command
