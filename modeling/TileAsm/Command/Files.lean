/-!
# Files

The commands read and write files through `FileAccess`, so that the same command runs on the disk
and on a `Folder`, which is a directory kept in memory. A folder holds files only, but their paths
may have several parts; the parts in front name directories that exist because of them.

Paths are relative to the folder and are followed part by part. A part is looked up only once what
is in front of it is known to be a directory, so the first fault on the way decides the error: a
name that is too long behind one that does not exist is not noticed. The length of the whole path
is checked before anything else.
-/

namespace TileAsm.Command

/-- Why a file could not be read or written. -/
inductive FileError where
  /-- Nothing has that name. -/
  | notFound
  /-- Something on the way is a file. -/
  | notDirectory
  /-- The name is that of a directory. -/
  | isDirectory
  /-- A name on the way, or the whole path, has too many bytes. -/
  | nameTooLong
  /-- Another cause, in words. -/
  | other (text : String)
  deriving DecidableEq, Repr, Inhabited

/-- The wording of a file error. -/
def FileError.message : FileError → String
  | .notFound => "No such file or directory (os error 2)"
  | .notDirectory => "Not a directory (os error 20)"
  | .isDirectory => "Is a directory (os error 21)"
  | .nameTooLong => "File name too long (os error 36)"
  | .other text => text

/-- The means to read and write files. -/
class FileAccess (m : Type → Type) where
  /-- The bytes of a file. -/
  read : String → m (Except FileError (List UInt8))
  /-- Makes a file, or replaces its contents. -/
  write : String → List UInt8 → m (Except FileError Unit)
  /-- The full path of a file that exists. -/
  absolute : String → m String

/-- The most bytes that one name can have. -/
def maxNameBytes : Nat := 255

/-- The most bytes that a path can have as it is written. -/
def maxPathBytes : Nat := 4095

/-- The parts of the path of a file in a folder. -/
abbrev Path := List String

/-- A directory in memory. -/
structure Folder where
  /-- The path of the folder itself. -/
  location : String
  /-- The files, each with its path in the folder. -/
  files : List (Path × List UInt8) := []
  deriving DecidableEq, Repr, Inhabited

namespace Folder

/-- The contents of a file. -/
def find? (f : Folder) (path : Path) : Option (List UInt8) := f.files.lookup path

/-- Whether a path is that of the folder itself or of a directory above it. -/
def isAbove (path : Path) : Bool := path.all (· == "..")

/-- Whether a path is that of a directory: the folder itself, one above it, or one in which there
is a file. -/
def hasDirectory (f : Folder) (path : Path) : Bool :=
  isAbove path || f.files.any fun (p, _) ↦ path.isPrefixOf p && p != path

/-- Follows one part of a path from where the parts before it lead, which must be a directory.
There need not be anything of that name. -/
def enter (f : Folder) (current : Path) (part : String) : Except FileError Path :=
  if f.hasDirectory current then
    if part = "" ∨ part = "." then .ok current
    else if part = ".." ∧ !isAbove current then .ok current.dropLast
    else if part.utf8ByteSize > maxNameBytes then .error .nameTooLong
    else .ok (current ++ [part])
  else if (f.find? current).isSome then .error .notDirectory
  else .error .notFound

/-- Follows the parts of a path from the folder on. -/
def follow (f : Folder) (parts : List String) : Except FileError Path := parts.foldlM f.enter []

/-- The parts of a path that is not too long. -/
def parts (path : String) : Except FileError (List String) :=
  if path.utf8ByteSize > maxPathBytes then .error .nameTooLong
  else .ok ((path.toList.splitOn '/').map String.ofList)

/-- Where a path leads. There need not be anything, but what is above it is a directory. -/
def resolve (f : Folder) (path : String) : Except FileError Path := do
  f.follow (← parts path)

/-- Reads a file. -/
def read (f : Folder) (path : String) : Except FileError (List UInt8) := do
  let target ← f.resolve path
  if f.hasDirectory target then .error .isDirectory
  else match f.find? target with
    | some bytes => .ok bytes
    | none => .error .notFound

/-- Puts a file at a path. -/
def put (f : Folder) (target : Path) (bytes : List UInt8) : Folder :=
  { f with files := (target, bytes) :: f.files.filter (·.1 != target) }

/-- Writes a file. A path that ends in slashes can only be that of a directory: the name in front
of them is not looked up, but what is above it has to be a directory. -/
def write (f : Folder) (path : String) (bytes : List UInt8) : Except FileError Folder := do
  let ps ← parts path
  if ps.getLast? = some "" then
    let above ← f.follow ((ps.reverse.dropWhile (· == "")).drop 1).reverse
    let _ ← f.enter above "."
    .error .isDirectory
  else
    let target ← f.follow ps
    if f.hasDirectory target then .error .isDirectory else return f.put target bytes

/-- The full path of a file. -/
def absolute (f : Folder) (path : String) : String :=
  match f.resolve path with
  | .ok target => "/".intercalate (f.location :: target)
  | .error _ => path

end Folder

instance : FileAccess (StateM Folder) where
  read path := do return (← get).read path
  write path bytes := do
    match (← get).write path bytes with
    | .ok f => set f; return .ok ()
    | .error e => return .error e
  absolute path := do return (← get).absolute path

end TileAsm.Command
