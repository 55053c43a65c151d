import TileAsm.Text.Blank
import TileAsm.Text.Lines

/-!
# Source lines

A line of source is code, a comment behind the first semicolon, or both. A semicolon starts a
comment wherever it stands, inside a quoted string too.
-/

namespace TileAsm

open Text

/-- One line of a source. -/
structure SourceLine where
  /-- The number of the line, counted from 0. -/
  number : Nat
  /-- The trimmed text before the comment. -/
  code : List Char
  /-- The text of the comment. -/
  comment? : Option String
  /-- Whether the line holds nothing but blanks. A line with a comment is not blank. -/
  isBlank : Bool
  deriving DecidableEq, Repr, Inhabited

namespace SourceLine

/-- The text of a comment: the one blank that sets it off from its semicolon is not part of it.
Further blanks are, and so is a blank that nothing follows. -/
def commentText : List Char → List Char
  | a :: b :: rest => if Text.isBlank a && !Text.isBlank b then b :: rest else a :: b :: rest
  | s => s

/-- A line split into its parts. -/
def ofText (number : Nat) (raw : List Char) : SourceLine where
  number
  code := trim (raw.takeWhile (· != ';'))
  comment? := match raw.dropWhile (· != ';') with
    | [] => none
    | _ :: rest => some (String.ofList (commentText rest))
  isBlank := isBlankText raw

/-- The lines of a source. -/
def scan (source : String) : List SourceLine :=
  (lines source.toList).zipIdx.map fun (raw, number) ↦ ofText number raw

end SourceLine

end TileAsm
