import TileAsm.Source.Line

/-!
# Comments that document code

Comment lines are collected until a line of code takes them or a blank line separates them from
it. A comment on the line of code itself is taken by that line, as the last one. Every line of
code takes what is pending, also one that has no use for it, so that a comment never documents
more than the code next to it.
-/

namespace TileAsm

/-- The comments that wait for a line of code. They are kept with the newest in front, so that
adding one is cheap; `toList` gives them in the order of the source. -/
structure PendingComments where
  /-- The comments, the newest first. -/
  newestFirst : List String := []
  deriving DecidableEq, Repr, Inhabited

namespace PendingComments

/-- No comments. -/
def empty : PendingComments := {}

/-- Adds a comment behind those that wait already. -/
def push (p : PendingComments) (comment : String) : PendingComments :=
  { newestFirst := comment :: p.newestFirst }

/-- The waiting comments in the order of the source. -/
def toList (p : PendingComments) : List String := p.newestFirst.reverse

@[simp] theorem toList_empty : empty.toList = [] := rfl

@[simp] theorem toList_push (p : PendingComments) (comment : String) :
    (p.push comment).toList = p.toList ++ [comment] := by
  simp [push, toList]

end PendingComments

/-- A line that holds code, with the comments that document it. -/
structure CodeLine where
  /-- The number of the line, counted from 0. -/
  number : Nat
  /-- The code, which is not empty. -/
  code : List Char
  /-- The comments, in the order of the source. -/
  doc : List String
  deriving DecidableEq, Repr, Inhabited

namespace CodeLine

/-- The lines of code among the given lines, when some comments wait already. They are put behind
the ones in `found`, whose order is reversed. -/
def collect (found : List CodeLine) (pending : PendingComments) : List SourceLine → List CodeLine
  | [] => found.reverse
  | line :: rest =>
    let pending := line.comment?.elim pending pending.push
    if line.code.isEmpty then collect found (if line.isBlank then .empty else pending) rest
    else collect (⟨line.number, line.code, pending.toList⟩ :: found) .empty rest

/-- The lines of code among the given lines. -/
def ofLines (lines : List SourceLine) : List CodeLine := collect [] .empty lines

/-- What was found before does not matter to what is found. -/
theorem collect_eq_append (found : List CodeLine) (pending : PendingComments)
    (lines : List SourceLine) :
    collect found pending lines = found.reverse ++ collect [] pending lines := by
  induction lines generalizing found pending with
  | nil => simp [collect]
  | cons line rest ih =>
    simp only [collect]
    split
    · exact ih ..
    · rw [ih, ih [_]]
      simp

end CodeLine

end TileAsm
