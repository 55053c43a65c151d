/-!
# Lines of a text

A line ends at a line feed, which is not part of it, and a carriage return directly before that
line feed is dropped as well. The end of the text ends a last line only if there is something on
it, and then nothing is dropped: a carriage return at the very end of the text stays.
-/

namespace TileAsm.Text

/-- One character put in front of a text that is already cut after each of its line feeds. -/
def consPiece (c : Char) (pieces : List (List Char)) : List (List Char) :=
  if c = '\n' then [c] :: pieces
  else match pieces with
    | [] => [[c]]
    | piece :: rest => (c :: piece) :: rest

/-- The text cut after each of its line feeds. No piece is empty, and the pieces put together
are the text. -/
def pieces (s : List Char) : List (List Char) := s.foldr consPiece []

/-- A piece without the line feed that ends it, and without the carriage return before that. -/
def dropLineEnd (piece : List Char) : List Char :=
  match piece.reverse with
  | '\n' :: '\r' :: rest => rest.reverse
  | '\n' :: rest => rest.reverse
  | _ => piece

/-- The lines of a text, from the first to the last. -/
def lines (s : List Char) : List (List Char) := (pieces s).map dropLineEnd

@[simp] theorem pieces_nil : pieces [] = [] := rfl

@[simp] theorem pieces_cons (c : Char) (s : List Char) :
    pieces (c :: s) = consPiece c (pieces s) := rfl

@[simp] theorem lines_nil : lines [] = [] := rfl

end TileAsm.Text
