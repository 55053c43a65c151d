import TileAsm.Text.Numeral

/-!
# Records as JSON

A report is a list of records with fields in a fixed order. It is laid out with one item per line,
two spaces deeper for each level; an empty list is written without a line break.
-/

namespace TileAsm.Report

open Text

/-- The value of a field. -/
inductive Value where
  /-- A number. -/
  | number (n : Nat)
  /-- A text. -/
  | string (s : String)
  /-- A list of numbers. -/
  | numbers (ns : List Nat)
  deriving DecidableEq, Repr, Inhabited

/-- The fields of a record, in the order in which they are written. -/
abbrev Record := List (String × Value)

/-- A character of a JSON string. Only the quote, the backslash and the control characters below
the space are escaped. -/
def escapeChar (c : Char) : List Char :=
  match c with
  | '"' => ['\\', '"']
  | '\\' => ['\\', '\\']
  | '\n' => ['\\', 'n']
  | '\r' => ['\\', 'r']
  | '\t' => ['\\', 't']
  | '\x08' => ['\\', 'b']
  | '\x0c' => ['\\', 'f']
  | c => if c < ' ' then '\\' :: 'u' :: hexDigits 4 c.toNat else [c]

/-- A JSON string. -/
def quote (s : String) : String := String.ofList ('"' :: s.toList.flatMap escapeChar ++ ['"'])

/-- Items between brackets, when the opening bracket stands at the given depth. -/
def bracketed (opening closing : String) (depth : Nat) (items : List String) : String :=
  let indent (depth : Nat) : String := "".pushn ' ' (2 * depth)
  if items.isEmpty then opening ++ closing
  else
    opening ++ "\n" ++ ",\n".intercalate (items.map (indent (depth + 1) ++ ·)) ++ "\n" ++
      indent depth ++ closing

/-- A value that stands at the given depth. -/
def Value.json (depth : Nat) : Value → String
  | number n => toString n
  | string s => quote s
  | numbers ns => bracketed "[" "]" depth (ns.map toString)

/-- A record that stands at the given depth. -/
def Record.json (depth : Nat) (record : Record) : String :=
  bracketed "\x7b" "\x7d" depth <|
    record.map fun (name, value) ↦ quote name ++ ": " ++ value.json (depth + 1)

/-- A list of records, with a line break behind it. -/
def json (records : List Record) : String :=
  bracketed "[" "]" 0 (records.map (Record.json 1)) ++ "\n"

end TileAsm.Report
