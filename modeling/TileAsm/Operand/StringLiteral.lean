import TileAsm.Error
import TileAsm.Text.Blank
import TileAsm.Text.Quoted

/-!
# Strings

A string operand is a quoted string, with blanks allowed before it. Its contents are printable
ASCII; in the image they are followed by a zero byte, which is part of what is read here.
-/

namespace TileAsm.StringLiteral

open Text

/-- The bytes of printable text with the terminator behind them. -/
def terminated (contents : List Char) : List UInt8 :=
  contents.map (fun c ↦ UInt8.ofNat c.toNat) ++ [0]

/-- Reads the string that a text starts with: its bytes, terminator included, and the text after
its closing quote. A string without an end is no string, whatever it holds; one with an end is
then rejected if it holds a character that is not printable ASCII. -/
def parse (text : List Char) : Except ParseError (List UInt8 × List Char) :=
  match trimStart text with
  | '"' :: body =>
    match Quoted.body? body with
    | none => .error (.notString (String.ofList text))
    | some (contents, rest) =>
      if contents.all Quoted.isPrintable then .ok (terminated contents, rest)
      else .error (.notAscii (String.ofList (trim text)))
  | _ => .error (.notString (String.ofList text))

/-! ### Rows of strings -/

theorem length_trimStart_le (s : List Char) : (trimStart s).length ≤ s.length :=
  (List.dropWhile_sublist _).length_le

/-- What follows a string is shorter than what it was read from. -/
theorem length_rest_lt {text : List Char} {bytes : List UInt8} {rest : List Char}
    (h : parse text = .ok (bytes, rest)) : rest.length < text.length := by
  have hle := length_trimStart_le text
  unfold parse at h
  split at h
  · rename_i body htrim
    rw [htrim, List.length_cons] at hle
    split at h
    · cases h
    · rename_i contents after hbody
      split at h
      · cases h
        have := Quoted.length_after_body?_le hbody
        omega
      · cases h
  · cases h

/-- Reads one or more strings up to the end of a text, with or without blanks between them and
after them. -/
def parseMany (text : List Char) : Except ParseError (List (List UInt8)) :=
  match _h : parse text with
  | .error e => .error e
  | .ok (bytes, rest) =>
    if isBlankText rest then .ok [bytes]
    else (parseMany rest).map (bytes :: ·)
termination_by text.length
decreasing_by exact length_rest_lt _h

/-- One step of reading strings. -/
theorem parseMany_eq_bind (text : List Char) :
    parseMany text = (parse text).bind fun (bytes, rest) ↦
      if isBlankText rest then .ok [bytes] else (parseMany rest).map (bytes :: ·) := by
  rw [parseMany]
  split <;> rename_i h <;> rw [h] <;> rfl

end TileAsm.StringLiteral
