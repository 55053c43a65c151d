import TileAsm.Text.Numeral

/-!
# Quoted strings

A string literal is a double quote, its items and a double quote. An item is one character other
than a quote and a backslash, or a backslash with any one character after it. Reading is total on
items: an escape that has no meaning of its own stands for its two characters. Writing escapes
only the quote and the backslash, and gives a byte outside the printable ASCII range by its
number, so the literal it writes for printable bytes reads back as those bytes.
-/

namespace TileAsm.Text.Quoted

/-- A printable ASCII character, the space included. -/
def isPrintable (c : Char) : Bool := ' ' ≤ c && c ≤ '~'

/-! ### Reading -/

/-- What a backslash stands for together with the character after it. A quote, an apostrophe and
a backslash stand for themselves, and a tab or a line break for a space. -/
def unescape (c : Char) : List Char :=
  if c == '"' || c == '\'' || c == '\\' then [c]
  else if c == '\t' || c == '\x0b' || c == '\r' || c == '\n' then [' ']
  else ['\\', c]

/-- The contents of a literal whose opening quote has been read, and the text after its closing
quote. There is no result without a closing quote. -/
def body? : List Char → Option (List Char × List Char)
  | [] => none
  | '"' :: rest => some ([], rest)
  | ['\\'] => none
  | '\\' :: c :: rest => (body? rest).map fun (contents, after) ↦ (unescape c ++ contents, after)
  | c :: rest => (body? rest).map fun (contents, after) ↦ (c :: contents, after)

/-- What follows a literal is no longer than what it was read from. -/
theorem length_after_body?_le {s contents after : List Char}
    (h : body? s = some (contents, after)) : after.length ≤ s.length := by
  fun_induction body? s generalizing contents after with
  | case1 => cases h
  | case2 => cases h; simp
  | case3 => cases h
  | case4 c rest ih =>
    obtain ⟨⟨cs, as⟩, hrest, heq⟩ := Option.map_eq_some_iff.1 h
    cases heq
    have := ih hrest
    simp only [List.length_cons]
    omega
  | case5 c rest _ _ _ ih =>
    obtain ⟨⟨cs, as⟩, hrest, heq⟩ := Option.map_eq_some_iff.1 h
    cases heq
    have := ih hrest
    simp only [List.length_cons]
    omega

/-! ### Writing -/

/-- One byte of a string as it is written between quotes. -/
def escapeByte (b : UInt8) : List Char :=
  let c := Char.ofNat b.toNat
  if c == '"' || c == '\\' then ['\\', c]
  else if isPrintable c then [c]
  else '\\' :: 'x' :: hexDigits 2 b.toNat

/-- A string as a literal. -/
def write (bytes : List UInt8) : String :=
  String.ofList ('"' :: bytes.flatMap escapeByte ++ ['"'])

end TileAsm.Text.Quoted
