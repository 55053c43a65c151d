/-!
# Blank characters, trimming and tokens

The blanks of the source language are the characters with the Unicode property `White_Space`,
not only the ASCII ones: a no-break space separates operands just as a plain space does, while a
zero-width space is an ordinary character. Everything that reads a line is built from the
operations below, which work on lists of characters so that the laws of `takeWhile` and
`dropWhile` apply to them.
-/

namespace TileAsm.Text

/-- The code points with the property `White_Space`, as closed ranges in increasing order. -/
def blankRanges : List (Nat × Nat) :=
  [(0x09, 0x0D), (0x20, 0x20), (0x85, 0x85), (0xA0, 0xA0), (0x1680, 0x1680), (0x2000, 0x200A),
    (0x2028, 0x2029), (0x202F, 0x202F), (0x205F, 0x205F), (0x3000, 0x3000)]

/-- Whether a character is a blank. -/
def isBlank (c : Char) : Bool :=
  blankRanges.any fun r ↦ r.1 ≤ c.toNat && c.toNat ≤ r.2

/-- Whether a text holds nothing but blanks. -/
def isBlankText (s : List Char) : Bool := s.all isBlank

/-! ### Trimming -/

/-- The text without its leading blanks. -/
def trimStart (s : List Char) : List Char := s.dropWhile isBlank

/-- The text without its trailing blanks. -/
def trimEnd (s : List Char) : List Char := (trimStart s.reverse).reverse

/-- The text without its leading and trailing blanks. -/
def trim (s : List Char) : List Char := trimEnd (trimStart s)

@[simp] theorem trimStart_nil : trimStart [] = [] := rfl

@[simp] theorem trimEnd_nil : trimEnd [] = [] := rfl

@[simp] theorem trim_nil : trim [] = [] := rfl

/-! ### Tokens -/

/-- The text cut at its first blank: the token before it and the trimmed text after it. A text
without blanks is one token with nothing after it. -/
def cutToken (s : List Char) : List Char × List Char :=
  (s.takeWhile (!isBlank ·), trim (s.dropWhile (!isBlank ·)))

/-- The maximal runs of characters that are not blanks. -/
def words (s : List Char) : List (List Char) :=
  (s.splitOnP isBlank).filter fun w ↦ !w.isEmpty

end TileAsm.Text
