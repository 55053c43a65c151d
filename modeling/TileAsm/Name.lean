/-!
# Names

A label is an `l` and a register an `r`, each followed by at least one word character: an ASCII
letter, an ASCII digit or an underscore. The first letter is part of the name, so labels and
registers never share one.
-/

namespace TileAsm.Name

/-- A character that may follow the first letter of a name. -/
def isWordChar (c : Char) : Bool := c.isAlphanum || c == '_'

/-- At least one word character and nothing else. -/
def isWord (s : List Char) : Bool := !s.isEmpty && s.all isWordChar

/-- Whether a text is a name with the given first letter. -/
def isName (first : Char) : List Char → Bool
  | [] => false
  | c :: rest => c == first && isWord rest

/-- Whether a text is the name of a label. -/
def isLabel : List Char → Bool := isName 'l'

/-- Whether a text is the name of a register, without a mark in front of it. -/
def isRegister : List Char → Bool := isName 'r'

/-- The text without the one `*` or `&` that may stand in front of a register. -/
def unmarked : List Char → List Char
  | '*' :: rest => rest
  | '&' :: rest => rest
  | s => s

/-- A name is its first letter and at least one word character. -/
theorem isName_iff {first : Char} {s : List Char} :
    isName first s = true ↔
      ∃ word, word ≠ [] ∧ (∀ c ∈ word, isWordChar c = true) ∧ s = first :: word := by
  cases s with
  | nil => simp [isName]
  | cons c rest =>
    rw [isName, Bool.and_eq_true, beq_iff_eq, isWord, Bool.and_eq_true, List.all_eq_true]
    constructor
    · rintro ⟨rfl, hne, hword⟩
      exact ⟨rest, by simpa using hne, hword, rfl⟩
    · rintro ⟨word, hne, hword, heq⟩
      obtain ⟨rfl, rfl⟩ := List.cons.inj heq
      exact ⟨rfl, by simpa using hne, hword⟩

/-- No name is both that of a label and that of a register. -/
theorem isRegister_eq_false_of_isLabel {s : List Char} (h : isLabel s = true) :
    isRegister s = false := by
  obtain ⟨word, -, -, rfl⟩ := isName_iff.1 h
  rfl

/-- There is no mark in front of a label. -/
theorem unmarked_of_isLabel {s : List Char} (h : isLabel s = true) : unmarked s = s := by
  obtain ⟨word, -, -, rfl⟩ := isName_iff.1 h
  rfl

end TileAsm.Name
