import TileAsm.Proofs.StringGrammar

/-!
# Strings read back as they are quoted

Quoting escapes a quote and a backslash and leaves every other printable character alone. So the
quoted form of printable bytes is a literal with these bytes as its contents
(`Quoted.isLiteral_write`); it is enough to look at one byte, which is one item. Reading undoes
quoting because it follows the grammar: `StringLiteral.parse_write` reads one literal, with blanks
allowed before it and any text after it, and `StringLiteral.parseMany_write` reads a row of literals
up to the end.
-/

namespace TileAsm

open Text

/-- The bytes that stand for printable characters. -/
def isPrintableByte (b : UInt8) : Bool := 0x20 ≤ b && b ≤ 0x7E

theorem isPrintableByte_of_isStringByte {b : UInt8} (h : isStringByte b = true) :
    isPrintableByte b = true := by
  rw [isStringByte, Bool.and_eq_true] at h
  exact h.1

namespace Text.Quoted

/-! ### Contents -/

theorem toNat_ofNat_toNat (b : UInt8) : (Char.ofNat b.toNat).toNat = b.toNat := by
  have hall : ∀ n < 256, (Char.ofNat n).toNat = n := by decide +kernel
  exact hall b.toNat b.toNat_lt

/-- The characters that a line of code can hold when it is printed: printable ones, and no
semicolon, which would start a comment. -/
def isCodeChar (c : Char) : Bool := isPrintable c && c != ';'

theorem isCodeChar_of_isTokenChar {c : Char} (h : isTokenChar c = true) : isCodeChar c = true := by
  obtain ⟨hlow, hhigh, -, hsemi⟩ := toNat_of_isTokenChar h
  have hne : c ≠ ';' := by
    rintro rfl
    exact hsemi rfl
  simp [isCodeChar, isPrintable_iff.2 ⟨hlow.le, hhigh⟩, hne]

theorem isPrintable_ofNat {b : UInt8} (h : isPrintableByte b = true) :
    isPrintable (Char.ofNat b.toNat) = true := by
  rw [isPrintableByte, Bool.and_eq_true, decide_eq_true_eq, decide_eq_true_eq,
    UInt8.le_iff_toNat_le, UInt8.le_iff_toNat_le] at h
  have hlow : 32 ≤ b.toNat := h.1
  have hhigh : b.toNat ≤ 126 := h.2
  rw [isPrintable_iff, toNat_ofNat_toNat]
  omega

/-- A printable byte is quoted as one item. -/
theorem items_escapeByte_append {b : UInt8} (h : isPrintableByte b = true) {s t : List Char}
    (hs : Items s t) : Items (escapeByte b ++ s) (Char.ofNat b.toNat :: t) := by
  have hprint := isPrintable_ofNat h
  unfold escapeByte
  generalize Char.ofNat b.toNat = c at hprint
  dsimp only
  split
  · rename_i hc
    have hmark : c = '"' ∨ c = '\\' := by simpa using hc
    refine .escape (.mark ?_) hs
    rcases hmark with rfl | rfl <;> decide
  · rename_i hc
    have hne : c ≠ '"' ∧ c ≠ '\\' := by simpa using hc
    exact .plain hne.1 hne.2 hs

/-- Escaped bytes are read as the items of a string. -/
theorem items_flatMap_escapeByte {bytes : List UInt8} (h : bytes.all isPrintableByte = true) :
    Items (bytes.flatMap escapeByte) (bytes.map fun b ↦ Char.ofNat b.toNat) := by
  induction bytes with
  | nil => exact .nil
  | cons b bytes ih =>
    rw [List.all_cons, Bool.and_eq_true] at h
    exact items_escapeByte_append h.1 (ih h.2)

theorem toList_write (bytes : List UInt8) :
    (write bytes).toList = '"' :: (bytes.flatMap escapeByte ++ ['"']) := by
  simp [write]

/-- **A quoted string is a literal** with the string as its contents. -/
theorem isLiteral_write {bytes : List UInt8} (h : bytes.all isPrintableByte = true) :
    IsLiteral (write bytes).toList (bytes.map fun b ↦ Char.ofNat b.toNat) := by
  rw [toList_write, ← List.cons_append]
  exact .intro (items_flatMap_escapeByte h)

theorem all_isPrintable_map {bytes : List UInt8} (h : bytes.all isPrintableByte = true) :
    (bytes.map fun b ↦ Char.ofNat b.toNat).all isPrintable = true := by
  rw [List.all_map, List.all_eq_true]
  exact fun b hb ↦ isPrintable_ofNat (List.all_eq_true.1 h b hb)

/-- A quoted string of a source holds no semicolon and no line feed. -/
theorem isCodeChar_of_mem_write {bytes : List UInt8} (h : bytes.all isStringByte = true) {c : Char}
    (hc : c ∈ (write bytes).toList) : isCodeChar c = true := by
  rw [toList_write, List.mem_cons, List.mem_append, List.mem_singleton, List.mem_flatMap] at hc
  rcases hc with rfl | ⟨b, hb, hc⟩ | rfl
  · decide
  · have hbyte := List.all_eq_true.1 h b hb
    have hprint := isPrintable_ofNat (isPrintableByte_of_isStringByte hbyte)
    have hsemi : Char.ofNat b.toNat ≠ ';' := by
      intro heq
      rw [isStringByte, Bool.and_eq_true, bne_iff_ne] at hbyte
      have hnat : b.toNat = (0x3B : UInt8).toNat := by rw [← toNat_ofNat_toNat, heq]; rfl
      exact hbyte.2 (UInt8.toNat_inj.1 hnat)
    have hself : isCodeChar (Char.ofNat b.toNat) = true := by simp [isCodeChar, hprint, hsemi]
    unfold escapeByte at hc
    dsimp only at hc
    rw [if_pos hprint] at hc
    split at hc
    · rcases List.mem_pair.1 hc with rfl | rfl
      · decide
      · exact hself
    · rw [List.mem_singleton.1 hc]
      exact hself
  · decide

end Text.Quoted

namespace StringLiteral

open Quoted

/-! ### Literals -/

theorem terminated_map (bytes : List UInt8) :
    terminated (bytes.map fun b ↦ Char.ofNat b.toNat) = bytes ++ [0] := by
  have hbyte : ∀ b : UInt8, UInt8.ofNat (Char.ofNat b.toNat).toNat = b := fun b ↦ by
    rw [toNat_ofNat_toNat, UInt8.ofNat_toNat]
  rw [terminated, List.map_map]
  exact congrArg (· ++ [0]) (List.map_id'' hbyte bytes)

/-- The contents of quoted strings stand for the strings with their terminators. -/
theorem map_terminated_map (strings : List (List UInt8)) :
    (strings.map (·.map fun b ↦ Char.ofNat b.toNat)).map terminated = strings.map (· ++ [0]) := by
  rw [List.map_map]
  exact List.map_congr_left fun s _ ↦ terminated_map s

/-- The contents of quoted strings can be printed. -/
theorem all_isPrintable_of_mem_map {strings : List (List UInt8)}
    (h : ∀ s ∈ strings, s.all isPrintableByte = true) :
    ∀ contents ∈ strings.map (·.map fun b ↦ Char.ofNat b.toNat),
      contents.all isPrintable = true := by
  intro contents hcontents
  obtain ⟨s, hs, rfl⟩ := List.mem_map.1 hcontents
  exact all_isPrintable_map (h s hs)

/-- A literal reads back, with blanks before it and any text after it. -/
theorem parse_write {bytes : List UInt8} (h : bytes.all isPrintableByte = true)
    {blanks : List Char} (hblanks : blanks.all isBlank = true) (rest : List Char) :
    parse (blanks ++ (write bytes).toList ++ rest) = .ok (bytes ++ [0], rest) := by
  rw [List.append_assoc, parse_of_isLiteral hblanks (isLiteral_write h) (all_isPrintable_map h),
    terminated_map]

/-- Quoted strings with spaces between them are a row of literals. -/
theorem row_write {first : List UInt8} (hfirst : first.all isPrintableByte = true)
    {others : List (List UInt8)} (hothers : ∀ o ∈ others, o.all isPrintableByte = true) :
    Row (spaced (write first).toList (others.map fun o ↦ (write o).toList))
      ((first :: others).map (·.map fun b ↦ Char.ofNat b.toNat)) := by
  induction others generalizing first with
  | nil => exact .single (isLiteral_write hfirst) rfl
  | cons second others ih =>
    have ih := ih (hothers second (by simp)) fun o ho ↦ hothers o (by simp [ho])
    have hspace : isBlankText [' '] = true := by decide
    rw [List.map_cons, spaced_cons]
    exact .cons (isLiteral_write hfirst) hspace ih

/-- A row of literals reads back. -/
theorem parseMany_write {first : List UInt8} (hfirst : first.all isPrintableByte = true)
    {others : List (List UInt8)} (hothers : ∀ o ∈ others, o.all isPrintableByte = true)
    {blanks : List Char} (hblanks : blanks.all isBlank = true) :
    parseMany (blanks ++ spaced (write first).toList (others.map fun o ↦ (write o).toList)) =
      .ok ((first :: others).map (· ++ [0])) := by
  have hprint := all_isPrintable_of_mem_map (List.forall_mem_cons.2 ⟨hfirst, hothers⟩)
  rw [parseMany_of_row (row_write hfirst hothers) hprint hblanks, map_terminated_map]

end StringLiteral

end TileAsm
