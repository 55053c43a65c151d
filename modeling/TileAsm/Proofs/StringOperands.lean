import TileAsm.Proofs.Reading

/-!
# What an instruction that draws strings accepts

`DTXT` and `DSEL` take the same operands up to the number of strings: a register, at least one
blank, and string literals. `StringOperands` says which texts these are and what they stand for. It
is put together from the written form of a register (`RegisterRef.Spelled`) and the grammar of
literals (`StringLiteral.Row`), and it knows nothing of trimming or of tokens.

The reader takes the text apart at its first blank and trims what it finds. Neither loses anything
here: a register holds no blank, a literal starts with a quote, and nothing stands behind the last
literal of a trimmed text (`parsePosition_parseMany_iff`). What is left for `parse_strings_iff` is
the length of the strings, which is counted with all terminators.
-/

namespace TileAsm

open Text

/-! ### Registers -/

/-- A register operand and the text that it is written as: a star if it is indirect, an `r`, and one
or more word characters. -/
inductive RegisterRef.Spelled : List Char → RegisterRef → Prop
  | direct {word : List Char} (hne : word ≠ []) (hword : ∀ c ∈ word, Name.isWordChar c = true) :
    Spelled ('r' :: word) { name := String.ofList ('r' :: word), mode := .direct }
  | indirect {word : List Char} (hne : word ≠ []) (hword : ∀ c ∈ word, Name.isWordChar c = true) :
    Spelled ('*' :: 'r' :: word) { name := String.ofList ('r' :: word), mode := .indirect }

theorem RegisterRef.parse_eq_ok_iff {text : List Char} {r : RegisterRef} :
    parse text = .ok r ↔ Spelled text r := by
  constructor
  · intro h
    unfold parse at h
    split at h
    rename_i name mode hmark
    split at h
    · rename_i hname
      obtain ⟨word, hne, hword, rfl⟩ := Name.isName_iff.1 hname
      obtain rfl := Except.ok.inj h
      split at hmark
      · obtain ⟨rfl, rfl⟩ := Prod.mk.inj hmark
        exact .indirect hne hword
      · obtain ⟨rfl, rfl⟩ := Prod.mk.inj hmark
        exact .direct hne hword
    · exact absurd h (by simp)
  · intro h
    have hname : ∀ {word : List Char}, word ≠ [] → (∀ c ∈ word, Name.isWordChar c = true) →
        Name.isRegister ('r' :: word) = true :=
      fun hne hword ↦ Name.isName_iff.2 ⟨_, hne, hword, rfl⟩
    rcases h with ⟨hne, hword⟩ | ⟨hne, hword⟩
    · exact if_pos (hname hne hword)
    · exact if_pos (hname hne hword)

/-- A register is a token: no blank stands in it. -/
theorem RegisterRef.Spelled.isToken {text : List Char} {r : RegisterRef} (h : Spelled text r) :
    IsToken text := by
  have hname : ∀ {word : List Char}, word ≠ [] → (∀ c ∈ word, Name.isWordChar c = true) →
      IsToken ('r' :: word) :=
    fun hne hword ↦ isToken_of_isName (by decide) (Name.isName_iff.2 ⟨_, hne, hword, rfl⟩)
  have hstar : IsToken ['*'] := isToken_of_all rfl
  rcases h with ⟨hne, hword⟩ | ⟨hne, hword⟩
  · exact hname hne hword
  · exact hstar.append (hname hne hword)

namespace Instruction

/-! ### Operands -/

/-- The operands of an instruction that draws strings: a register, one or more blanks, and one or
more literals whose contents can be printed. Each literal stands for its contents and a
terminator. -/
inductive StringOperands : List Char → RegisterRef → List (List UInt8) → Prop
  | intro {token blanks row : List Char} {r : RegisterRef} {contents : List (List Char)}
    (hregister : r.Spelled token) (hne : blanks ≠ []) (hblanks : isBlankText blanks = true)
    (hrow : StringLiteral.Row row contents)
    (hprint : ∀ s ∈ contents, s.all Quoted.isPrintable = true) :
    StringOperands (token ++ (blanks ++ row)) r (contents.map StringLiteral.terminated)

theorem parsePosition_eq_ok_iff {op : Opcode} {params rest : List Char} {r : RegisterRef} :
    parsePosition op params = .ok (r, rest) ↔
      r.Spelled (cutToken params).1 ∧ rest = (cutToken params).2 := by
  rw [parsePosition]
  split
  · -- without operands there is no register
    rename_i hempty
    rw [List.isEmpty_iff.1 hempty]
    constructor
    · intro h
      exact absurd h (by simp)
    · intro h
      exact absurd rfl h.1.isToken.1
  · constructor
    · intro h
      obtain ⟨r', hr', h⟩ := bind_eq_ok_iff.1 h
      obtain ⟨rfl, rfl⟩ := Prod.mk.inj (Except.ok.inj h)
      exact ⟨RegisterRef.parse_eq_ok_iff.1 hr', rfl⟩
    · rintro ⟨hr, rfl⟩
      exact bind_eq_ok_iff.2 ⟨r, RegisterRef.parse_eq_ok_iff.2 hr, rfl⟩

/-- **Taking operands apart accepts exactly the grammar**, if there is nothing to trim from their
end. -/
theorem parsePosition_parseMany_iff (op : Opcode) {params : List Char} {r : RegisterRef}
    {options : List (List UInt8)} (hparams : trimEnd params = params) :
    (∃ rest, parsePosition op params = .ok (r, rest) ∧
        StringLiteral.parseMany rest = .ok options) ↔
      StringOperands params r options := by
  constructor
  · rintro ⟨rest, hposition, hmany⟩
    obtain ⟨hregister, rfl⟩ := parsePosition_eq_ok_iff.1 hposition
    obtain ⟨blanks, row, contents, hsplit, hblanks, hrow, hprint, rfl⟩ :=
      StringLiteral.parseMany_eq_ok_iff.1 hmany
    have htrim : (cutToken params).2 = trimStart (params.dropWhile (!isBlank ·)) :=
      trimEnd_eq_self_of_suffix ((trimStart_suffix _).trans (List.dropWhile_suffix _)) hparams
    rw [htrim] at hsplit
    have htoken : (cutToken params).1 ++ params.dropWhile (!isBlank ·) = params :=
      List.takeWhile_append_dropWhile
    -- what follows the token starts with the blank that ends it
    rcases hdrop : params.dropWhile (!isBlank ·) with _ | ⟨c, tail⟩
    · obtain ⟨row, rfl⟩ := hrow.exists_eq_cons
      rw [hdrop] at hsplit
      exact absurd hsplit (by simp)
    · have hc : isBlank c = true := by
        have hhead := List.head?_dropWhile_not (!isBlank ·) params
        rw [hdrop] at hhead
        simpa using hhead
      obtain ⟨front, hfront, htail⟩ := exists_eq_append_trimStart tail
      rw [hdrop, trimStart_of_isBlank hc] at hsplit
      rw [hdrop, htail, hsplit] at htoken
      rw [← htoken, ← List.append_assoc front, ← List.cons_append]
      refine .intro hregister (by simp) ?_ hrow hprint
      simp [hc, hfront, hblanks]
  · rintro @⟨token, blanks, row, _, contents, hregister, hne, hblanks, hrow, hprint⟩
    rcases blanks with _ | ⟨c, blanks⟩
    · exact absurd rfl hne
    · rw [isBlankText_cons, Bool.and_eq_true] at hblanks
      have hrest : trim (blanks ++ row) = row := by
        obtain ⟨rest, hquote⟩ := hrow.exists_eq_cons
        rw [trim, trimStart_append hblanks.2, hquote, trimStart_eq_self (by decide), ← hquote]
        refine trimEnd_eq_self_of_suffix ?_ hparams
        exact (List.suffix_append _ _).trans (List.suffix_append _ _)
      have hcut := cutToken_append_cons hregister.isToken hblanks.1 (blanks ++ row)
      rw [hrest] at hcut
      have hmany := StringLiteral.parseMany_of_row hrow hprint (show isBlankText [] = true from rfl)
      refine ⟨row, parsePosition_eq_ok_iff.2 ?_, hmany⟩
      rw [List.cons_append, hcut]
      exact ⟨hregister, rfl⟩

theorem parseSelector_eq_ok_iff {params : List Char} (hparams : trimEnd params = params)
    {i : Instruction} :
    parseSelector params = .ok i ↔
      ∃ r options, StringOperands params r options ∧ options.flatten.length + 1 ≤ maxPayload ∧
        i = .selector r options := by
  simp only [← parsePosition_parseMany_iff .dsel hparams, ← checkPayload_eq_ok_iff]
  constructor
  · intro h
    obtain ⟨⟨r, rest⟩, hposition, h⟩ := bind_eq_ok_iff.1 h
    obtain ⟨options, hoptions, h⟩ := bind_eq_ok_iff.1 h
    obtain ⟨⟨⟩, hpayload, h⟩ := bind_eq_ok_iff.1 h
    exact ⟨r, options, ⟨rest, hposition, hoptions⟩, hpayload, (Except.ok.inj h).symm⟩
  · rintro ⟨r, options, ⟨rest, hposition, hoptions⟩, hpayload, rfl⟩
    rw [parseSelector, hposition, ok_bind]
    dsimp only
    rw [hoptions, ok_bind, hpayload, ok_bind]
    rfl

theorem parseText_eq_ok_iff {params : List Char} (hparams : trimEnd params = params)
    {i : Instruction} :
    parseText params = .ok i ↔
      ∃ r bytes, StringOperands params r [bytes] ∧ bytes.length ≤ maxPayload ∧
        i = .text r bytes := by
  simp only [← parsePosition_parseMany_iff .dtxt hparams, ← checkPayload_eq_ok_iff,
    StringLiteral.parseMany_eq_singleton_iff]
  constructor
  · intro h
    obtain ⟨⟨r, rest⟩, hposition, h⟩ := bind_eq_ok_iff.1 h
    obtain ⟨⟨bytes, tail⟩, hbytes, h⟩ := bind_eq_ok_iff.1 h
    dsimp only at h
    split at h
    · rename_i htail
      obtain ⟨⟨⟩, hpayload, h⟩ := bind_eq_ok_iff.1 h
      exact ⟨r, bytes, ⟨rest, hposition, tail, hbytes, htail⟩, hpayload, (Except.ok.inj h).symm⟩
    · exact absurd h (by simp)
  · rintro ⟨r, bytes, ⟨rest, hposition, tail, hbytes, htail⟩, hpayload, rfl⟩
    rw [parseText, hposition, ok_bind]
    dsimp only
    rw [hbytes, ok_bind]
    dsimp only
    rw [if_pos htail, hpayload, ok_bind]
    rfl

end Instruction

/-! ### Whole instructions -/

/-- **`DSEL` and `DTXT` accept exactly their grammar.** A text whose first token is one of the two
mnemonics, in capitals or not, is read as an instruction exactly if the trimmed text behind the
token is a register, at least one blank and printable string literals: one or more for `DSEL`, one
for `DTXT`. The strings may take 128 bytes, where each has a terminator and the row that `DSEL`
offers has another one. A text that starts with a blank has an empty first token. -/
theorem parse_strings_iff (text : List Char) :
    ((cutToken text).1.map Char.toUpper = "DSEL".toList →
      ∀ i, Instruction.parse text = .ok i ↔
        ∃ r options, Instruction.StringOperands (cutToken text).2 r options ∧
          options.flatten.length + 1 ≤ 128 ∧ i = .selector r options) ∧
    ((cutToken text).1.map Char.toUpper = "DTXT".toList →
      ∀ i, Instruction.parse text = .ok i ↔
        ∃ r bytes, Instruction.StringOperands (cutToken text).2 r [bytes] ∧
          bytes.length ≤ 128 ∧ i = .text r bytes) := by
  have hparams : trimEnd (cutToken text).2 = (cutToken text).2 := trimEnd_trim _
  constructor
  · intro h i
    rw [Instruction.parse_eq_parseOperands (show _ = Opcode.dsel.mnemonic.toList from h)]
    exact Instruction.parseSelector_eq_ok_iff hparams
  · intro h i
    rw [Instruction.parse_eq_parseOperands (show _ = Opcode.dtxt.mnemonic.toList from h)]
    exact Instruction.parseText_eq_ok_iff hparams

/-- Small letters, a no-break space behind the mnemonic, a quote and a letter behind backslashes,
and no blank between two literals: `DSEL` takes them, and for `DTXT` they are one too many. -/
theorem parse_strings_of_adjacent_literals :
    let params := "*r_1 \"a\\\"\"\"\\q\"".toList
    let selector := "dsel\u00a0".toList ++ params
    let text := "Dtxt ".toList ++ params
    let r : RegisterRef := { name := "r_1", mode := .indirect }
    (cutToken selector).1.map Char.toUpper = "DSEL".toList ∧ (cutToken selector).2 = params ∧
      Instruction.StringOperands params r [[0x61, 0x22, 0], [0x5C, 0x71, 0]] ∧
      (cutToken text).1.map Char.toUpper = "DTXT".toList ∧ (cutToken text).2 = params ∧
      ¬ ∃ r bytes, Instruction.StringOperands params r [bytes] ∧ bytes.length ≤ 128 := by
  intro params selector text r
  have hselector : (cutToken selector).1.map Char.toUpper = "DSEL".toList := by decide +kernel
  have htext : (cutToken text).1.map Char.toUpper = "DTXT".toList := by decide +kernel
  have hselectorParams : (cutToken selector).2 = params := by decide +kernel
  have htextParams : (cutToken text).2 = params := by decide +kernel
  have haccepted : Instruction.parse selector =
      .ok (.selector r [[0x61, 0x22, 0], [0x5C, 0x71, 0]]) := by decide +kernel
  have hrejected : Instruction.parse text = .error (.trailingText "\"\\q\"") := by decide +kernel
  obtain ⟨r', options, hoperands, -, heq⟩ :=
    ((parse_strings_iff selector).1 hselector _).1 haccepted
  obtain ⟨rfl, rfl⟩ := Instruction.selector.inj heq
  refine ⟨hselector, hselectorParams, hselectorParams ▸ hoperands, htext, htextParams, ?_⟩
  rintro ⟨r', bytes, hoperands, hlength⟩
  have hparse := ((parse_strings_iff text).2 htext _).2
    ⟨r', bytes, htextParams ▸ hoperands, hlength, rfl⟩
  exact absurd (hrejected.symm.trans hparse) (by simp)

end TileAsm
