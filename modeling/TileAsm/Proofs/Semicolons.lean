import TileAsm.Proofs.CodeLines
import TileAsm.Proofs.Printing
import TileAsm.Proofs.Rereading

/-!
# Semicolons in strings

Every printable character can be quoted and is read back, also a semicolon. But a line ends for its
reader at the first semicolon, without regard to quotes, so no source can hold a string with one.
What stands in front of the semicolon (`Quoted.beforeComment`) is never taken for a shorter string:
it begins with the opening quote, and no part of a literal holds a quote that closes it
(`Quoted.body?_eq_none_of_prefix`).
-/

namespace TileAsm

open Text

/-! ### Strings in front of a comment -/

namespace Text.Quoted

/-- What a comment leaves of a quoted string that stands at the end of a line. -/
def beforeComment (bytes : List UInt8) : List Char :=
  trimEnd ((write bytes).toList.takeWhile (· != ';'))

/-- The opening quote is left in any case. -/
theorem beforeComment_eq_cons (bytes : List UInt8) :
    beforeComment bytes =
      '"' :: trimEnd ((bytes.flatMap escapeByte ++ ['"']).takeWhile (· != ';')) := by
  rw [beforeComment, toList_write, List.takeWhile_cons_of_pos (by decide)]
  exact trimEnd_append_cons (by decide) [] _

/-- If the string holds a semicolon, what follows the quote is part of the items. -/
theorem exists_beforeComment_of_mem {bytes : List UInt8} (hsemi : 0x3B ∈ bytes) :
    ∃ part, beforeComment bytes = '"' :: part ∧ part <+: bytes.flatMap escapeByte := by
  have hmem : ';' ∈ bytes.flatMap escapeByte :=
    List.mem_flatMap.2 ⟨0x3B, hsemi, by decide +kernel⟩
  have hshort : ((bytes.flatMap escapeByte).takeWhile (· != ';')).length ≠
      (bytes.flatMap escapeByte).length := by
    intro hlength
    have hself := (List.takeWhile_prefix _).eq_of_length hlength
    simpa using List.takeWhile_eq_self_iff.1 hself ';' hmem
  refine ⟨trimEnd ((bytes.flatMap escapeByte).takeWhile (· != ';')), ?_, ?_⟩
  · rw [beforeComment_eq_cons, List.takeWhile_append, if_neg hshort]
  · exact (List.rdropWhile_prefix _ _).trans (List.takeWhile_prefix _)

theorem beforeComment_of_notMem {bytes : List UInt8} (h : bytes.all isPrintableByte = true)
    (hsemi : 0x3B ∉ bytes) : beforeComment bytes = (write bytes).toList := by
  have hstring : bytes.all isStringByte = true := by
    rw [List.all_eq_true] at h ⊢
    intro b hb
    have hne : b ≠ 0x3B := fun heq ↦ hsemi (heq ▸ hb)
    exact Bool.and_eq_true_iff.2 ⟨h b hb, by simpa using hne⟩
  have hall : ∀ c ∈ (write bytes).toList, (c != ';') = true := fun c hc ↦
    (Bool.and_eq_true_iff.1 (isCodeChar_of_mem_write hstring hc)).2
  rw [beforeComment, List.takeWhile_eq_self_iff.2 hall, toList_write, ← List.cons_append]
  exact trimEnd_append_cons (by decide) _ []

theorem isTrimmed_beforeComment (bytes : List UInt8) : IsTrimmed (beforeComment bytes) := by
  rw [beforeComment, toList_write, List.takeWhile_cons_of_pos (by decide)]
  exact isTrimmed_trimEnd_cons (by decide) _

end Text.Quoted

/-! ### Lines that draw a string -/

theorem spaced_text_line (s : List Char) :
    spaced "DTXT".toList ["r0".toList, s] = "DTXT r0 ".toList ++ s := by
  simp [spaced_cons]

/-- The code of the line is its mnemonic, its register, and what is left of the string. -/
theorem code_of_text_line (t : List UInt8) :
    (SourceLine.ofText 0 ("DTXT r0 " ++ Quoted.write t).toList).code =
      spaced "DTXT".toList ["r0".toList, Quoted.beforeComment t] := by
  have hfront : ∀ s, trimStart ("DTXT r0 ".toList ++ s) = "DTXT r0 ".toList ++ s := fun s ↦
    trimStart_eq_self (by decide : isBlank 'D' = false) _
  have hsemi : ∀ c ∈ "DTXT r0 ".toList, (c != ';') = true := by simp
  rw [SourceLine.ofText, String.toList_append, List.takeWhile_append_of_pos hsemi, trim, hfront,
    spaced_text_line, Quoted.beforeComment_eq_cons, Quoted.toList_write,
    List.takeWhile_cons_of_pos (by decide)]
  exact trimEnd_append_cons (by decide) _ _

namespace Instruction

/-- A string that is cut off is refused. -/
theorem parse_text_line_of_mem {t : List UInt8} (h : t.all isPrintableByte = true)
    (hsemi : 0x3B ∈ t) :
    parse (spaced "DTXT".toList ["r0".toList, Quoted.beforeComment t]) =
      .error (.notString (String.ofList (Quoted.beforeComment t))) := by
  have htoken := isToken_registerText 0
  have htrimmed := Quoted.isTrimmed_beforeComment t
  have hcut : cutToken (spaced Opcode.dtxt.mnemonic.toList
      [(registerText 0).toList, Quoted.beforeComment t]) = _ :=
    cutToken_spaced Opcode.dtxt.isToken_mnemonic (by simp [htoken.isTrimmed, htrimmed])
  have hposition : parsePosition .dtxt (spaced (registerText 0).toList [Quoted.beforeComment t]) =
      .ok (.ofByte 0, spaced (Quoted.beforeComment t) []) :=
    parsePosition_spaced .dtxt 0 (by simpa using htrimmed)
  obtain ⟨part, hpart, hprefix⟩ := Quoted.exists_beforeComment_of_mem hsemi
  have hstring := StringLiteral.parse_of_body?_eq_none
    (Quoted.body?_eq_none_of_prefix (Quoted.items_flatMap_escapeByte h) hprefix)
  refine (parse_of_cutToken hcut).trans ?_
  show parseText _ = _
  rw [parseText, hposition, ok_bind]
  dsimp only
  rw [spaced_nil, hpart, hstring, error_bind]

/-- A string without semicolons is not cut off, so the line is that of a record. -/
theorem parse_text_line_of_notMem {t : List UInt8} (h : t.all isPrintableByte = true)
    (hlength : t.length ≤ 127) (hsemi : 0x3B ∉ t) :
    parse (spaced "DTXT".toList ["r0".toList, Quoted.beforeComment t]) =
      .ok (.text { name := "r0", mode := .direct } (t ++ [0])) := by
  let d : Decoded := ⟨.dtxt, .text 0 t⟩
  have hzero : 0 ∉ t := fun hmem ↦ absurd (List.all_eq_true.1 h 0 hmem) (by decide)
  have hd : d.Readable := .text 0 hzero
  have hstrings : ∀ s ∈ d.operands.strings, s.all isPrintableByte = true := by
    simpa [d, Operands.strings] using h
  have haccepted : d.rejection? = none := if_neg (show ¬ t.length + 1 > 128 by omega)
  have hregister : RegisterRef.ofByte 0 = { name := "r0", mode := .direct } := by decide +kernel
  have hprinted : d.printed? = some (.text { name := "r0", mode := .direct } (t ++ [0])) :=
    congrArg (fun r ↦ some (Instruction.text r (t ++ [0]))) hregister
  have hline : spaced "DTXT".toList ["r0".toList, (Quoted.write t).toList] = d.render.toList :=
    d.toList_render.symm
  rw [Quoted.beforeComment_of_notMem h hsemi, hline, parse_render_eq_elim hd hstrings hprinted,
    haccepted]
  rfl

end Instruction

/-- The source that draws a string is read as one instruction. -/
theorem compile_text_line (t : List UInt8) :
    compile ("DTXT r0 " ++ Quoted.write t) = .ofParsed [(0, .ofInstruction
      (Instruction.parse (spaced "DTXT".toList ["r0".toList, Quoted.beforeComment t])))] := by
  have hbreak : '\n' ∉ ("DTXT r0 " ++ Quoted.write t).toList := by
    rw [String.toList_append, List.mem_append, not_or]
    exact ⟨by decide, fun hmem ↦ absurd (Quoted.isPrintable_of_mem_write hmem) (by decide)⟩
  have hcode := code_of_text_line t
  have hcons : spaced "DTXT".toList ["r0".toList, Quoted.beforeComment t] =
      'D' :: ("TXT r0 ".toList ++ Quoted.beforeComment t) := spaced_text_line _
  rw [compile_of_line hbreak, hcode]
  · rw [hcode, hcons]
    exact List.cons_ne_nil _ _
  · rw [hcode, hcons]
    simp

/-- **A semicolon is the only printable character that a string of a source cannot hold.** Reading
undoes quoting on every printable string, with blanks in front of the literal and any text behind
it. A line that draws a string draws this string if there is no semicolon in it, and is rejected as
a whole if there is one. -/
theorem semicolon_ends_string {t : List UInt8} (h : t.all isPrintableByte = true) :
    (∀ blanks rest : List Char, blanks.all isBlank = true →
      StringLiteral.parse (blanks ++ (Quoted.write t).toList ++ rest) = .ok (t ++ [0], rest)) ∧
    (t.length ≤ 127 →
      compile ("DTXT r0 " ++ Quoted.write t) =
        if 0x3B ∈ t then
          { program := []
            errors :=
              [{ line := 0, error := .notString (String.ofList (Quoted.beforeComment t)) }] }
        else
          { program := [.text { name := "r0", mode := .direct } (t ++ [0])], errors := [] }) := by
  refine ⟨fun blanks rest hblanks ↦ StringLiteral.parse_write h hblanks rest, fun hlength ↦ ?_⟩
  rw [compile_text_line]
  by_cases hsemi : 0x3B ∈ t
  · rw [Instruction.parse_text_line_of_mem h hsemi, if_pos hsemi]
    rfl
  · rw [Instruction.parse_text_line_of_notMem h hlength hsemi, if_neg hsemi]
    rfl

/-- A backslash, a quote and a space in front of a semicolon are no string. Without the semicolon
all of them are drawn. -/
theorem semicolon_ends_string_behind_escapes :
    let escapes : List UInt8 := [0x5C, 0x22, 0x20]
    let cut := "DTXT r0 \"\\\\\\\" ;\""
    let whole := "DTXT r0 \"\\\\\\\" \""
    cut = "DTXT r0 " ++ Quoted.write (escapes ++ [0x3B]) ∧
      compile cut =
        { program := [], errors := [{ line := 0, error := .notString "\"\\\\\\\"" }] } ∧
      whole = "DTXT r0 " ++ Quoted.write escapes ∧
      compile whole =
        { program := [.text { name := "r0", mode := .direct } (escapes ++ [0])],
          errors := [] } := by
  intro escapes cut whole
  have hcut : cut = "DTXT r0 " ++ Quoted.write (escapes ++ [0x3B]) := by decide +kernel
  have hleft : String.ofList (Quoted.beforeComment (escapes ++ [0x3B])) = "\"\\\\\\\"" := by
    decide +kernel
  have hwhole : whole = "DTXT r0 " ++ Quoted.write escapes := by decide +kernel
  obtain ⟨-, hrejected⟩ := semicolon_ends_string (t := escapes ++ [0x3B]) (by decide)
  obtain ⟨-, haccepted⟩ := semicolon_ends_string (t := escapes) (by decide)
  refine ⟨hcut, ?_, hwhole, ?_⟩
  · rw [hcut, hrejected (by decide), if_pos (by decide), hleft]
  · rw [hwhole, haccepted (by decide), if_neg (by decide)]

end TileAsm
