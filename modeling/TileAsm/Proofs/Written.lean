import TileAsm.Proofs.Admissible
import TileAsm.Proofs.CodeLines
import TileAsm.Proofs.InertText
import TileAsm.Proofs.KeepGoing

/-!
# Instructions written down

An admissible instruction can be written down, and the line reads back as the instruction. So every
row of admissible instructions is the program of a source without errors (`compile_written`), apart
from the documentation of its labels, which stands in comments and is not written. Together with the
fact that nothing else gets through, this says exactly what sources hold.

A line is a label, or a mnemonic and the texts of its operands (`Instruction.operandTexts`). Two
facts about these texts are all that is needed: they have no blank at their ends and no character
that a line of code cannot have (`Instruction.Admissible.operandTexts_isCode`), and the reader of
their shape reads them back (`Instruction.Admissible.parseOperands_operandTexts`).
-/

namespace TileAsm

open Text

/-! ### Instructions written down -/

/-- The source as it is written. -/
def Source.written : Source → String
  | literal b => hexByte b
  | register r => r.written

namespace Instruction

/-- The operands as they are written. The terminators of strings are not. -/
def operandTexts : Instruction → List String
  | label _ _ => []
  | bare _ => []
  | register _ r => [r.written]
  | address _ t => [t.label]
  | pair _ source dest => [source.written, dest.written]
  | tile id rows => toString id.toNat :: rows.toList.map hexByte
  | text r bytes => [r.written, Quoted.write bytes.dropLast]
  | selector r options => r.written :: options.map fun o ↦ Quoted.write o.dropLast

/-- The line of an instruction. -/
def written : Instruction → String
  | label name _ => ":" ++ name
  | i => " ".intercalate (i.opcode?.toList.map Opcode.mnemonic ++ i.operandTexts)

end Instruction

/-! ### Operands read back -/

/-- A text that is not taken apart at blanks and can stand in a line of code. -/
def Text.IsCodeWord (s : List Char) : Prop :=
  s ≠ [] ∧ ∀ c ∈ s, isBlank c = false ∧ Quoted.isCodeChar c = true

namespace Text

/-- Tokens are words of code. -/
theorem IsToken.isCodeWord {s : List Char} (h : IsToken s) : IsCodeWord s :=
  ⟨h.1, fun c hc ↦ ⟨h.isBlank_eq_false hc, Quoted.isCodeChar_of_isTokenChar (h.2 c hc)⟩⟩

theorem IsCodeWord.isTrimmed {s : List Char} (h : IsCodeWord s) : IsTrimmed s :=
  isTrimmed_of_forall h.1 fun c hc ↦ (h.2 c hc).1

theorem IsCodeWord.words_eq {s : List Char} (h : IsCodeWord s) : words s = [s] :=
  words_of_forall h.1 fun c hc ↦ (h.2 c hc).1

end Text

namespace RegisterRef.IsOperand

variable {modes : List RegisterMode} {r : RegisterRef} (h : r.IsOperand modes)

include h

/-- A register is written as one word, with its mark. -/
theorem isCodeWord : IsCodeWord r.written.toList := by
  have hname := (h.name.isToken (by decide)).isCodeWord
  have hstar : isBlank '*' = false ∧ Quoted.isCodeChar '*' = true := by decide
  have hampersand : isBlank '&' = false ∧ Quoted.isCodeChar '&' = true := by decide
  have hmark : ∀ c ∈ r.mode.mark.toList, isBlank c = false ∧ Quoted.isCodeChar c = true := by
    cases r.mode <;> simp [RegisterMode.mark, hstar, hampersand]
  rw [written, String.toList_append]
  refine ⟨by simp [hname.1], fun c hc ↦ ?_⟩
  rcases List.mem_append.1 hc with hc | hc
  · exact hmark c hc
  · exact hname.2 c hc

/-- A register is read back wherever it may stand without `&`. -/
theorem parse_written_eq (hmodes : .addressOf ∉ modes) : parse r.written.toList = .ok r :=
  parse_written (Name.isSpelled_iff.1 h.name) (fun hmode ↦ hmodes (hmode ▸ h.mode)) h.value

end RegisterRef.IsOperand

namespace Instruction

variable {r dest : RegisterRef}

/-- The number of a register, as it is stored. -/
theorem parseSource_written_register (h : r.IsOperand [.addressOf]) :
    parseSource .stor (Source.register r).written.toList = .ok (.register r) := by
  have hname : Name.isRegister r.name.toList = true := Name.isSpelled_iff.1 h.name
  obtain ⟨name, mode, value⟩ := r
  obtain rfl : mode = .addressOf := List.mem_singleton.1 h.mode
  obtain rfl : value = none := h.value
  have hwritten : (RegisterRef.written ⟨name, .addressOf, none⟩).toList = '&' :: name.toList := by
    simp [RegisterRef.written, RegisterMode.mark]
  rw [parseSource, if_pos rfl, Source.written, hwritten, Source.parseImmediate, if_pos hname,
    String.ofList_toList]

theorem operandTexts_selector (r : RegisterRef) (options : List (List UInt8)) :
    operandTexts (.selector r (options.map (· ++ [0]))) =
      r.written :: options.map Quoted.write := by
  have hwrite : ∀ o : List UInt8, Quoted.write (o ++ [0]).dropLast = Quoted.write o := fun o ↦ by
    rw [List.dropLast_concat]
  rw [operandTexts, List.map_map]
  exact congrArg (r.written :: ·) (List.map_congr_left fun o _ ↦ hwrite o)

/-- A register and strings as they are written are what an instruction that draws strings takes. -/
theorem stringOperands_written (hr : r.IsOperand [.direct, .indirect]) {first : List UInt8}
    {others : List (List UInt8)} (h : ∀ o ∈ first :: others, o.all isStringByte = true) :
    StringOperands (" ".intercalate (r.written :: (first :: others).map Quoted.write)).toList r
      ((first :: others).map (· ++ [0])) := by
  have hprint : ∀ o ∈ first :: others, o.all isPrintableByte = true := fun o ho ↦
    all_isPrintableByte (h o ho)
  have hrow := StringLiteral.row_write (hprint first (by simp)) fun o ho ↦
    hprint o (List.mem_cons_of_mem _ ho)
  have hspelled := RegisterRef.parse_eq_ok_iff.1 (hr.parse_written_eq (by decide))
  have hoperands := StringOperands.intro hspelled (List.cons_ne_nil ' ' []) (by decide) hrow
    (StringLiteral.all_isPrintable_of_mem_map hprint)
  rw [StringLiteral.map_terminated_map] at hoperands
  rw [toList_intercalate_space, List.map_map, List.map_cons, spaced_cons]
  exact hoperands

/-- Operands with strings end with a register or a quote, so there is nothing to trim. -/
theorem trimEnd_written_strings (hr : r.IsOperand [.direct, .indirect])
    (strings : List (List UInt8)) :
    trimEnd (" ".intercalate (r.written :: strings.map Quoted.write)).toList =
      (" ".intercalate (r.written :: strings.map Quoted.write)).toList := by
  have hword : ∀ w ∈ r.written :: strings.map Quoted.write, IsTrimmed w.toList := by
    intro w hw
    rcases List.mem_cons.1 hw with rfl | hw
    · exact hr.isCodeWord.isTrimmed
    · obtain ⟨o, -, rfl⟩ := List.mem_map.1 hw
      exact isTrimmed_write o
  rw [← (isTrimmed_intercalate hword).trim_eq_self, trimEnd_trim]

/-! ### One reader per shape -/

section Shapes

variable {op : Opcode}

theorem parseOperands_register (hop : op.shape = .register) (hr : r.IsOperand [.direct]) :
    parseOperands op (" ".intercalate (operandTexts (.register op r))).toList =
      .ok (.register op r) := by
  have hdirect : r.mode = .direct := List.mem_singleton.1 hr.mode
  rw [parseOperands, hop, operandTexts, String.intercalate_singleton]
  show parseRegister op _ = _
  rw [parseRegister, hr.parse_written_eq (by decide), ok_bind, if_neg (by simp [hdirect])]
  rfl

theorem parseOperands_address {label : String} (hop : op.shape = .address)
    (hlabel : Name.IsSpelled 'l' label) :
    parseOperands op (" ".intercalate (operandTexts (.address op { label }))).toList =
      .ok (.address op { label }) := by
  have hname : Name.isLabel label.toList = true := Name.isSpelled_iff.1 hlabel
  rw [parseOperands, hop, operandTexts, String.intercalate_singleton]
  show parseAddress op _ = _
  rw [parseAddress, LabelRef.parse, if_pos hname, String.ofList_toList]
  rfl

/-- A pair is read back if its source is. The destination is a word of its own. -/
theorem parseOperands_pair {source : Source} (hop : op.shape = .pair)
    (hword : IsCodeWord source.written.toList)
    (hsource : parseSource op source.written.toList = .ok source)
    (hdest : dest.IsOperand [.direct, .indirect]) :
    parseOperands op (" ".intercalate (operandTexts (.pair op source dest))).toList =
      .ok (.pair op source dest) := by
  have hspace : isBlank ' ' = true := by decide
  have hwords : words (" ".intercalate [source.written, dest.written]).toList =
      [source.written.toList, dest.written.toList] := by
    rw [toList_intercalate_space, List.map_singleton, spaced_cons, spaced_nil,
      words_append_cons hspace, hword.words_eq, hdest.isCodeWord.words_eq]
    rfl
  rw [parseOperands, hop, operandTexts]
  show parsePair op _ = _
  rw [parsePair, hwords]
  dsimp only
  rw [hsource, ok_bind, hdest.parse_written_eq (by decide), ok_bind]
  rfl

theorem parseOperands_tile {id : UInt8} {rows : TileRows} (hid : id ≤ 63) :
    parseOperands .tile (" ".intercalate (operandTexts (.tile id rows))).toList =
      .ok (.tile id rows) := by
  rw [operandTexts, toList_intercalate_space, List.map_map]
  exact (parseTile_spaced id rows).trans (if_neg (UInt8.not_lt.2 hid))

/-- A text is read back if it can be printed and is not too long. -/
theorem parseOperands_text {chars : List UInt8} (hr : r.IsOperand [.direct, .indirect])
    (hchars : chars.all isStringByte = true) (hlength : (chars ++ [0]).length ≤ 128) :
    parseOperands .dtxt (" ".intercalate (operandTexts (.text r (chars ++ [0])))).toList =
      .ok (.text r (chars ++ [0])) := by
  have hstring : ∀ o ∈ [chars], o.all isStringByte = true := by simpa using hchars
  have hoperands := stringOperands_written hr hstring
  rw [operandTexts, List.dropLast_concat]
  exact (parseText_eq_ok_iff (trimEnd_written_strings hr [chars])).2 ⟨r, _, hoperands, hlength, rfl⟩

/-- A choice is read back under the same conditions, if it has an option. -/
theorem parseOperands_selector {options : List (List UInt8)}
    (hr : r.IsOperand [.direct, .indirect]) (hne : options ≠ [])
    (hchars : ∀ o ∈ options, o.all isStringByte = true)
    (hlength : (options.map (· ++ [0])).flatten.length + 1 ≤ 128) :
    parseOperands .dsel
        (" ".intercalate (operandTexts (.selector r (options.map (· ++ [0]))))).toList =
      .ok (.selector r (options.map (· ++ [0]))) := by
  obtain ⟨first, others, rfl⟩ := List.exists_cons_of_ne_nil hne
  have hoperands := stringOperands_written hr hchars
  rw [operandTexts_selector]
  exact (parseSelector_eq_ok_iff (trimEnd_written_strings hr (first :: others))).2
    ⟨r, _, hoperands, hlength, rfl⟩

end Shapes

/-! ### Lines read back -/

/-- An instruction is written as its mnemonic and its operands. -/
theorem written_eq_intercalate {i : Instruction} {op : Opcode} (h : i.opcode? = some op) :
    i.written = " ".intercalate (op.mnemonic :: i.operandTexts) := by
  cases i with
  | label name doc => exact absurd h (by simp [opcode?])
  | _ =>
    obtain rfl := Option.some.inj h
    rfl

namespace Admissible

variable {i : Instruction} {op : Opcode} (h : i.Admissible)

include h

/-- The operands are written without blanks at their ends and without a semicolon. -/
theorem operandTexts_isCode {w : String} (hw : w ∈ i.operandTexts) :
    IsTrimmed w.toList ∧ ∀ c ∈ w.toList, Quoted.isCodeChar c = true := by
  have hword : ∀ {s : String}, IsCodeWord s.toList →
      IsTrimmed s.toList ∧ ∀ c ∈ s.toList, Quoted.isCodeChar c = true :=
    fun h ↦ ⟨h.isTrimmed, fun c hc ↦ (h.2 c hc).2⟩
  have hstring : ∀ {chars : List UInt8}, chars.all isStringByte = true →
      IsTrimmed (Quoted.write chars).toList ∧
        ∀ c ∈ (Quoted.write chars).toList, Quoted.isCodeChar c = true :=
    fun h ↦ ⟨isTrimmed_write _, fun c ↦ Quoted.isCodeChar_of_mem_write h⟩
  cases h with
  | label hname => exact absurd hw List.not_mem_nil
  | bare hop => exact absurd hw List.not_mem_nil
  | register hop hr =>
    rw [List.mem_singleton.1 hw]
    exact hword hr.isCodeWord
  | address hop hlabel =>
    rw [List.mem_singleton.1 hw]
    exact hword (hlabel.isToken (by decide)).isCodeWord
  | storeLiteral hdest =>
    rcases List.mem_pair.1 hw with rfl | rfl
    · exact hword (isToken_hexByte _).isCodeWord
    · exact hword hdest.isCodeWord
  | storeNumber hr hdest =>
    rcases List.mem_pair.1 hw with rfl | rfl
    · exact hword hr.isCodeWord
    · exact hword hdest.isCodeWord
  | pair hop hstor hr hdest =>
    rcases List.mem_pair.1 hw with rfl | rfl
    · exact hword hr.isCodeWord
    · exact hword hdest.isCodeWord
  | tile hid =>
    rcases List.mem_cons.1 hw with rfl | hw
    · exact hword (isToken_toString _).isCodeWord
    · obtain ⟨b, -, rfl⟩ := List.mem_map.1 hw
      exact hword (isToken_hexByte b).isCodeWord
  | text hr hchars hlength =>
    rcases List.mem_pair.1 hw with rfl | rfl
    · exact hword hr.isCodeWord
    · rw [List.dropLast_concat]
      exact hstring hchars
  | selector hr hne hchars hlength =>
    rw [operandTexts_selector] at hw
    rcases List.mem_cons.1 hw with rfl | hw
    · exact hword hr.isCodeWord
    · obtain ⟨o, ho, rfl⟩ := List.mem_map.1 hw
      exact hstring (hchars o ho)

/-- The operands read back. -/
theorem parseOperands_operandTexts (hop : i.opcode? = some op) :
    parseOperands op (" ".intercalate i.operandTexts).toList = .ok i := by
  cases h with
  | label hname => exact absurd hop (by simp [opcode?])
  | bare hshape =>
    obtain rfl := Option.some.inj hop
    rw [parseOperands, hshape]
    rfl
  | register hshape hr =>
    obtain rfl := Option.some.inj hop
    exact parseOperands_register hshape hr
  | address hshape hlabel =>
    obtain rfl := Option.some.inj hop
    exact parseOperands_address hshape hlabel
  | @storeLiteral b dest hdest =>
    obtain rfl := Option.some.inj hop
    have hsource : parseSource .stor (Source.literal b).written.toList = .ok (.literal b) :=
      parseSource_sourceText .stor b
    exact parseOperands_pair rfl (isToken_hexByte b).isCodeWord hsource hdest
  | storeNumber hr hdest =>
    obtain rfl := Option.some.inj hop
    exact parseOperands_pair rfl hr.isCodeWord (parseSource_written_register hr) hdest
  | @pair op r dest hshape hstor hr hdest =>
    obtain rfl := Option.some.inj hop
    have hsource : parseSource op (Source.register r).written.toList = .ok (.register r) := by
      rw [parseSource, if_neg hstor, Source.written, hr.parse_written_eq (by decide)]
      rfl
    exact parseOperands_pair hshape hr.isCodeWord hsource hdest
  | tile hid =>
    obtain rfl := Option.some.inj hop
    exact parseOperands_tile hid
  | text hr hchars hlength =>
    obtain rfl := Option.some.inj hop
    exact parseOperands_text hr hchars hlength
  | selector hr hne hchars hlength =>
    obtain rfl := Option.some.inj hop
    exact parseOperands_selector hr hne hchars hlength

/-- **An admissible instruction reads back.** -/
theorem parse_written (hop : i.opcode? = some op) :
    IsCodeLine i.written.toList ∧ parse i.written.toList = .ok i := by
  rw [written_eq_intercalate hop]
  refine ⟨isCodeLine_intercalate op fun _ ↦ h.operandTexts_isCode, ?_⟩
  rw [parse_intercalate op fun _ hw ↦ (h.operandTexts_isCode hw).1]
  exact h.parseOperands_operandTexts hop

end Admissible

end Instruction

/-! ### Programs read back -/

/-- A line of code without a comment is read as an instruction. -/
theorem ParsedLine.ofLine_of_isCodeLine {text : List Char} (h : IsCodeLine text) :
    ofLine text = ofInstruction (Instruction.parse text) := by
  have hne : text.isEmpty = false := by simpa using h.isTrimmed.ne_nil
  rw [ofLine, SourceLine.ofText_of_isCodeLine h, SourceLine.parsed, if_neg (by simp [hne]),
    parse_of_head?_ne h.head_ne]

/-- The line of an admissible instruction gives the instruction and has neither a break nor a
comment in it. -/
theorem ParsedLine.ofLine_written {i : Instruction} (h : i.Admissible) :
    i.written.toList ≠ [] ∧ (∀ c ∈ i.written.toList, Quoted.isCodeChar c = true) ∧
      ofLine i.written.toList = { instructions := [i.undocumented] } := by
  rcases hlabel : i.isLabel with _ | _
  · obtain ⟨op, hop⟩ : ∃ op, i.opcode? = some op := by
      cases i with
      | label name doc => exact absurd hlabel (by simp [Instruction.isLabel])
      | _ => exact ⟨_, rfl⟩
    obtain ⟨hcode, hparse⟩ := h.parse_written hop
    rw [ofLine_of_isCodeLine hcode, hparse, Instruction.undocumented_of_isLabel hlabel]
    exact ⟨hcode.isTrimmed.ne_nil, hcode.isCodeChar, rfl⟩
  · obtain ⟨name, doc, rfl⟩ := Instruction.eq_label_of_isLabel hlabel
    obtain ⟨hname⟩ := h
    have hwritten : (Instruction.label name doc).written.toList = ':' :: name.toList := by
      simp [Instruction.written]
    have hcode := (hname.isToken (by decide)).isCodeWord
    rw [hwritten, ofLine_colon (Name.isSpelled_iff.1 hname), String.ofList_toList]
    exact ⟨by simp, List.forall_mem_cons.2 ⟨by decide, fun c hc ↦ (hcode.2 c hc).2⟩, rfl⟩

/-- The source of a program, an instruction a line. -/
def Program.written (p : Program) : String := "\n".intercalate (p.map Instruction.written)

/-- **A program of admissible instructions reads back**, apart from the documentation of its labels,
which is not written. -/
theorem compile_written {p : Program} (h : ∀ i ∈ p, i.Admissible) :
    compile p.written = { program := p.undocumented, errors := [] } := by
  have hread : ∀ i ∈ p, _ := fun i hi ↦ ParsedLine.ofLine_written (h i hi)
  have hnotMem : ∀ {c : Char}, Quoted.isCodeChar c = false → ∀ i ∈ p, c ∉ i.written.toList :=
    fun hc i hi hmem ↦ absurd ((hread i hi).2.1 _ hmem) (by simp [hc])
  have hlines : lines p.written.toList = p.map fun i ↦ i.written.toList := by
    rw [Program.written, lines_intercalate, List.map_map]
    · rfl
    · intro t ht
      obtain ⟨i, hi, rfl⟩ := List.mem_map.1 ht
      exact ⟨(hread i hi).1, hnotMem rfl i hi, hnotMem rfl i hi⟩
  have hundocumented : (compile p.written).program.undocumented = p.undocumented := by
    rw [undocumented_compile, hlines, List.flatMap_map, Program.undocumented,
      List.map_eq_flatMap]
    exact List.flatMap_congr fun i hi ↦ by rw [(hread i hi).2.2]
  have herrors : (compile p.written).errors = [] := by
    rw [← List.map_eq_nil_iff, map_error_errors_compile, hlines, List.flatMap_map,
      List.flatMap_eq_nil_iff]
    exact fun i hi ↦ by rw [(hread i hi).2.2]; rfl
  have hcomments : ∀ line ∈ SourceLine.scan p.written, line.comment? = none := by
    intro line hline
    obtain ⟨⟨raw, number⟩, hraw, rfl⟩ := List.mem_map.1 hline
    have hraw := List.fst_mem_of_mem_zipIdx hraw
    rw [hlines] at hraw
    obtain ⟨i, hi, rfl⟩ := List.mem_map.1 hraw
    exact congrArg _ (SourceLine.ofText_of_notMem (hnotMem rfl i hi) number)
  rw [undocumented_program_of_no_comments hcomments] at hundocumented
  rw [← hundocumented, ← herrors]

/-- **What sources can hold, exactly.** Every instruction of every source, whether the source has
errors or not, is admissible: it has no values, and it is a label, an instruction with the operands
that the table gives to its opcode, or one of the drawing instructions with strings that fit. Every
row of admissible instructions is in turn all that some source without errors holds, but for the
documentation of labels. -/
theorem compile_gives_exactly_admissible :
    (∀ source, ∀ i ∈ (compile source).program, i.Admissible) ∧
      ∀ p : Program, (∀ i ∈ p, i.Admissible) →
        ∃ source, compile source = { program := p.undocumented, errors := [] } := by
  constructor
  · intro source i hi
    obtain ⟨hwf, hunbound⟩ := wellFormed_and_unbound_of_mem_compile hi
    exact hwf.admissible hunbound
  · intro p hp
    exact ⟨p.written, compile_written hp⟩

end TileAsm
