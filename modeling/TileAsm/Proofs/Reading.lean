import TileAsm.Proofs.Decoding
import TileAsm.Proofs.Numerals
import TileAsm.Proofs.Quoting

/-!
# Printed operands read back

A decoded instruction is printed as its mnemonic and its operands, with spaces between them. The
reader cuts off the mnemonic, which decides the shape of the operands
(`Instruction.parse_render_eq`), and then there is one lemma for each shape, about the reader of
that shape and the operands as they are printed. The readers refuse some of them, such as a tile
number above 63, which a record can hold and a source cannot; the lemmas say what happens then, too.
-/

namespace TileAsm

open Text

/-! ### Mnemonics -/

/-- The mnemonic of an instruction names it. -/
theorem Opcode.ofMnemonic?_mnemonic (op : Opcode) : ofMnemonic? op.mnemonic.toList = some op := by
  cases op <;> decide +kernel

/-- A word names an instruction exactly if it is the mnemonic in capitals. -/
theorem Opcode.ofMnemonic?_eq_some_iff {word : List Char} {op : Opcode} :
    ofMnemonic? word = some op ↔ word.map Char.toUpper = op.mnemonic.toList := by
  constructor
  · intro h
    have hfound : op.mnemonic = String.ofList (word.map Char.toUpper) := by
      simpa using List.find?_some h
    rw [hfound, String.toList_ofList]
  · intro h
    have hcapitals : op.mnemonic.toList.map Char.toUpper = op.mnemonic.toList := by
      cases op <;> decide
    rw [← op.ofMnemonic?_mnemonic, ofMnemonic?, ofMnemonic?, h, hcapitals]

theorem Opcode.isToken_mnemonic (op : Opcode) : IsToken op.mnemonic.toList := by
  refine isToken_of_all ?_
  cases op <;> decide +kernel

/-- A printed instruction is its mnemonic and then each operand behind a space. -/
theorem Decoded.toList_render (d : Decoded) :
    d.render.toList =
      spaced d.op.mnemonic.toList ((d.operands.words d.op).map String.toList) :=
  toList_intercalate_space d.op.mnemonic (d.operands.words d.op)

namespace Instruction

/-- The first token decides the reader of the operands. -/
theorem parse_eq_parseOperands {text : List Char} {op : Opcode}
    (h : (cutToken text).1.map Char.toUpper = op.mnemonic.toList) :
    parse text = parseOperands op (cutToken text).2 := by
  rw [parse]
  simp only [Opcode.ofMnemonic?_eq_some_iff.2 h]

/-- A line whose first token is a mnemonic is read by the reader of its operands. -/
theorem parse_of_cutToken {text params : List Char} {op : Opcode}
    (h : cutToken text = (op.mnemonic.toList, params)) : parse text = parseOperands op params := by
  rw [parse, h]
  simp only [op.ofMnemonic?_mnemonic]

/-- The mnemonic in front of operands is cut off, and the operands are read. -/
theorem parse_intercalate (op : Opcode) {operands : List String}
    (h : ∀ w ∈ operands, IsTrimmed w.toList) :
    parse (" ".intercalate (op.mnemonic :: operands)).toList =
      parseOperands op (" ".intercalate operands).toList := by
  refine parse_of_cutToken ?_
  rw [toList_intercalate_space]
  rcases operands with _ | ⟨first, others⟩
  · rw [List.map_nil, spaced_nil, cutToken_of_isToken op.isToken_mnemonic]
    rfl
  · rw [toList_intercalate_space, List.map_cons, cutToken_spaced op.isToken_mnemonic]
    intro s hs
    rw [← List.map_cons (f := String.toList)] at hs
    obtain ⟨w, hw, rfl⟩ := List.mem_map.1 hs
    exact h w hw

/-- The operands of a printed line are read by the reader of its instruction. -/
theorem parse_render_eq {d : Decoded} (h : ∀ w ∈ d.operands.words d.op, IsTrimmed w.toList) :
    parse d.render.toList =
      parseOperands d.op (" ".intercalate (d.operands.words d.op)).toList :=
  parse_intercalate d.op h

/-! ### One lemma per shape -/

/-- A single register is read back if it is direct. An indirect one is refused. -/
theorem parseRegister_registerText (op : Opcode) (b : UInt8) :
    parseRegister op (registerText b).toList =
      if b < 0x80 then .ok (.register op (.ofByte b))
      else .error (.indirectRegister op (registerText b)) := by
  rw [parseRegister, RegisterRef.parse_registerText, ok_bind, String.ofList_toList]
  by_cases hb : b < 0x80
  · simp [RegisterRef.ofByte, hb]
  · simp [RegisterRef.ofByte, hb]

/-- The source that the first byte of a pair is printed as. -/
def printedSource (op : Opcode) (b : UInt8) : Source :=
  if op = .stor then .literal b else .register (.ofByte b)

/-- The text of the first byte of a pair. -/
def sourceText (op : Opcode) (b : UInt8) : String :=
  if op = .stor then hexByte b else registerText b

theorem isToken_sourceText (op : Opcode) (b : UInt8) : IsToken (sourceText op b).toList := by
  rw [sourceText]
  split
  · exact isToken_hexByte b
  · exact isToken_registerText b

/-- A printed source is read back: as a number behind `STOR`, and as a register anywhere else. -/
theorem parseSource_sourceText (op : Opcode) (b : UInt8) :
    parseSource op (sourceText op b).toList = .ok (printedSource op b) := by
  rw [parseSource, sourceText, printedSource]
  by_cases hop : op = .stor
  · have himmediate : Source.parseImmediate (hexByte b).toList =
        (Literal.parse (hexByte b).toList).map .literal := by
      rw [Literal.toList_hexByte]
      rfl
    rw [if_pos hop, if_pos hop, if_pos hop, himmediate, Literal.parse_hexByte]
    rfl
  · rw [if_neg hop, if_neg hop, if_neg hop, RegisterRef.parse_registerText]
    rfl

/-- A source and a destination are read back. -/
theorem parsePair_spaced (op : Opcode) (source dest : UInt8) :
    parsePair op (spaced (sourceText op source).toList [(registerText dest).toList]) =
      .ok (.pair op (printedSource op source) (.ofByte dest)) := by
  have hwords : words (spaced (sourceText op source).toList [(registerText dest).toList]) =
      [(sourceText op source).toList, (registerText dest).toList] :=
    words_spaced (by simp [isToken_sourceText, isToken_registerText])
  rw [parsePair, hwords]
  dsimp only
  rw [parseSource_sourceText, ok_bind, RegisterRef.parse_registerText, ok_bind]
  rfl

/-- The number of a tile is read back if there is such a tile. -/
theorem parseTileId_toString (id : UInt8) :
    parseTileId (toString id.toNat).toList =
      if id > 63 then .error (.tileOutOfRange (toString id.toNat)) else .ok id := by
  rw [parseTileId, Literal.parse_toString, ok_bind, UInt8.ofNat_toNat, String.ofList_toList]
  rfl

/-- A tile is read back, with all of its rows, if there is one with its number. -/
theorem parseTile_spaced (id : UInt8) (rows : TileRows) :
    parseTile (spaced (toString id.toNat).toList (rows.toList.map fun b ↦ (hexByte b).toList)) =
      if id > 63 then .error (.tileOutOfRange (toString id.toNat)) else .ok (.tile id rows) := by
  obtain ⟨a, b, c, d, e, f, g, h, rfl⟩ := Operands.exists_eq_ofBytes rows
  rw [TileRows.toList_ofBytes]
  have hwords : words (spaced (toString id.toNat).toList
      ([a, b, c, d, e, f, g, h].map fun b ↦ (hexByte b).toList)) =
      [(toString id.toNat).toList, (hexByte a).toList, (hexByte b).toList, (hexByte c).toList,
        (hexByte d).toList, (hexByte e).toList, (hexByte f).toList, (hexByte g).toList,
        (hexByte h).toList] :=
    words_spaced (List.forall_mem_cons.2 ⟨isToken_toString id.toNat, by simp [isToken_hexByte]⟩)
  rw [parseTile, hwords]
  dsimp only
  rw [parseTileId_toString]
  by_cases hid : id > 63
  · rw [if_pos hid, if_pos hid, error_bind]
  · rw [if_neg hid, if_neg hid, ok_bind]
    simp only [Literal.parse_hexByte, ok_bind]
    rfl

/-- A quoted string stands between its quotes, so there is nothing to trim. -/
theorem isTrimmed_write (bytes : List UInt8) : IsTrimmed (Quoted.write bytes).toList := by
  have hquote : isBlank '"' = false := by decide
  rw [Quoted.toList_write]
  refine ⟨⟨'"', rfl, hquote⟩, ⟨'"', ?_, hquote⟩⟩
  rw [← List.cons_append, List.getLast?_concat]
  rfl

/-- The options of a selector as they are printed. -/
theorem toList_intercalate_write (first : List UInt8) (others : List (List UInt8)) :
    (" ".intercalate ((first :: others).map Quoted.write)).toList =
      spaced (Quoted.write first).toList (others.map fun o ↦ (Quoted.write o).toList) := by
  rw [List.map_cons, toList_intercalate_space, List.map_map]
  rfl

/-- Several quoted strings with spaces between them start and end with quotes. -/
theorem isTrimmed_intercalate_write (first : List UInt8) (others : List (List UInt8)) :
    IsTrimmed (" ".intercalate ((first :: others).map Quoted.write)).toList := by
  refine isTrimmed_intercalate fun w hw ↦ ?_
  obtain ⟨o, -, rfl⟩ := List.mem_map.1 (List.map_cons (f := Quoted.write) ▸ hw)
  exact isTrimmed_write o

/-- Strings that are put together with spaces hold nothing else. -/
theorem mem_intercalate_write {strings : List (List UInt8)} {c : Char}
    (hc : c ∈ (" ".intercalate (strings.map Quoted.write)).toList) :
    c = ' ' ∨ ∃ s ∈ strings, c ∈ (Quoted.write s).toList := by
  rcases strings with _ | ⟨first, others⟩
  · exact absurd hc List.not_mem_nil
  · rw [toList_intercalate_write] at hc
    rcases mem_spaced hc with rfl | ⟨s, hs, hc⟩
    · exact .inl rfl
    · rw [← List.map_cons (f := fun o ↦ (Quoted.write o).toList)] at hs
      obtain ⟨o, ho, rfl⟩ := List.mem_map.1 hs
      exact .inr ⟨o, ho, hc⟩

/-- The register in front of strings is read back, and what follows it is left to the reader of
strings. -/
theorem parsePosition_of_cutToken (op : Opcode) {b : UInt8} {params rest : List Char}
    (h : cutToken params = ((registerText b).toList, rest)) :
    parsePosition op params = .ok (.ofByte b, rest) := by
  have hne : params.isEmpty = false := by
    rw [List.isEmpty_eq_false_iff]
    rintro rfl
    exact (isToken_registerText b).1 (congrArg Prod.fst h).symm
  rw [parsePosition, if_neg (by simp [hne]), h]
  dsimp only
  rw [RegisterRef.parse_registerText, ok_bind]
  rfl

theorem parsePosition_spaced (op : Opcode) (b : UInt8) {first : List Char}
    {others : List (List Char)} (h : ∀ s ∈ first :: others, IsTrimmed s) :
    parsePosition op (spaced (registerText b).toList (first :: others)) =
      .ok (.ofByte b, spaced first others) :=
  parsePosition_of_cutToken op (cutToken_spaced (isToken_registerText b) h)

/-- A drawn text is read back, up to the check of its length. -/
theorem parseText_spaced (b : UInt8) {chars : List UInt8}
    (h : chars.all isPrintableByte = true) :
    parseText (spaced (registerText b).toList [(Quoted.write chars).toList]) =
      (checkPayload (chars.length + 1)).map fun _ ↦ .text (.ofByte b) (chars ++ [0]) := by
  have hwrite : ∀ s ∈ [(Quoted.write chars).toList], IsTrimmed s := by
    simpa using isTrimmed_write chars
  have hparse : StringLiteral.parse (Quoted.write chars).toList = .ok (chars ++ [0], []) := by
    have hblanks : ([] : List Char).all isBlank = true := rfl
    simpa using StringLiteral.parse_write h hblanks []
  rw [parseText, parsePosition_spaced .dtxt b hwrite, ok_bind]
  dsimp only
  rw [spaced_nil, hparse, ok_bind]
  have hblank : isBlankText [] = true := rfl
  dsimp only
  rw [if_pos hblank, List.length_append, List.length_singleton]
  rfl

/-- A drawn choice is read back, up to the check of its length, if there is an option to choose. -/
theorem parseSelector_spaced (b : UInt8) {first : List UInt8} {others : List (List UInt8)}
    (h : ∀ o ∈ first :: others, o.all isPrintableByte = true) :
    parseSelector (spaced (registerText b).toList [(" ".intercalate
        ((first :: others).map Quoted.write)).toList]) =
      (checkPayload (((first :: others).map (· ++ [0])).flatten.length + 1)).map fun _ ↦
        .selector (.ofByte b) ((first :: others).map (· ++ [0])) := by
  have hparse : StringLiteral.parseMany
      (" ".intercalate ((first :: others).map Quoted.write)).toList =
        .ok ((first :: others).map (· ++ [0])) := by
    have hblanks : ([] : List Char).all isBlank = true := rfl
    rw [toList_intercalate_write]
    simpa using StringLiteral.parseMany_write (h first (by simp))
      (fun o ho ↦ h o (List.mem_cons_of_mem _ ho)) hblanks
  have htrimmed := isTrimmed_intercalate_write first others
  rw [parseSelector, parsePosition_spaced .dsel b (by simpa using htrimmed), ok_bind]
  dsimp only
  rw [spaced_nil, hparse, ok_bind]
  rfl

end Instruction

/-! ### Words of operands -/

namespace Operands

/-- The strings of operands, without their terminators. -/
def strings : Operands → List (List UInt8)
  | text _ chars => [chars]
  | selector _ options => options
  | bare | register _ | address _ | pair _ _ | tile _ _ => []

/-- Every word but that of the strings is a token. The latter is empty only in a selector without
options. -/
theorem isToken_or_eq_of_mem_words {op : Opcode} {operands : Operands} {w : String}
    (hw : w ∈ operands.words op) :
    IsToken w.toList ∨ w = " ".intercalate (operands.strings.map Quoted.write) ∧
      (operands.strings = [] → ∃ r, operands = .selector r []) := by
  cases operands with
  | bare => exact absurd hw List.not_mem_nil
  | register r => exact .inl (List.mem_singleton.1 hw ▸ isToken_registerText r)
  | address a => exact .inl (List.mem_singleton.1 hw ▸ isToken_hex 4 a.toNat)
  | pair source dest =>
    rcases List.mem_pair.1 hw with rfl | rfl
    · exact .inl (Instruction.isToken_sourceText op source)
    · exact .inl (isToken_registerText dest)
  | tile id rows =>
    rcases List.mem_cons.1 hw with rfl | hw
    · exact .inl (isToken_toString id.toNat)
    · obtain ⟨b, -, rfl⟩ := List.mem_map.1 hw
      exact .inl (isToken_hexByte b)
  | text r chars =>
    rcases List.mem_pair.1 hw with rfl | rfl
    · exact .inl (isToken_registerText r)
    · exact .inr ⟨by simp [strings], fun hnil ↦ absurd hnil (List.cons_ne_nil _ _)⟩
  | selector r options =>
    rcases List.mem_pair.1 hw with rfl | rfl
    · exact .inl (isToken_registerText r)
    · exact .inr ⟨rfl, fun hnil ↦ ⟨r, congrArg _ hnil⟩⟩

/-- No printed operand starts or ends with a blank. A choice without options is the one exception,
since its last operand is empty. -/
theorem isTrimmed_of_mem_words {op : Opcode} {operands : Operands}
    (hempty : ∀ r, operands ≠ .selector r []) {w : String} (hw : w ∈ operands.words op) :
    IsTrimmed w.toList := by
  rcases isToken_or_eq_of_mem_words hw with htoken | ⟨rfl, hstrings⟩
  · exact htoken.isTrimmed
  · cases hcons : operands.strings with
    | nil =>
      obtain ⟨r, hr⟩ := hstrings hcons
      exact absurd hr (hempty r)
    | cons first others => exact Instruction.isTrimmed_intercalate_write first others

end Operands

end TileAsm
