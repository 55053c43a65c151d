import TileAsm.Proofs.Delimiting
import TileAsm.Proofs.Reading

/-!
# The text of a record as an instruction

A record is printed as an instruction of the source language, with registers named by their numbers;
only a jump is not, since its address stands where a label should. `Decoded.printed?` is the
instruction that is printed. A record can hold what no source can, a tile number above 63 for
instance, so its text need not be accepted, and `Decoded.rejection?` says when it is not and why.

The two decide what the parser makes of the text, as long as the strings can be printed:
`Instruction.parse_render_eq_elim` is about all records but the jumps,
`Instruction.parse_render_jump` about these, and `reread_of_decoded` puts them together. That an
instruction of a source reads back (`Instruction.parse_render`) is the case in which nothing is
refused.
-/

namespace TileAsm

open Text

/-! ### What is printed, and what is refused -/

/-- The number of bytes that the strings of operands take, terminators included. -/
def Operands.payload : Operands → Nat
  | text _ chars => chars.length + 1
  | selector _ options => (options.map (· ++ [0])).flatten.length + 1
  | bare | register _ | address _ | pair _ _ | tile _ _ => 0

namespace Decoded

/-- The instruction that a record is printed as. A jump is printed with an address in place of its
label, which is no instruction. -/
def printed? (d : Decoded) : Option Instruction :=
  match d.operands with
  | .bare => some (.bare d.op)
  | .register r => some (.register d.op (.ofByte r))
  | .address _ => none
  | .pair source dest =>
    some (.pair d.op (Instruction.printedSource d.op source) (.ofByte dest))
  | .tile id rows => some (.tile id rows)
  | .text r chars => some (.text (.ofByte r) (chars ++ [0]))
  | .selector r options => some (.selector (.ofByte r) (options.map (· ++ [0])))

/-- Why the text of a record is refused, if it is. -/
def rejection? (d : Decoded) : Option ParseError :=
  match d.operands with
  | .bare | .pair _ _ => none
  | .register r => if r < 0x80 then none else some (.indirectRegister d.op (registerText r))
  | .address a => some (.notLabel (hex 4 a.toNat))
  | .tile id _ => if id > 63 then some (.tileOutOfRange (toString id.toNat)) else none
  -- nothing stands where the first string should
  | .selector _ [] => some (.notString "")
  | .text _ _ | .selector _ (_ :: _) =>
    if d.operands.payload > 128 then some (.stringTooLong d.operands.payload) else none

theorem eq_address_of_printed?_eq_none {d : Decoded} (h : d.printed? = none) :
    ∃ a, d.operands = .address a := by
  obtain ⟨op, operands⟩ := d
  cases operands
  case address a => exact ⟨a, rfl⟩
  all_goals exact absurd h (by simp [printed?])

/-- The printed instruction has the opcode of the record. -/
theorem opcode?_of_printed {d : Decoded} {i : Instruction} (hd : d.Readable)
    (hprinted : d.printed? = some i) : i.opcode? = some d.op := by
  obtain ⟨op, operands⟩ := d
  have hshape : op.shape = operands.shape := hd.shape_eq.symm
  cases operands
  case address => exact absurd hprinted (by simp [printed?])
  all_goals obtain rfl := Option.some.inj hprinted
  case tile => rw [Opcode.eq_of_shape_eq .tile hshape (by decide)]; rfl
  case text => rw [Opcode.eq_of_shape_eq .dtxt hshape (by decide)]; rfl
  case selector => rw [Opcode.eq_of_shape_eq .dsel hshape (by decide)]; rfl
  all_goals rfl

/-- None of its operands has a value. -/
theorem unbound_of_printed {d : Decoded} {i : Instruction} (hprinted : d.printed? = some i) :
    i.Unbound := by
  have hvalue : ∀ b, (RegisterRef.ofByte b).value = none := fun _ ↦ rfl
  have hsource : ∀ b, ∀ r ∈ (Instruction.printedSource d.op b).register?, r.value = none := by
    intro b r hr
    rw [Instruction.printedSource] at hr
    split at hr
    · exact absurd hr (by simp [Source.register?])
    · exact Option.some.inj hr ▸ hvalue b
  obtain ⟨op, operands⟩ := d
  cases operands
  case address => exact absurd hprinted (by simp [printed?])
  all_goals obtain rfl := Option.some.inj hprinted
  case pair source dest =>
    refine ⟨fun r hr ↦ ?_, by simp [Instruction.target?]⟩
    rcases List.mem_append.1 hr with hr | hr
    · exact hsource source r (Option.mem_toList.1 hr)
    · exact List.mem_singleton.1 hr ▸ hvalue dest
  all_goals simp [Instruction.Unbound, Instruction.registers, Instruction.target?, hvalue]

end Decoded

theorem IsString.all_isStringByte {chars : List UInt8} (h : IsString (chars ++ [0])) :
    chars.all isStringByte = true := by
  obtain ⟨chars', heq, hchars⟩ := h
  rw [List.append_cancel_right heq]
  exact hchars

theorem all_isPrintableByte {chars : List UInt8} (h : chars.all isStringByte = true) :
    chars.all isPrintableByte = true :=
  List.all_eq_true.2 fun b hb ↦ isPrintableByte_of_isStringByte (List.all_eq_true.1 h b hb)

/-- Nothing that a source can hold is refused, and its strings hold no semicolon. -/
theorem Decoded.rejection?_of_printed {d : Decoded} {i : Instruction}
    (hprinted : d.printed? = some i) (hwf : i.WellFormed) :
    d.rejection? = none ∧ ∀ s ∈ d.operands.strings, s.all isStringByte = true := by
  obtain ⟨op, operands⟩ := d
  cases operands with
  | bare => exact ⟨rfl, by simp [Operands.strings]⟩
  | register r =>
    cases hprinted
    cases hwf with
    | register hop hr hmode =>
      have hlow : r < 0x80 := by
        by_contra hhigh
        simp [RegisterRef.ofByte, hhigh] at hmode
      exact ⟨if_pos hlow, by simp [Operands.strings]⟩
  | address a => cases hprinted
  | pair source dest => exact ⟨rfl, by simp [Operands.strings]⟩
  | tile id rows =>
    cases hprinted
    cases hwf with
    | tile hid => exact ⟨if_neg (UInt8.not_lt.2 hid), by simp [Operands.strings]⟩
  | text r chars =>
    cases hprinted
    cases hwf with
    | text hr hmode hbytes hlength =>
      have hpayload : chars.length + 1 ≤ maxPayload := by simpa using hlength
      refine ⟨if_neg (Nat.not_lt.2 hpayload), ?_⟩
      simpa [Operands.strings] using hbytes.all_isStringByte
  | selector r options =>
    cases hprinted
    cases hwf with
    | selector hr hmode hne hoptions hlength =>
      obtain ⟨first, others, rfl⟩ : ∃ first others, options = first :: others :=
        List.exists_cons_of_ne_nil (by simpa using hne)
      exact ⟨if_neg (Nat.not_lt.2 hlength), fun o ho ↦
        (hoptions (o ++ [0]) (List.mem_map_of_mem ho)).all_isStringByte⟩

/-- The operands of a record that a source can hold are printed without blanks at their ends and
without a semicolon. -/
theorem Decoded.word_of_printed {d : Decoded} {i : Instruction} (hprinted : d.printed? = some i)
    (hwf : i.WellFormed) {w : String} (hw : w ∈ d.operands.words d.op) :
    IsTrimmed w.toList ∧ ∀ c ∈ w.toList, Quoted.isCodeChar c = true := by
  obtain ⟨haccepted, hstrings⟩ := rejection?_of_printed hprinted hwf
  have hempty : ∀ r, d.operands ≠ .selector r [] := fun r hr ↦ by
    simp [rejection?, hr] at haccepted
  refine ⟨Operands.isTrimmed_of_mem_words hempty hw, fun c hc ↦ ?_⟩
  rcases Operands.isToken_or_eq_of_mem_words hw with htoken | ⟨rfl, -⟩
  · exact Quoted.isCodeChar_of_isTokenChar (htoken.2 c hc)
  · rcases Instruction.mem_intercalate_write hc with rfl | ⟨s, hs, hc⟩
    · decide
    · exact Quoted.isCodeChar_of_mem_write (hstrings s hs) hc

/-! ### What is read -/

namespace Instruction

/-- A jump is refused, since an address is no label. -/
theorem parse_render_jump {op : Opcode} (hop : op.shape = .address) (a : UInt16) :
    parse (Decoded.render ⟨op, .address a⟩).toList = .error (.notLabel (hex 4 a.toNat)) := by
  rw [parse_render_eq fun w hw ↦ Operands.isTrimmed_of_mem_words (by simp) hw]
  show parseOperands op (" ".intercalate [hex 4 a.toNat]).toList = _
  have hlabel : Name.isLabel (hex 4 a.toNat).toList = false := by
    rw [Literal.toList_hex]
    rfl
  rw [toList_intercalate_space, List.map_nil, spaced_nil, parseOperands, hop]
  show parseAddress op _ = _
  rw [parseAddress, LabelRef.parse, if_neg (by simp [hlabel]), String.ofList_toList]
  rfl

/-- A selector without options is read up to its register. -/
theorem parse_render_of_no_options {op : Opcode} (hop : op.shape = .selector) (r : UInt8) :
    parse (Decoded.render ⟨op, .selector r []⟩).toList = .error (.notString "") := by
  have htoken := isToken_registerText r
  have hspace : isBlank ' ' = true := by decide
  have hcut : cutToken (Decoded.render ⟨op, .selector r []⟩).toList =
      (op.mnemonic.toList, (registerText r).toList) := by
    rw [Decoded.toList_render]
    show cutToken (spaced _ [(registerText r).toList, []]) = _
    rw [spaced_cons, spaced_cons, spaced_nil, cutToken_append_cons op.isToken_mnemonic hspace,
      trim_append_of_isBlank hspace, htoken.isTrimmed.trim_eq_self]
  have hposition : parsePosition .dsel (registerText r).toList = .ok (.ofByte r, []) :=
    parsePosition_of_cutToken .dsel (cutToken_of_isToken htoken)
  have hoptions : StringLiteral.parseMany [] = .error (.notString "") := by
    rw [StringLiteral.parseMany_eq_bind]
    rfl
  rw [parse_of_cutToken hcut, parseOperands, hop]
  show parseSelector _ = _
  rw [parseSelector, hposition, ok_bind]
  dsimp only
  rw [hoptions, error_bind]

theorem map_checkPayload (length : Nat) (i : Instruction) :
    (checkPayload length).map (fun _ ↦ i) =
      (if length > 128 then some (ParseError.stringTooLong length) else none).elim (.ok i)
        .error := by
  show Except.map _ (if length > 128 then _ else _) = _
  split <;> rfl

/-- **A record is read back unless it is refused.** The mnemonic decides the reader, so the record
has to have operands of its shape. -/
theorem parse_render_eq_elim {d : Decoded} {i : Instruction} (hd : d.Readable)
    (hprint : ∀ s ∈ d.operands.strings, s.all isPrintableByte = true)
    (hprinted : d.printed? = some i) :
    parse d.render.toList = d.rejection?.elim (.ok i) .error := by
  obtain ⟨op, operands⟩ := d
  have hread (hempty : ∀ r, operands ≠ .selector r []) :
      parse (Decoded.render ⟨op, operands⟩).toList =
        parseOperands op (" ".intercalate (operands.words op)).toList :=
    parse_render_eq fun w hw ↦ Operands.isTrimmed_of_mem_words hempty hw
  have hd : Operands.Readable op.shape operands := hd
  -- the shape is a function of the opcode, so it is made a variable before the cases
  generalize hshape : op.shape = shape at hd
  cases hd with
  | bare =>
    obtain rfl := Option.some.inj hprinted
    rw [hread (by simp), parseOperands, hshape]
    rfl
  | register r =>
    obtain rfl := Option.some.inj hprinted
    rw [hread (by simp), parseOperands, hshape]
    show parseRegister op (" ".intercalate [registerText r]).toList = _
    rw [toList_intercalate_space, List.map_nil, spaced_nil, parseRegister_registerText,
      Decoded.rejection?]
    dsimp only
    split <;> rfl
  | address a => exact absurd hprinted (by simp [Decoded.printed?])
  | pair source dest =>
    obtain rfl := Option.some.inj hprinted
    rw [hread (by simp), parseOperands, hshape]
    show parsePair op (" ".intercalate [sourceText op source, registerText dest]).toList = _
    rw [toList_intercalate_space]
    exact parsePair_spaced op source dest
  | tile id rows =>
    obtain rfl := Option.some.inj hprinted
    rw [hread (by simp), parseOperands, hshape]
    show parseTile (" ".intercalate (toString id.toNat :: rows.toList.map hexByte)).toList = _
    rw [toList_intercalate_space, List.map_map, Decoded.rejection?]
    refine (parseTile_spaced id rows).trans ?_
    dsimp only
    split <;> rfl
  | @text r chars hzero =>
    obtain rfl := Option.some.inj hprinted
    rw [hread (by simp), parseOperands, hshape]
    show parseText (" ".intercalate [registerText r, Quoted.write chars]).toList = _
    rw [toList_intercalate_space, List.map_singleton, parseText_spaced r (hprint chars (by
      simp [Operands.strings]))]
    exact map_checkPayload _ _
  | @selector r options hzero =>
    obtain rfl := Option.some.inj hprinted
    rcases options with _ | ⟨first, others⟩
    · exact parse_render_of_no_options hshape r
    · rw [hread (by simp), parseOperands, hshape]
      show parseSelector (" ".intercalate [registerText r,
        " ".intercalate ((first :: others).map Quoted.write)]).toList = _
      rw [toList_intercalate_space, List.map_singleton, parseSelector_spaced r hprint]
      exact map_checkPayload _ _

/-- **An instruction of a source reads back.** -/
theorem parse_render {d : Decoded} {i : Instruction} (hd : d.Readable)
    (hprinted : d.printed? = some i) (hwf : i.WellFormed) : parse d.render.toList = .ok i := by
  obtain ⟨haccepted, hstrings⟩ := Decoded.rejection?_of_printed hprinted hwf
  rw [parse_render_eq_elim hd (fun s hs ↦ all_isPrintableByte (hstrings s hs)) hprinted, haccepted]
  rfl

end Instruction

/-- **What becomes of the text of a decoded record** whose strings can be printed. The parser
refuses it exactly for the reason that the record gives, and accepts it exactly if there is none. It
then reads the instruction that was printed, which has the opcode of the record and no values. -/
theorem reread_of_decoded {code : List UInt8} {d : Decoded} (h : Decoded.ofBytes? code = some d)
    (hprint : ∀ s ∈ d.operands.strings, s.all isPrintableByte = true) :
    (∀ e, Instruction.parse d.render.toList = .error e ↔ d.rejection? = some e) ∧
      (∀ i, Instruction.parse d.render.toList = .ok i ↔
        d.rejection? = none ∧ d.printed? = some i) ∧
      ∀ i, d.printed? = some i → i.opcode? = some d.op ∧ i.Unbound := by
  have hd : d.Readable := (Decoded.ofBytes?_eq_some_iff.1 h).1
  rw [← and_assoc]
  refine ⟨?_, fun i hi ↦ ⟨Decoded.opcode?_of_printed hd hi, Decoded.unbound_of_printed hi⟩⟩
  cases hprinted : d.printed? with
  | none =>
    obtain ⟨a, ha⟩ := Decoded.eq_address_of_printed?_eq_none hprinted
    obtain ⟨op, operands⟩ := d
    obtain rfl : operands = .address a := ha
    rw [Instruction.parse_render_jump hd.shape_eq.symm a]
    simp [Decoded.rejection?]
  | some j =>
    rw [Instruction.parse_render_eq_elim hd hprint hprinted]
    cases d.rejection? <;> simp

/-- A text with spaces at its ends, a quote and a backslash is read back, and a selector without
options is not. -/
theorem reread_of_quotes_and_no_options :
    let text : Decoded := ⟨.dtxt, .text 0x85 [0x20, 0x22, 0x5C, 0x20, 0x20]⟩
    let selector : Decoded := ⟨.dsel, .selector 0x00 []⟩
    Decoded.ofBytes? [0x18, 0x85, 0x20, 0x22, 0x5C, 0x20, 0x20, 0x00, 0x61] = some text ∧
      Instruction.parse text.render.toList =
        .ok (.text { name := "r5", mode := .indirect } [0x20, 0x22, 0x5C, 0x20, 0x20, 0x00]) ∧
      Decoded.ofBytes? [0x19, 0x00, 0x00] = some selector ∧
      Instruction.parse selector.render.toList = .error (.notString "") := by
  intro text selector
  have htext : Decoded.ofBytes? [0x18, 0x85, 0x20, 0x22, 0x5C, 0x20, 0x20, 0x00, 0x61] =
      some text := by decide +kernel
  have hselector : Decoded.ofBytes? [0x19, 0x00, 0x00] = some selector := by decide +kernel
  have hprinted : text.printed? =
      some (.text { name := "r5", mode := .indirect } [0x20, 0x22, 0x5C, 0x20, 0x20, 0x00]) := by
    decide +kernel
  obtain ⟨-, haccepted, -⟩ := reread_of_decoded htext (by decide)
  obtain ⟨hrefused, -⟩ := reread_of_decoded hselector (by decide)
  exact ⟨htext, (haccepted _).2 ⟨rfl, hprinted⟩, hselector, (hrefused _).2 rfl⟩

end TileAsm
