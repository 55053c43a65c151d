import TileAsm.Proofs.CodeLines
import TileAsm.Proofs.Disassembly
import TileAsm.Proofs.Renaming
import TileAsm.Proofs.Rereading

/-!
# Assembling a listing

A listing is a source again, as long as it shows nothing that a source writes in another way: an
address stands where a label should, and the number of a register where `&` and its name should. It
is the source of the same program, with two changes. The labels are gone, and each register is named
by its number (`Instruction.printed?_of_resolve`).

The second change is a renaming (`Program.isRenaming_listedName`) under one more condition, that no
fixed register but the accumulator is used: the others are not named by their numbers, so a listing
shows them as user registers. The rest is that each user register takes its own number again,
because their order of first mention is the order of their numbers.
-/

namespace TileAsm

open Text

/-! ### The names of a listing -/

/-- The name under which a listing shows a register. -/
def RegisterTable.listedName (t : RegisterTable) (name : String) : String :=
  RegisterRef.numberedName ((t.get? name).getD 0).toNat

theorem RegisterTable.listedName_of_get? {t : RegisterTable} {name : String} {number : UInt8}
    (h : t.get? name = some number) :
    t.listedName name = RegisterRef.numberedName number.toNat := by
  rw [listedName, h, Option.getD_some]

/-- Of the names that are numbers, only that of the accumulator is fixed. -/
theorem fixedNumber?_numberedName {n : Nat} (hlt : n < 128) (hne : n ≠ 0) :
    fixedNumber? (RegisterRef.numberedName n) = none := by
  have hall : ∀ n < 128, n ≠ 0 → fixedNumber? (RegisterRef.numberedName n) = none := by
    decide +kernel
  exact hall n hlt hne

/-- **A listing renames registers.** The accumulator keeps its name, and a user register is named
by a number that no other register has. -/
theorem Program.isRenaming_listedName {p : Program} {t : RegisterTable} (ht : p.allocate = .ok t)
    (hfixed : ∀ r ∈ p.registers, r.name = "r0" ∨ fixedNumber? r.name = none) :
    p.IsRenaming t.listedName := by
  have hcap := length_user_le_of_allocate ht
  constructor
  · intro r hr s hs heq
    obtain ⟨m, hm⟩ := exists_get?_of_allocate ht hr
    obtain ⟨n, hn⟩ := exists_get?_of_allocate ht hs
    rw [RegisterTable.listedName_of_get? hm, RegisterTable.listedName_of_get? hn] at heq
    have hmn : m = n := UInt8.toNat_inj.1 (RegisterRef.numberedName_inj heq)
    exact RegisterTable.get?_inj hcap hm (hmn ▸ hn)
  · intro r hr
    rcases hfixed r hr with hzero | hnone
    · have hget : t.get? "r0" = some 0 := t.get?_of_fixed (by decide +kernel)
      rw [hzero, RegisterTable.listedName_of_get? hget]
      decide +kernel
    · obtain ⟨n, hn⟩ := exists_get?_of_allocate ht hr
      obtain ⟨place, -, -, hnumber⟩ := RegisterTable.exists_place_of_get? hcap hnone hn
      have hpos : 0 < firstUserNumber := by decide
      rw [RegisterTable.listedName_of_get? hn, hnone]
      exact fixedNumber?_numberedName (RegisterTable.get?_lt hcap hn) (by omega)

/-- The byte of a register reads as its number and its mode. -/
theorem RegisterRef.ofByte_encode {r : RegisterRef} (hvalue : r.value = none)
    (hmode : r.mode ≠ .addressOf) {number : UInt8} (hnumber : number.toNat < 128) :
    ofByte (r.mode.encode number) = { r with name := numberedName number.toNat } := by
  obtain ⟨name, mode, value⟩ := r
  cases hvalue
  cases mode with
  | direct =>
    have hlow : number < 0x80 := hnumber
    show ofByte number = _
    rw [ofByte, if_pos hlow, Nat.mod_eq_of_lt hnumber]
  | indirect =>
    have hor : (number ||| 0x80).toNat = number.toNat + 128 :=
      RegisterMode.indirect.toNat_encode hnumber
    have hhigh : ¬ (number ||| 0x80) < 0x80 := by
      rw [UInt8.lt_iff_toNat_lt, hor]
      exact Nat.not_lt.2 (Nat.le_add_left 128 number.toNat)
    show ofByte (number ||| 0x80) = _
    rw [ofByte, if_neg hhigh, hor, Nat.add_mod_right, Nat.mod_eq_of_lt hnumber]
  | addressOf => exact absurd rfl hmode

/-- A register operand is bound to a byte that a listing prints under the operand's new name. -/
theorem Program.exists_byte_of_mem_registers {p : Program} {t : RegisterTable}
    (ht : p.allocate = .ok t) {r : RegisterRef} (hr : r ∈ p.registers) (hvalue : r.value = none)
    (hmode : r.mode ≠ .addressOf) :
    ∃ b, ((t.get? r.name).elim r r.bindTo).value = some b ∧
      RegisterRef.ofByte b = r.rename t.listedName := by
  obtain ⟨number, hnumber⟩ := exists_get?_of_allocate ht hr
  have hlt := RegisterTable.get?_lt (length_user_le_of_allocate ht) hnumber
  refine ⟨r.mode.encode number, by rw [hnumber]; rfl, ?_⟩
  rw [RegisterRef.ofByte_encode hvalue hmode hlt, RegisterRef.rename,
    RegisterTable.listedName_of_get? hnumber]

/-! ### The instructions of a listing -/

section Instructions

variable {p : Program} {t : RegisterTable} {labels : LabelTable} {i : Instruction} {d : Decoded}

/-- A listing prints an instruction with its registers renamed. -/
theorem Instruction.printed?_of_resolve (ht : p.allocate = .ok t) (hi : i ∈ p) (hwf : i.WellFormed)
    (hunbound : i.Unbound) (htarget : i.target? = none)
    (hmode : ∀ r ∈ i.registers, r.mode ≠ .addressOf)
    (hd : (i.resolve t labels).decoded? = some d) :
    d.printed? = some (i.mapRegisters (RegisterRef.rename t.listedName)) := by
  have hbyte : ∀ r ∈ i.registers, ∃ b, ((t.get? r.name).elim r r.bindTo).value = some b ∧
      RegisterRef.ofByte b = r.rename t.listedName := fun r hr ↦
    Program.exists_byte_of_mem_registers ht (List.mem_flatMap.2 ⟨i, hi, hr⟩) (hunbound.1 r hr)
      (hmode r hr)
  cases hwf with
  | label hname => cases hd
  | bare hop =>
    cases hd
    rfl
  | @register op r hop hr hm =>
    obtain ⟨b, hb, hname⟩ := hbyte r (by simp [registers])
    have hd : ((t.get? r.name).elim r r.bindTo).value.map _ = some d := hd
    rw [hb] at hd
    cases hd
    show some (register op (.ofByte b)) = some (register op (r.rename _))
    rw [hname]
  | address hop hname => cases htarget
  | @pair op source dest hop hsource hdest hm =>
    obtain ⟨c, hc, hdname⟩ := hbyte dest (by simp [registers])
    cases source with
    | literal v =>
      have hstor : op = .stor := hsource
      have hd : ((t.get? dest.name).elim dest dest.bindTo).value.map _ = some d := hd
      rw [hc] at hd
      cases hd
      show some (pair op (printedSource op v) (.ofByte c)) =
        some (pair op (.literal v) (dest.rename _))
      rw [hdname, printedSource, if_pos hstor]
    | register r =>
      have hr : r ∈ registers (.pair op (.register r) dest) := by
        simp [registers, Source.register?]
      have hstor : op ≠ .stor := fun heq ↦ hmode r hr (hsource.2.2 heq)
      obtain ⟨b, hb, hsname⟩ := hbyte r hr
      have hd : (((t.get? r.name).elim r r.bindTo).value.bind fun b ↦
          ((t.get? dest.name).elim dest dest.bindTo).value.bind _) = some d := hd
      rw [hb, hc] at hd
      cases hd
      show some (pair op (printedSource op b) (.ofByte c)) =
        some (pair op (.register (r.rename _)) (dest.rename _))
      rw [hdname, printedSource, if_neg hstor, hsname]
  | tile hid =>
    cases hd
    rfl
  | @text r bytes hr hm hbytes hlength =>
    obtain ⟨b, hb, hname⟩ := hbyte r (by simp [registers])
    have hd : ((t.get? r.name).elim r r.bindTo).value.map _ = some d := hd
    rw [hb] at hd
    cases hd
    show some (text (.ofByte b) (bytes.dropLast ++ [0])) = some (text (r.rename _) bytes)
    rw [hname, hbytes.isTerminated.dropLast_append]
  | @selector r options hr hm hne hoptions hlength =>
    obtain ⟨b, hb, hname⟩ := hbyte r (by simp [registers])
    have hmap := IsTerminated.map_dropLast_append fun o ho ↦ (hoptions o ho).isTerminated
    have hd : ((t.get? r.name).elim r r.bindTo).value.map _ = some d := hd
    rw [hb] at hd
    cases hd
    show some (selector (.ofByte b) ((options.map List.dropLast).map (· ++ [0]))) =
      some (selector (r.rename _) options)
    rw [hname, hmap]

theorem Instruction.WellFormed.rename_listedName (h : i.WellFormed) :
    (i.mapRegisters (RegisterRef.rename t.listedName)).WellFormed :=
  h.mapRegisters (fun _ _ ↦ RegisterRef.isRegister_numberedName _) fun _ ↦ rfl

end Instructions

/-! ### Listings as sources -/

/-- The text of the line of an instruction. -/
def Instruction.lineText (i : Instruction) : String := (i.decoded?.map Decoded.render).getD ""

theorem Program.map_text_listing {p : Program}
    (h : ∀ i ∈ p, i.isLabel = false → ∃ d, i.decoded? = some d) (base : Nat) :
    (p.listing base).map ListingLine.text = p.code.map Instruction.lineText := by
  induction p generalizing base with
  | nil => rfl
  | cons i p ih =>
    have ih := ih (fun j hj ↦ h j (by simp [hj])) (base + i.size)
    rw [listing, List.map_append, ih, code_cons, Instruction.line?]
    cases hlabel : i.isLabel with
    | true =>
      obtain ⟨name, doc, rfl⟩ := Instruction.eq_label_of_isLabel hlabel
      rfl
    | false =>
      obtain ⟨d, hd⟩ := h i (by simp) hlabel
      simp [Instruction.lineText, hd]

theorem isCodeLine_render {d : Decoded} {i : Instruction} (hprinted : d.printed? = some i)
    (hwf : i.WellFormed) : IsCodeLine d.render.toList :=
  isCodeLine_intercalate d.op fun _ ↦ Decoded.word_of_printed hprinted hwf

section Sources

variable {source : String} {a : Assembly} (ha : (compile source).program.assemble = .ok a)
  (htarget : ∀ i ∈ (compile source).program, i.target? = none)
  (hmode : ∀ r ∈ (compile source).program.registers, r.mode ≠ .addressOf)
  (hoptions : ∀ i ∈ (compile source).program, ¬ i.HasEmptyOption)

include ha htarget hmode hoptions

/-- Every line shows a record, and the record shows the instruction with its registers renamed. -/
theorem exists_printed_of_mem_compile {i : Instruction} (hi : i ∈ (compile source).program)
    (hlabel : i.isLabel = false) :
    ∃ d, (i.resolve a.registers a.labels).decoded? = some d ∧ d.Readable ∧
      d.printed? = some (i.mapRegisters (RegisterRef.rename a.registers.listedName)) := by
  obtain ⟨hregisters, -, hprogram, himage⟩ := Program.assemble_eq_ok_iff.1 ha
  have hmem : i.resolve a.registers a.labels ∈ a.program := by
    rw [hprogram]
    exact List.mem_map_of_mem hi
  have hempty : ¬ (i.resolve a.registers a.labels).HasEmptyOption := fun hempty ↦
    hoptions i hi (Instruction.hasEmptyOption_resolve.1 hempty)
  obtain ⟨bytes, hbytes⟩ := Program.exists_encode_of_mem himage hmem
  obtain ⟨d, hd, -, -, hreadable⟩ := Instruction.exists_decoded_of_encode
    (wellFormed_of_mem_compile hi).resolve (Instruction.isLabel_resolve.trans hlabel) hbytes
  exact ⟨d, hd, hreadable hempty, Instruction.printed?_of_resolve hregisters hi
    (wellFormed_of_mem_compile hi) (unbound_of_mem_compile hi) (htarget i hi)
    (fun r hr ↦ hmode r (List.mem_flatMap.2 ⟨i, hi, hr⟩)) hd⟩

/-- **A listing compiles to the program that it lists**, without its labels and with its registers
renamed. -/
theorem compile_listing :
    compile ("\n".intercalate
        ((Image.listing { base := 0, bytes := a.image }).map ListingLine.text)) =
      { program := (compile source).program.code.renameRegisters a.registers.listedName,
        errors := [] } := by
  obtain ⟨-, hlisting⟩ := listing_eq_of_assemble ha hoptions 0
  obtain ⟨-, -, hprogram, -⟩ := Program.assemble_eq_ok_iff.1 ha
  have hprinted := @exists_printed_of_mem_compile source a ha htarget hmode hoptions
  -- the texts of the listing are those of the instructions that are no labels
  have htexts : (Image.listing { base := 0, bytes := a.image }).map ListingLine.text =
      (compile source).program.code.map fun i ↦ (i.resolve a.registers a.labels).lineText := by
    rw [hlisting, hprogram, Program.map_text_listing, Program.code_resolve, Program.resolve,
      List.map_map]
    · rfl
    · intro j hj hlabel
      obtain ⟨i, hi, rfl⟩ := List.mem_map.1 hj
      obtain ⟨d, hd, -⟩ := hprinted hi (Instruction.isLabel_resolve ▸ hlabel)
      exact ⟨d, hd⟩
  have hline : ∀ i ∈ (compile source).program.code,
      ∃ d : Decoded, (i.resolve a.registers a.labels).lineText = d.render ∧ d.Readable ∧
        d.printed? = some (i.mapRegisters (RegisterRef.rename a.registers.listedName)) ∧
        (i.mapRegisters (RegisterRef.rename a.registers.listedName)).WellFormed := by
    intro i hi
    obtain ⟨hi, hlabel⟩ := List.mem_filter.1 hi
    obtain ⟨d, hd, hreadable, hprint⟩ := hprinted hi (by simpa using hlabel)
    refine ⟨d, ?_, hreadable, hprint, (wellFormed_of_mem_compile hi).rename_listedName⟩
    rw [Instruction.lineText, hd]
    rfl
  rw [htexts]
  refine compile_intercalate ?_ ?_
  · intro i hi
    obtain ⟨d, htext, -, hprint, hwf⟩ := hline i hi
    rw [htext]
    exact isCodeLine_render hprint hwf
  · intro i hi
    obtain ⟨d, htext, hreadable, hprint, hwf⟩ := hline i hi
    rw [htext]
    exact Instruction.parse_render hreadable hprint hwf

end Sources

/-- **Assembling a listing gives its image back.** The source may have labels, as long as nothing
jumps to them; it must not take the number of a register with `&`, use a fixed register other than
the accumulator, or offer an empty option. -/
theorem assemble_listing_of_assembled_source {source : String} {keepGoing : Bool}
    {image : List UInt8} (h : assemble source keepGoing = .ok image)
    (haddress : ∀ op target, Instruction.address op target ∉ (compile source).program)
    (hmode : ∀ r ∈ (compile source).program.registers, r.mode ≠ .addressOf)
    (hfixed : ∀ r ∈ (compile source).program.registers,
      r.name = "r0" ∨ fixedNumber? r.name = none)
    (hoptions : ∀ r options, Instruction.selector r options ∈ (compile source).program →
      [0] ∉ options) :
    let text := "\n".intercalate
      ((Image.listing { base := 0, bytes := image }).map ListingLine.text)
    assemble text true = .ok image ∧ (compile text).errors = [] := by
  intro text
  obtain ⟨a, ha, rfl⟩ := exists_assembly_of_assemble h
  have htarget : ∀ i ∈ (compile source).program, i.target? = none := by
    intro i hi
    cases i with
    | address op target => exact absurd hi (haddress op target)
    | _ => rfl
  have hempty : ∀ i ∈ (compile source).program, ¬ i.HasEmptyOption :=
    fun i hi ↦ Instruction.not_hasEmptyOption fun r options heq ↦ hoptions r options (heq ▸ hi)
  have hcompile := compile_listing ha htarget hmode hempty
  have hregisters := (Program.assemble_eq_ok_iff.1 ha).1
  obtain ⟨a', ha', himage⟩ := Program.exists_assemble_renameRegisters_code ha
    (fun i hi ↦ unbound_of_mem_compile hi) htarget (Program.isRenaming_listedName hregisters hfixed)
  refine ⟨?_, by rw [hcompile]⟩
  rw [assemble_source_eq, if_neg (by simp), hcompile]
  exact map_eq_ok_iff.2 ⟨a', ha', himage⟩

/-- A label that nothing jumps to, registers that are mentioned in another order than that of their
names, and strings that have to be quoted. -/
theorem assemble_listing_of_quoted_strings :
    let source := ":la STOR 65 *rb\nDTXT ra \"\\\"\\\\\"\nDSEL r0 \"b \"\"c\""
    let image := [0x08, 0x41, 0x85, 0x18, 0x06, 0x22, 0x5C, 0x00, 0x19, 0x00, 0x62, 0x20, 0x00,
      0x63, 0x00, 0x00]
    let text := "\n".intercalate
      ((Image.listing { base := 0, bytes := image }).map ListingLine.text)
    assemble source false = .ok image ∧
      (∀ op target, Instruction.address op target ∉ (compile source).program) ∧
      (∀ r ∈ (compile source).program.registers, r.mode ≠ .addressOf) ∧
      (∀ r ∈ (compile source).program.registers, r.name = "r0" ∨ fixedNumber? r.name = none) ∧
      (∀ r options, Instruction.selector r options ∈ (compile source).program →
        [0] ∉ options) ∧
      assemble text true = .ok image ∧ (compile text).errors = [] := by
  intro source image text
  have h : assemble source false = .ok image := by decide +kernel
  have hprogram : (compile source).program =
      [.label "la" [], .pair .stor (.literal 65) { name := "rb", mode := .indirect },
        .text { name := "ra", mode := .direct } [0x22, 0x5C, 0],
        .selector { name := "r0", mode := .direct } [[0x62, 0x20, 0], [0x63, 0]]] := by
    decide +kernel
  have haddress : ∀ op target, Instruction.address op target ∉ (compile source).program := by
    intro op target
    rw [hprogram]
    simp
  have hmode : ∀ r ∈ (compile source).program.registers, r.mode ≠ .addressOf := by
    rw [hprogram]
    decide
  have hfixed : ∀ r ∈ (compile source).program.registers,
      r.name = "r0" ∨ fixedNumber? r.name = none := by
    rw [hprogram]
    decide +kernel
  have hoptions : ∀ r options, Instruction.selector r options ∈ (compile source).program →
      [0] ∉ options := by
    intro r options hmem
    simp only [hprogram, List.mem_cons, reduceCtorEq, Instruction.selector.injEq, List.not_mem_nil,
      or_false, false_or] at hmem
    rw [hmem.2]
    decide
  exact ⟨h, haddress, hmode, hfixed, hoptions,
    assemble_listing_of_assembled_source h haddress hmode hfixed hoptions⟩

end TileAsm
