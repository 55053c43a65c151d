import TileAsm.Proofs.Delimiting

/-!
# Encoding what was decoded

A record has fewer parts than an instruction: it holds the byte of a register, but neither its name
nor its mode, and an address without the label. An instruction **stands for** a record if it holds
the same values, whatever its operands are called (`Instruction.StandsFor`). The relation is about
values only. It allows what no source can hold, such as an indirect operand of `ADDI`, a tile number
above 63, bytes that cannot be printed or a selector without options.

`encode_of_decoded` says that encoding undoes decoding: whatever a row of bytes decodes to, every
instruction that stands for it is encoded as the bytes that were decoded. Two facts are put together
for this. The bytes of a record are a prefix of what it was decoded from
(`Decoded.take_width_of_ofBytes?`), and an instruction has the bytes of its record
(`StandsFor.encode_eq`). The second needs the instruction table: an instruction that defines a tile
or draws strings does not say its opcode, so there must be one opcode for each of these shapes
(`Opcode.eq_of_shape_eq`).
-/

namespace TileAsm

namespace Instruction

/-! ### The instructions that stand for a record -/

/-- The instruction holds the values of the record. Names and modes are not part of a record, and
neither are the terminators of strings. -/
inductive StandsFor : Instruction → Decoded → Prop
  | bare (op : Opcode) : StandsFor (.bare op) ⟨op, .bare⟩
  | register (op : Opcode) {r : RegisterRef} {b : UInt8} (hr : r.value = some b) :
    StandsFor (.register op r) ⟨op, .register b⟩
  | address (op : Opcode) {t : LabelRef} {a : UInt16} (ht : t.value = some a) :
    StandsFor (.address op t) ⟨op, .address a⟩
  /-- The source of `STOR` is a number. -/
  | store (v : UInt8) {dest : RegisterRef} {b : UInt8} (hdest : dest.value = some b) :
    StandsFor (.pair .stor (.literal v) dest) ⟨.stor, .pair v b⟩
  /-- Every other source is a register. -/
  | pair {op : Opcode} (hop : op ≠ .stor) {source dest : RegisterRef} {v b : UInt8}
    (hsource : source.value = some v) (hdest : dest.value = some b) :
    StandsFor (.pair op (.register source) dest) ⟨op, .pair v b⟩
  | tile (op : Opcode) (id : UInt8) (rows : TileRows) :
    StandsFor (.tile id rows) ⟨op, .tile id rows⟩
  | text (op : Opcode) {r : RegisterRef} {b : UInt8} (hr : r.value = some b) (chars : List UInt8) :
    StandsFor (.text r (chars ++ [0])) ⟨op, .text b chars⟩
  | selector (op : Opcode) {r : RegisterRef} {b : UInt8} (hr : r.value = some b)
    (options : List (List UInt8)) :
    StandsFor (.selector r (options.map (· ++ [0]))) ⟨op, .selector b options⟩

/-- Every record has such an instruction. -/
theorem exists_standsFor (d : Decoded) : ∃ i : Instruction, i.StandsFor d := by
  obtain ⟨r, hr⟩ : ∃ r : UInt8 → RegisterRef, ∀ b, (r b).value = some b :=
    ⟨fun b ↦ { name := "r0", mode := .direct, value := some b }, fun _ ↦ rfl⟩
  match d with
  | ⟨op, .bare⟩ => exact ⟨_, .bare op⟩
  | ⟨op, .register b⟩ => exact ⟨_, .register op (hr b)⟩
  | ⟨op, .address a⟩ => exact ⟨.address op { label := "l0", value := some a }, .address op rfl⟩
  | ⟨op, .pair v b⟩ =>
    by_cases hop : op = .stor
    · subst hop
      exact ⟨_, .store v (hr b)⟩
    · exact ⟨_, .pair hop (hr v) (hr b)⟩
  | ⟨op, .tile id rows⟩ => exact ⟨_, .tile op id rows⟩
  | ⟨op, .text b chars⟩ => exact ⟨_, .text op (hr b) chars⟩
  | ⟨op, .selector b options⟩ => exact ⟨_, .selector op (hr b) options⟩

namespace StandsFor

variable {i : Instruction} {d : Decoded}

theorem shape?_eq (h : i.StandsFor d) : i.shape? = some d.operands.shape := by
  rcases h <;> rfl

/-- The opcode that an instruction does not say is the only one of its shape. -/
theorem opcode?_eq (h : i.StandsFor d) (hd : d.Readable) : i.opcode? = some d.op := by
  have hshape : d.op.shape = d.operands.shape := hd.shape_eq.symm
  rcases h with _ | _ | _ | _ | _ | op | op | op
  case tile => rw [Opcode.eq_of_shape_eq .tile hshape (by decide)]; rfl
  case text => rw [Opcode.eq_of_shape_eq .dtxt hshape (by decide)]; rfl
  case selector => rw [Opcode.eq_of_shape_eq .dsel hshape (by decide)]; rfl
  all_goals rfl

/-- **An instruction has the bytes of the record that it stands for.** -/
theorem encode_eq (h : i.StandsFor d) (hd : d.Readable) : i.encode = .ok d.encode := by
  have hop := h.opcode?_eq hd
  rcases h with op | ⟨op, hr⟩ | ⟨op, ht⟩ | ⟨v, hdest⟩ | ⟨-, hsource, hdest⟩ | op | ⟨op, hr, chars⟩ |
    ⟨op, hr, options⟩
  case bare => rfl
  case register => rw [encode, RegisterRef.resolved_eq_ok_iff.2 hr]; rfl
  case address => rw [encode, LabelRef.resolved_eq_ok_iff.2 ht]; rfl
  case store => rw [encode, RegisterRef.resolved_eq_ok_iff.2 hdest]; rfl
  case pair =>
    rw [encode, Source.resolved, RegisterRef.resolved_eq_ok_iff.2 hsource,
      RegisterRef.resolved_eq_ok_iff.2 hdest]
    rfl
  case tile =>
    obtain rfl : Opcode.tile = op := Option.some.inj hop
    rfl
  case text =>
    obtain rfl : Opcode.dtxt = op := Option.some.inj hop
    rw [encode, RegisterRef.resolved_eq_ok_iff.2 hr]
    rfl
  case selector =>
    obtain rfl : Opcode.dsel = op := Option.some.inj hop
    rw [encode, RegisterRef.resolved_eq_ok_iff.2 hr, Decoded.encode, Operands.encode,
      List.flatMap_def]
    rfl

end StandsFor

end Instruction

/-! ### Decoding and encoding again -/

/-- **Encoding undoes decoding.** Whatever a row of bytes decodes to, there are instructions that
stand for it, and each of them has the opcode that was decoded and the variant of its shape, takes
as many bytes as were decoded, and is encoded as these bytes. -/
theorem encode_of_decoded {code : List UInt8} {d : Decoded} (h : Decoded.ofBytes? code = some d) :
    d.width ≤ code.length ∧ (∃ i : Instruction, i.StandsFor d) ∧
      ∀ i : Instruction, i.StandsFor d →
        i.shape? = some d.op.shape ∧ i.opcode? = some d.op ∧ i.size = d.width ∧
          i.encode = .ok (code.take d.width) := by
  have hd : d.Readable := (Decoded.ofBytes?_eq_some_iff.1 h).1
  obtain ⟨hle, htake⟩ := Decoded.take_width_of_ofBytes? h
  refine ⟨hle, Instruction.exists_standsFor d, fun i hi ↦ ?_⟩
  have hencode := hi.encode_eq hd
  refine ⟨?_, hi.opcode?_eq hd, ?_, ?_⟩
  · rw [hi.shape?_eq, hd.shape_eq]
  · rw [← Instruction.length_of_encode hencode, d.length_encode]
  · rw [htake, hencode]

/-- A selector without options and an addition of an indirect register, neither of which a source
can hold, with other bytes behind them. -/
theorem encode_of_unwritable_records :
    let r : RegisterRef := { name := "rx", mode := .indirect, value := some 0xff }
    Decoded.ofBytes? [0x19, 0xff, 0x00, 0x61] = some ⟨.dsel, .selector 0xff []⟩ ∧
      (Instruction.selector r []).encode = .ok [0x19, 0xff, 0x00] ∧
      Decoded.ofBytes? [0x0a, 0xff, 0x19] = some ⟨.addi, .register 0xff⟩ ∧
      (Instruction.register .addi r).encode = .ok [0x0a, 0xff] := by
  intro r
  have hselector : Decoded.ofBytes? [0x19, 0xff, 0x00, 0x61] = some ⟨.dsel, .selector 0xff []⟩ := by
    decide +kernel
  have hregister : Decoded.ofBytes? [0x0a, 0xff, 0x19] = some ⟨.addi, .register 0xff⟩ := by
    decide +kernel
  obtain ⟨-, -, hselectors⟩ := encode_of_decoded hselector
  obtain ⟨-, -, hregisters⟩ := encode_of_decoded hregister
  exact ⟨hselector, (hselectors _ (.selector .dsel rfl [])).2.2.2, hregister,
    (hregisters _ (.register .addi rfl)).2.2.2⟩

end TileAsm
