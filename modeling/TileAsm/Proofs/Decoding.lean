import Mathlib.Data.List.TakeWhile
import TileAsm.Decoded.Basic
import TileAsm.Proofs.Emission
import TileAsm.Proofs.WellFormed

/-!
# Decoding what was encoded

An image has no marks between its instructions: where one ends is decided by its own bytes. The
laws here are therefore stated with arbitrary bytes behind what is decoded.

`Operands.encode` writes operands back as the bytes that they are read from. Decoding inverts it on
the operands that are **readable**: those of the right shape whose strings hold no terminator, and
whose options are not empty, since an empty option ends a selector. Nothing else about operands
matters, so non-ASCII strings and tile numbers above 63 are readable as well.

`Instruction.decoded?` is the record that a bound instruction stands for, and
`exists_decoded_of_encode` puts the two encoders together: the bytes of an instruction are those of
its record. What the parser guarantees (`Instruction.WellFormed`) enters here and nowhere else: it
gives the agreement of opcode and shape, and strings with one terminator at their end.
-/

namespace TileAsm

/-- Defining a tile, drawing a text and drawing a choice have one opcode each. -/
theorem Opcode.eq_of_shape_eq {op : Opcode} (op' : Opcode) (h : op.shape = op'.shape)
    (hone : op'.shape ∈ [Shape.tile, .text, .selector]) : op = op' := by
  have hall : ∀ a ∈ all, ∀ b ∈ all, a.shape = b.shape → b.shape ∈ [Shape.tile, .text, .selector] →
      a = b := by decide +kernel
  exact hall op (mem_all op) op' (mem_all op') h hone

namespace Operands

/-! ### Strings -/

/-- A string is cut behind its first terminator. -/
theorem cutString?_append {chars : List UInt8} (h : 0 ∉ chars) (rest : List UInt8) :
    cutString? (chars ++ 0 :: rest) = some (chars, rest) := by
  have hpos : ∀ b ∈ chars, (b != 0) = true := by
    intro b hb
    simp only [bne_iff_ne, ne_eq]
    rintro rfl
    exact h hb
  rw [cutString?, List.dropWhile_append_of_pos hpos, List.takeWhile_append_of_pos hpos]
  simp

/-- Strings are read up to the empty one that ends them, whatever follows it. -/
theorem strings?_append {options : List (List UInt8)} (h : ∀ o ∈ options, o ≠ [] ∧ 0 ∉ o)
    (rest : List UInt8) :
    strings? (options.flatMap (· ++ [0]) ++ 0 :: rest) = some options := by
  induction options with
  | nil =>
    have hempty := cutString?_append (List.not_mem_nil (a := 0)) rest
    rw [List.nil_append] at hempty
    rw [List.flatMap_nil, List.nil_append, strings?_eq_bind, hempty]
    rfl
  | cons o options ih =>
    obtain ⟨hne, hzero⟩ := h o (by simp)
    have hcut := cutString?_append hzero (options.flatMap (· ++ [0]) ++ 0 :: rest)
    have hempty : o.isEmpty = false := by simpa using hne
    have hsplit : (o :: options).flatMap (· ++ [0]) ++ 0 :: rest =
        o ++ 0 :: (options.flatMap (· ++ [0]) ++ 0 :: rest) := by
      simp
    -- only an empty string ends the row, and `o` is not empty
    rw [hsplit, strings?_eq_bind, hcut]
    show (if o.isEmpty = true then some [] else (strings? _).map (o :: ·)) = _
    rw [hempty, if_neg (by simp), ih fun o ho ↦ h o (by simp [ho])]
    rfl

/-! ### Operands -/

/-- The bytes that operands are read from. -/
def encode : Operands → List UInt8
  | bare => []
  | register r => [r]
  | address a => Address.toBytes a
  | pair source dest => [source, dest]
  | tile id rows => id :: rows.toList
  | text r chars => r :: (chars ++ [0])
  | selector r options => r :: (options.flatMap (· ++ [0]) ++ [0])

/-- Operands that an image can hold behind an opcode of the given shape. -/
inductive Readable : Shape → Operands → Prop
  | bare : Readable .bare .bare
  | register (r : UInt8) : Readable .register (.register r)
  | address (a : UInt16) : Readable .address (.address a)
  | pair (source dest : UInt8) : Readable .pair (.pair source dest)
  | tile (id : UInt8) (rows : TileRows) : Readable .tile (.tile id rows)
  /-- A text ends at its first terminator. -/
  | text (r : UInt8) {chars : List UInt8} (h : 0 ∉ chars) : Readable .text (.text r chars)
  /-- A selector ends at its first empty option. -/
  | selector (r : UInt8) {options : List (List UInt8)} (h : ∀ o ∈ options, o ≠ [] ∧ 0 ∉ o) :
    Readable .selector (.selector r options)

/-- The shape of operands. -/
def shape : Operands → Shape
  | bare => .bare
  | register _ => .register
  | address _ => .address
  | pair _ _ => .pair
  | tile _ _ => .tile
  | text _ _ => .text
  | selector _ _ => .selector

theorem Readable.shape_eq {shape : Shape} {operands : Operands} (h : Readable shape operands) :
    operands.shape = shape := by
  rcases h <;> rfl

theorem length_encode (operands : Operands) : operands.encode.length = operands.width := by
  cases operands with
  | tile id rows => simp [encode, width]
  | text r chars =>
    simp only [encode, width, List.length_cons, List.length_append, List.length_nil]
    omega
  | selector r options =>
    have hlength :
        (options.flatMap (· ++ [0])).length = options.flatten.length + options.length := by
      induction options with
      | nil => rfl
      | cons o options ih =>
        simp only [List.flatMap_cons, List.length_append, List.flatten_cons, List.length_cons,
          List.length_nil, ih]
        omega
    simp only [encode, width, List.length_cons, List.length_append, List.length_nil, hlength]
    omega
  | _ => rfl

/-- A tile is made of the eight bytes that its rows are. -/
theorem exists_eq_ofBytes (rows : TileRows) :
    ∃ a b c d e f g h, rows = .ofBytes a b c d e f g h := by
  obtain ⟨⟨bytes⟩, hsize⟩ := rows
  match bytes, hsize with
  | [a, b, c, d, e, f, g, h], _ => exact ⟨a, b, c, d, e, f, g, h, rfl⟩

/-- **Decoding inverts encoding**, whatever bytes follow. -/
theorem ofBytes?_encode_append {shape : Shape} {operands : Operands} (h : Readable shape operands)
    (rest : List UInt8) : ofBytes? shape (operands.encode ++ rest) = some operands := by
  cases h with
  | bare => rfl
  | register r => rfl
  | address a => exact congrArg (fun a ↦ some (Operands.address a)) (Address.ofBytes_toBytes a)
  | pair source dest => rfl
  | tile id rows =>
    obtain ⟨a, b, c, d, e, f, g, h, rfl⟩ := exists_eq_ofBytes rows
    rfl
  | text r hchars =>
    simp only [encode, List.cons_append, List.append_assoc, List.nil_append, ofBytes?,
      cutString?_append hchars]
    rfl
  | selector r hoptions =>
    simp only [encode, List.cons_append, List.append_assoc, List.nil_append, ofBytes?,
      strings?_append hoptions]
    rfl

end Operands

namespace Decoded

/-- The bytes that an instruction is decoded from. -/
def encode (d : Decoded) : List UInt8 := d.op.code :: d.operands.encode

/-- An instruction that an image can hold. -/
def Readable (d : Decoded) : Prop := Operands.Readable d.op.shape d.operands

theorem length_encode (d : Decoded) : d.encode.length = d.width := by
  rw [encode, List.length_cons, Operands.length_encode, width, Nat.add_comm]

/-- **What is encoded is decoded again, whatever follows it.** -/
theorem ofBytes?_encode_append {d : Decoded} (h : d.Readable) (rest : List UInt8) :
    ofBytes? (d.encode ++ rest) = some d := by
  have hoperands := Operands.ofBytes?_encode_append h rest
  rw [encode, List.cons_append, ofBytes?, Opcode.ofByte?_code]
  show (Operands.ofBytes? d.op.shape (d.operands.encode ++ rest)).bind _ = _
  rw [hoperands]
  rfl

end Decoded

/-! ### The record of an instruction -/

namespace Instruction

/-- The record that a bound instruction is decoded as: its opcode and the values of its operands,
strings without their terminators. A label has none. -/
def decoded? : Instruction → Option Decoded
  | label _ _ => none
  | bare op => some { op, operands := .bare }
  | register op r => r.value.map fun b ↦ { op, operands := .register b }
  | address op t => t.value.map fun a ↦ { op, operands := .address a }
  | pair op (.literal v) dest => dest.value.map fun b ↦ { op, operands := .pair v b }
  | pair op (.register r) dest => do return { op, operands := .pair (← r.value) (← dest.value) }
  | tile id rows => some { op := .tile, operands := .tile id rows }
  | text r bytes => r.value.map fun b ↦ { op := .dtxt, operands := .text b bytes.dropLast }
  | selector r options =>
    r.value.map fun b ↦ { op := .dsel, operands := .selector b (options.map List.dropLast) }

/-- Whether an instruction offers a choice of nothing: an option that is only its terminator. -/
def HasEmptyOption : Instruction → Prop
  | selector _ options => [0] ∈ options
  | _ => False

end Instruction

/-! ### Terminators -/

/-- A row of bytes that ends at its first terminator. -/
def IsTerminated (bytes : List UInt8) : Prop :=
  ∃ chars : List UInt8, bytes = chars ++ [0] ∧ 0 ∉ chars

/-- The strings of a source are among those that can be decoded. -/
theorem IsString.isTerminated {bytes : List UInt8} (h : IsString bytes) : IsTerminated bytes := by
  obtain ⟨chars, rfl, hchars⟩ := h
  refine ⟨chars, rfl, fun hmem ↦ ?_⟩
  exact absurd (List.all_eq_true.1 hchars 0 hmem) (by decide)

namespace IsTerminated

variable {bytes : List UInt8}

/-- A string is its bytes and its terminator. -/
theorem dropLast_append (h : IsTerminated bytes) : bytes.dropLast ++ [0] = bytes := by
  obtain ⟨chars, rfl, -⟩ := h
  rw [List.dropLast_concat]

theorem zero_notMem_dropLast (h : IsTerminated bytes) : 0 ∉ bytes.dropLast := by
  obtain ⟨chars, rfl, hchars⟩ := h
  rwa [List.dropLast_concat]

theorem dropLast_eq_nil_iff (h : IsTerminated bytes) : bytes.dropLast = [] ↔ bytes = [0] := by
  obtain ⟨chars, rfl, -⟩ := h
  simp

/-- Terminators that are taken away can be put back. -/
theorem map_dropLast_append {options : List (List UInt8)} (h : ∀ o ∈ options, IsTerminated o) :
    (options.map List.dropLast).map (· ++ [0]) = options := by
  rw [List.map_map]
  exact (List.map_congr_left fun o ho ↦ (h o ho).dropLast_append).trans (List.map_id _)

end IsTerminated

namespace Instruction

/-- **The bytes of an instruction are those of its record.** An empty option is encoded as well; it
only keeps the record from being read back. -/
theorem exists_decoded_of_encode {i : Instruction} {bytes : List UInt8} (hwf : i.WellFormed)
    (hlabel : i.isLabel = false) (h : i.encode = .ok bytes) :
    ∃ d, i.decoded? = some d ∧ i.opcode? = some d.op ∧ d.encode = bytes ∧
      (¬ i.HasEmptyOption → d.Readable) := by
  cases hwf with
  | label hname => cases hlabel
  | @bare op hop =>
    cases h
    refine ⟨_, rfl, rfl, rfl, fun _ ↦ ?_⟩
    rw [Decoded.Readable, hop]
    exact .bare
  | @register op r hop hr hmode =>
    obtain ⟨b, hb, h⟩ := bind_eq_ok_iff.1 h
    cases h
    refine ⟨{ op, operands := .register b }, ?_, rfl, rfl, fun _ ↦ ?_⟩
    · rw [decoded?, RegisterRef.resolved_eq_ok_iff.1 hb]
      rfl
    · rw [Decoded.Readable, hop]
      exact .register b
  | @address op t hop hname =>
    obtain ⟨a, ha, h⟩ := bind_eq_ok_iff.1 h
    cases h
    refine ⟨{ op, operands := .address a }, ?_, rfl, rfl, fun _ ↦ ?_⟩
    · rw [decoded?, LabelRef.resolved_eq_ok_iff.1 ha]
      rfl
    · rw [Decoded.Readable, hop]
      exact .address a
  | @pair op source dest hop hsource hdest hmode =>
    obtain ⟨v, hv, h⟩ := bind_eq_ok_iff.1 h
    obtain ⟨b, hb, h⟩ := bind_eq_ok_iff.1 h
    cases h
    refine ⟨{ op, operands := .pair v b }, ?_, rfl, rfl, fun _ ↦ ?_⟩
    · cases source with
      | literal w =>
        cases hv
        rw [decoded?, RegisterRef.resolved_eq_ok_iff.1 hb]
        rfl
      | register r =>
        rw [decoded?, RegisterRef.resolved_eq_ok_iff.1 hv, RegisterRef.resolved_eq_ok_iff.1 hb]
        rfl
    · rw [Decoded.Readable, hop]
      exact .pair v b
  | @tile id rows hid =>
    cases h
    exact ⟨_, rfl, rfl, rfl, fun _ ↦ .tile id rows⟩
  | @text r chars hr hmode hchars hlength =>
    obtain ⟨b, hb, h⟩ := bind_eq_ok_iff.1 h
    cases h
    refine ⟨{ op := .dtxt, operands := .text b chars.dropLast }, ?_, rfl, ?_, fun _ ↦ ?_⟩
    · rw [decoded?, RegisterRef.resolved_eq_ok_iff.1 hb]
      rfl
    · rw [Decoded.encode, Operands.encode, hchars.isTerminated.dropLast_append]
    · exact .text b hchars.isTerminated.zero_notMem_dropLast
  | @selector r options hr hmode hne hoptions hlength =>
    obtain ⟨b, hb, h⟩ := bind_eq_ok_iff.1 h
    cases h
    refine ⟨{ op := .dsel, operands := .selector b (options.map List.dropLast) }, ?_, rfl, ?_, ?_⟩
    · rw [decoded?, RegisterRef.resolved_eq_ok_iff.1 hb]
      rfl
    · have hmap := IsTerminated.map_dropLast_append fun o ho ↦ (hoptions o ho).isTerminated
      rw [Decoded.encode, Operands.encode, List.flatMap_def, hmap]
    · intro hempty
      refine .selector b fun _ hmem ↦ ?_
      obtain ⟨o, ho, rfl⟩ := List.mem_map.1 hmem
      have hterminated := (hoptions o ho).isTerminated
      refine ⟨fun hnil ↦ hempty ?_, hterminated.zero_notMem_dropLast⟩
      show [0] ∈ options
      rwa [← hterminated.dropLast_eq_nil_iff.1 hnil]

end Instruction

end TileAsm
