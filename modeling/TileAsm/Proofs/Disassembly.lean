import TileAsm.Listing
import TileAsm.Proofs.Assembly
import TileAsm.Proofs.Reading

/-!
# Listing an assembled program

A listing is cut by the decoder alone, a program by its instructions. `Program.listing` is the
listing that a program should have, read off its instructions without looking at an image: one line
for each instruction that is not a label, at the offset that the sizes before it add up to. The two
agree on the image of every program that the parser lets through, as long as no option of a selector
is empty (`listing_eq_of_emit`). One line out of step would put every later one out of step, so this
is an induction along the program in which each step uses up exactly the bytes of one instruction.

The condition on options is needed. An empty option is two terminators in a row for the decoder, and
what follows it is read as code.
-/

namespace TileAsm

open Text

/-! ### The text of a line -/

/-- No printed instruction looks like a single byte. -/
theorem Decoded.render_ne_byte (d : Decoded) (s : String) : d.render ≠ ".byte" ++ s := by
  intro heq
  have hhead := congrArg (·.toList.head?) heq
  have hdot : (".byte" ++ s).toList.head? = some '.' := by simp
  rw [hdot, toList_render, spaced, List.head?_append] at hhead
  cases hop : d.op <;> simp [hop, Opcode.mnemonic, Opcode.entry] at hhead

/-! ### The listing of a program -/

/-- The line of an instruction at the given offset. A label has none. -/
def Instruction.line? (offset : Nat) (i : Instruction) : Option ListingLine :=
  i.decoded?.map fun d ↦ { offset, bytes := d.encode, text := d.render }

namespace Program

/-- The listing that a program should have when its image starts at the given offset. -/
def listing (offset : Nat) : Program → List ListingLine
  | [] => []
  | i :: rest => (i.line? offset).toList ++ listing (offset + i.size) rest

theorem listing_append (offset : Nat) (p q : Program) :
    listing offset (p ++ q) = listing offset p ++ listing (offset + p.size) q := by
  induction p generalizing offset with
  | nil => simp [listing]
  | cons i p ih => rw [List.cons_append, listing, listing, ih, size_cons, Nat.add_assoc,
      List.append_assoc]

end Program

/-- The line of what a row of bytes starts with, if that is an instruction. -/
theorem ListingLine.first_encode_append {d : Decoded} (h : d.Readable) (offset : Nat)
    (rest : List UInt8) :
    first offset d.op.code (d.operands.encode ++ rest) =
      { offset, bytes := d.encode, text := d.render } := by
  have hcons : d.op.code :: (d.operands.encode ++ rest) = d.encode ++ rest := rfl
  rw [first, hcons, Decoded.ofBytes?_encode_append h]
  show ({ offset, bytes := (d.encode ++ rest).take d.width, text := d.render } : ListingLine) = _
  rw [← d.length_encode, List.take_left]

/-- A listing starts with the instruction that its image starts with. -/
theorem ListingLine.collect_encode_append {d : Decoded} (h : d.Readable) (offset : Nat)
    (rest : List UInt8) :
    collect [] offset (d.encode ++ rest) =
      { offset, bytes := d.encode, text := d.render } :: collect [] (offset + d.width) rest := by
  have hcons : d.encode ++ rest = d.op.code :: (d.operands.encode ++ rest) := rfl
  rw [hcons, collect, first_encode_append h, collect_eq_append, ← hcons, List.drop_left,
    d.length_encode]
  rfl

theorem Program.listing_eq_of_emit {p : Program} {image : List UInt8} (h : p.emit = .ok image)
    (hwf : ∀ i ∈ p, i.WellFormed) (hoptions : ∀ i ∈ p, ¬ i.HasEmptyOption) (base : Nat) :
    Image.listing { base, bytes := image } = p.listing base := by
  show ListingLine.collect [] base image = _
  induction p generalizing image base with
  | nil =>
    cases h
    simp [ListingLine.collect, listing]
  | cons i p ih =>
    obtain ⟨bytes, rest, hbytes, hrest, rfl⟩ := emit_cons_eq_ok_iff.1 h
    have ih := ih hrest (fun j hj ↦ hwf j (by simp [hj])) (fun j hj ↦ hoptions j (by simp [hj]))
    rw [listing, Instruction.line?]
    cases hlabel : i.isLabel with
    | true =>
      -- a label has no bytes and no line
      obtain ⟨name, doc, rfl⟩ := Instruction.eq_label_of_isLabel hlabel
      cases hbytes
      exact ih base
    | false =>
      obtain ⟨d, hd, -, rfl, hreadable⟩ :=
        Instruction.exists_decoded_of_encode (hwf i (by simp)) hlabel hbytes
      have hsize : d.width = i.size := by
        rw [← d.length_encode, Instruction.length_of_encode hbytes]
      rw [ListingLine.collect_encode_append (hreadable (hoptions i (by simp))), hd, hsize, ih]
      rfl

namespace Program

variable {p : Program} {image : List UInt8}

/-- The lines of a listing are as many as the instructions that are not labels. -/
theorem length_listing (h : p.emit = .ok image) (hwf : ∀ i ∈ p, i.WellFormed) (base : Nat) :
    (p.listing base).length = p.countP (!·.isLabel) := by
  induction p generalizing image base with
  | nil => rfl
  | cons i p ih =>
    obtain ⟨bytes, rest, hbytes, hrest, rfl⟩ := emit_cons_eq_ok_iff.1 h
    rw [listing, List.length_append, ih hrest fun j hj ↦ hwf j (by simp [hj]), List.countP_cons,
      Nat.add_comm]
    congr 1
    cases hlabel : i.isLabel with
    | true =>
      obtain ⟨name, doc, rfl⟩ := Instruction.eq_label_of_isLabel hlabel
      rfl
    | false =>
      obtain ⟨d, hd, -⟩ := Instruction.exists_decoded_of_encode (hwf i (by simp)) hlabel hbytes
      rw [Instruction.line?, hd]
      rfl

/-- The line of an instruction stands behind those of the instructions before it. -/
theorem getElem?_listing {before after : Program} {i : Instruction} {line : ListingLine}
    (h : (before ++ i :: after).emit = .ok image) (hwf : ∀ j ∈ before ++ i :: after, j.WellFormed)
    (base : Nat) (hline : i.line? (base + size before) = some line) :
    (listing base (before ++ i :: after))[before.countP (!·.isLabel)]? = some line := by
  obtain ⟨front, -, hfront, -, -⟩ := emit_append_eq_ok_iff.1 h
  rw [← length_listing hfront (fun j hj ↦ hwf j (by simp [hj])) base, listing_append, listing,
    hline, List.getElem?_append_right (Nat.le_refl _), Nat.sub_self]
  rfl

theorem exists_render_of_mem_listing {base : Nat} {line : ListingLine}
    (h : line ∈ p.listing base) : ∃ d : Decoded, line.text = d.render := by
  induction p generalizing base with
  | nil => cases h
  | cons i p ih =>
    rcases List.mem_append.1 h with h | h
    · obtain ⟨d, -, rfl⟩ := Option.map_eq_some_iff.1 (Option.mem_toList.1 h)
      exact ⟨d, rfl⟩
    · exact ih h

end Program

/-- Resolving changes no option. -/
theorem Instruction.hasEmptyOption_resolve {registers : RegisterTable} {labels : LabelTable}
    {i : Instruction} : (i.resolve registers labels).HasEmptyOption ↔ i.HasEmptyOption := by
  cases i <;> exact Iff.rfl

theorem Instruction.not_hasEmptyOption {i : Instruction}
    (h : ∀ r options, i = .selector r options → [0] ∉ options) : ¬ i.HasEmptyOption := by
  cases i with
  | selector r options => exact h r options rfl
  | _ => exact not_false

/-- The listing of an assembled source is that of its resolved program. -/
theorem listing_eq_of_assemble {source : String} {a : Assembly}
    (ha : (compile source).program.assemble = .ok a)
    (hoptions : ∀ i ∈ (compile source).program, ¬ i.HasEmptyOption) (base : Nat) :
    (∀ i ∈ a.program, i.WellFormed) ∧
      Image.listing { base, bytes := a.image } = a.program.listing base := by
  obtain ⟨-, -, hprogram, himage⟩ := Program.assemble_eq_ok_iff.1 ha
  have hmem : ∀ i ∈ a.program, i.WellFormed ∧ ¬ i.HasEmptyOption := by
    intro i hi
    rw [hprogram] at hi
    obtain ⟨j, hj, rfl⟩ := List.mem_map.1 hi
    exact ⟨(wellFormed_of_mem_compile hj).resolve,
      fun hempty ↦ hoptions j hj (Instruction.hasEmptyOption_resolve.1 hempty)⟩
  exact ⟨fun i hi ↦ (hmem i hi).1,
    Program.listing_eq_of_emit himage (fun i hi ↦ (hmem i hi).1) (fun i hi ↦ (hmem i hi).2) base⟩

/-- **Disassembly recovers the assembled program.** The listing of an image, from whatever offset,
has one line for each instruction of the resolved program that is not a label, in their order: the
line shows the offset, the bytes and the record of its instruction. No byte is left over. -/
theorem listing_of_assembled_source {source : String} {keepGoing : Bool} {image : List UInt8}
    (h : assemble source keepGoing = .ok image)
    (hoptions : ∀ r options, Instruction.selector r options ∈ (compile source).program →
      [0] ∉ options)
    (base : Nat) :
    ∃ a, (compile source).program.assemble = .ok a ∧ a.image = image ∧
      let lines := Image.listing { base, bytes := image }
      lines.length = a.program.countP (!·.isLabel) ∧
      (∀ before i after, a.program = before ++ i :: after → i.isLabel = false →
        ∃ d bytes, i.decoded? = some d ∧ i.opcode? = some d.op ∧ d.width = i.size ∧
          i.encode = .ok bytes ∧
          lines[before.countP (!·.isLabel)]? =
            some { offset := base + Program.size before, bytes, text := d.render }) ∧
      ∀ line ∈ lines, ∀ s, line.text ≠ ".byte" ++ s := by
  obtain ⟨a, ha, rfl⟩ := exists_assembly_of_assemble h
  have hempty : ∀ i ∈ (compile source).program, ¬ i.HasEmptyOption :=
    fun i hi ↦ Instruction.not_hasEmptyOption fun r options heq ↦ hoptions r options (heq ▸ hi)
  obtain ⟨hwf, hlisting⟩ := listing_eq_of_assemble ha hempty base
  obtain ⟨-, -, -, himage⟩ := Program.assemble_eq_ok_iff.1 ha
  refine ⟨a, ha, rfl, ?_⟩
  dsimp only
  rw [hlisting]
  refine ⟨Program.length_listing himage hwf base, ?_, ?_⟩
  · intro before i after heq hlabel
    have hi : i ∈ a.program := by
      rw [heq]
      simp
    obtain ⟨bytes, hbytes⟩ := Program.exists_encode_of_mem himage hi
    obtain ⟨d, hd, hop, rfl, -⟩ := Instruction.exists_decoded_of_encode (hwf i hi) hlabel hbytes
    refine ⟨d, d.encode, hd, hop, ?_, hbytes, ?_⟩
    · rw [← d.length_encode, Instruction.length_of_encode hbytes]
    · rw [heq] at himage hwf ⊢
      exact Program.getElem?_listing himage hwf base (by rw [Instruction.line?, hd]; rfl)
  · intro line hline s hs
    obtain ⟨d, hd⟩ := Program.exists_render_of_mem_listing hline
    exact d.render_ne_byte s (hd ▸ hs)

/-- A selector between a label and a jump back to it is listed in step with both. -/
theorem listing_of_assembled_selector :
    let source := ":la DSEL *rx \"a\" \"b\"\nJUMP la"
    let image := [0x19, 0x85, 0x61, 0x00, 0x62, 0x00, 0x00, 0x10, 0x00, 0x00]
    assemble source false = .ok image ∧
      (∀ r options, Instruction.selector r options ∈ (compile source).program → [0] ∉ options) ∧
      ∃ a, (compile source).program.assemble = .ok a ∧ a.image = image ∧
        (Image.listing { base := 16, bytes := image }).length =
          a.program.countP (!·.isLabel) := by
  intro source image
  have h : assemble source false = .ok image := by decide +kernel
  have hprogram : (compile source).program =
      [.label "la" [], .selector { name := "rx", mode := .indirect } [[0x61, 0], [0x62, 0]],
        .address .jump { label := "la" }] := by decide +kernel
  have hoptions : ∀ r options, Instruction.selector r options ∈ (compile source).program →
      [0] ∉ options := by
    intro r options hmem
    simp only [hprogram, List.mem_cons, reduceCtorEq, Instruction.selector.injEq, List.not_mem_nil,
      or_false, false_or] at hmem
    rw [hmem.2]
    decide
  obtain ⟨a, ha, himage, hlength, -⟩ := listing_of_assembled_source h hoptions 16
  exact ⟨h, hoptions, a, ha, himage, hlength⟩

end TileAsm
