import TileAsm.Proofs.Assembly

/-!
# Where jumps go

Layout and emission count in different ways: the one adds up sizes, the other puts bytes one behind
the other. That both arrive at the same offsets is `length_of_encode`; what is shown here is what it
means for an image. The two bytes behind the opcode of a jump are the offset at which the encoding
of the instructions from its label on begins, and of several declarations of one name the last one
counts.

No offset is cut off by its 16 bits. The layout refuses a program before one of its labels lies
beyond the address space, so the offset of a label is below `maxOffset`, or equal to it if the label
ends a program that fills the space.
-/

namespace TileAsm

/-- The two bytes of an address add up to it. -/
theorem Address.toNat_add_of_toBytes (a : UInt16) :
    (UInt8.ofNat (a.toNat / 256)).toNat * 256 + (UInt8.ofNat a.toNat).toNat = a.toNat := by
  have := a.toNat_lt
  rw [UInt8.toNat_ofNat', UInt8.toNat_ofNat']
  omega

namespace Program

variable {p : Program}

/-- The last declaration of a label by its place in the program. -/
theorem exists_last_label_of_lastOffset? {name : String} {k : Nat}
    (h : p.lastOffset? name = some k) :
    ∃ j doc, p[j]? = some (.label name doc) ∧
      (∀ m doc', j < m → p[m]? ≠ some (.label name doc')) ∧ size (p.take j) = k := by
  obtain ⟨before, doc, after, rfl, hafter, rfl⟩ := lastOffset?_eq_some_iff.1 h
  refine ⟨before.length, doc, by simp, ?_, by rw [List.take_left]⟩
  intro m doc' hm heq
  rw [List.getElem?_append_right (Nat.le_of_lt hm)] at heq
  obtain ⟨d, hd⟩ := Nat.exists_eq_add_of_lt hm
  rw [hd, show before.length + d + 1 - before.length = d + 1 by omega,
    List.getElem?_cons_succ] at heq
  exact hafter ⟨doc', List.mem_of_getElem? heq⟩

/-- A resolved jump is encoded as its opcode and the offset of its label. -/
theorem encode_resolve_address {registers : RegisterTable} {labels : LabelTable} {op : Opcode}
    {t : LabelRef} {k : Nat} (hlabels : p.layout = .ok labels)
    (hk : p.lastOffset? t.label = some k) :
    ((Instruction.address op t).resolve registers labels).encode =
      .ok (op.code :: Address.toBytes (UInt16.ofNat k)) := by
  have hlabel : labels[t.label]? = some (UInt16.ofNat k) := by
    rw [getElem?_of_layout hlabels, hk]
    rfl
  simp [Instruction.resolve, Instruction.mapRegisters, Instruction.mapTarget, Instruction.encode,
    hlabel, LabelRef.bindTo, LabelRef.resolved]

/-- The bytes of an image at a jump. -/
theorem drop_image_of_address {a : Assembly} {i : Nat} {op : Opcode} {t : LabelRef} {k : Nat}
    (ha : p.assemble = .ok a) (hi : p[i]? = some (.address op t))
    (hk : p.lastOffset? t.label = some k) :
    ∃ rest, a.image.drop (size (p.take i)) =
      op.code :: UInt8.ofNat ((UInt16.ofNat k).toNat / 256) ::
        UInt8.ofNat (UInt16.ofNat k).toNat :: rest := by
  obtain ⟨-, hlabels, hprogram, himage⟩ := assemble_eq_ok_iff.1 ha
  obtain ⟨hlt, hget⟩ := List.getElem?_eq_some_iff.1 hi
  have hdrop : a.program.drop i =
      (Instruction.address op t).resolve a.registers a.labels ::
        resolve a.registers a.labels (p.drop (i + 1)) := by
    rw [hprogram, resolve, ← List.map_drop, List.drop_eq_getElem_cons hlt, hget]
    rfl
  have hemit := emit_drop himage i
  rw [hdrop, hprogram, size_take_resolve] at hemit
  obtain ⟨bytes, rest, hbytes, -, heq⟩ := emit_cons_eq_ok_iff.1 hemit
  rw [encode_resolve_address hlabels hk] at hbytes
  cases hbytes
  exact ⟨rest, heq⟩

end Program

/-- **Jump targets are right in the image.** A jump to a label, forward or backward, holds the
offset at which the instructions from the last declaration of that label on are encoded. -/
theorem jump_target_in_image {source : String} {keepGoing : Bool} {image : List UInt8}
    (h : assemble source keepGoing = .ok image) {i : Nat} {op : Opcode} {t : LabelRef}
    (hi : (compile source).program[i]? = some (.address op t)) :
    let p := (compile source).program
    ∃ a j doc, p.assemble = .ok a ∧ a.image = image ∧
      p[j]? = some (.label t.label doc) ∧
      (∀ m doc', j < m → p[m]? ≠ some (.label t.label doc')) ∧
      let start := Program.size (p.take i)
      let target := Program.size (p.take j)
      target ≤ image.length ∧ image.length ≤ 65535 ∧ image[start]? = some op.code ∧
      (∃ high low, image[start + 1]? = some high ∧ image[start + 2]? = some low ∧
        high.toNat * 256 + low.toNat = target) ∧
      Program.emit (a.program.drop j) = .ok (image.drop target) := by
  intro p
  obtain ⟨a, ha, rfl⟩ := exists_assembly_of_assemble h
  obtain ⟨hregisters, hlabels, hprogram, himage⟩ := Program.assemble_eq_ok_iff.1 ha
  have hunbound : ∀ i ∈ p, i.Unbound := fun i hi ↦ unbound_of_mem_compile hi
  obtain ⟨-, hsize, hdeclares⟩ := (Program.exists_assemble_eq_ok_iff hunbound).1 ⟨a, ha⟩
  -- the label of the jump is declared, since the program was emitted
  obtain ⟨k, hk⟩ : ∃ k, p.lastOffset? t.label = some k := by
    refine Option.ne_none_iff_exists'.1 fun hnone ↦ Program.lastOffset?_eq_none_iff.1 hnone ?_
    exact hdeclares _ (List.mem_of_getElem? hi) _
      (Program.targets_iff.2 ⟨t, rfl, rfl⟩)
  obtain ⟨j, doc, hj, hlast, rfl⟩ := Program.exists_last_label_of_lastOffset? hk
  obtain ⟨rest, hrest⟩ := Program.drop_image_of_address ha hi hk
  have hlength : a.image.length = p.size := by
    rw [Program.length_of_emit himage, hprogram, Program.size_resolve]
  have hget : ∀ d, a.image[Program.size (p.take i) + d]? =
      (a.image.drop (Program.size (p.take i)))[d]? := fun d ↦ List.getElem?_drop.symm
  refine ⟨a, j, doc, ha, rfl, hj, hlast, ?_, ?_, ?_, ?_, ?_⟩
  · rw [hlength]
    exact p.size_take_le j
  · rw [hlength]
    exact hsize
  · have hzero := hget 0
    rw [Nat.add_zero, hrest] at hzero
    exact hzero
  · refine ⟨_, _, by rw [hget, hrest]; rfl, by rw [hget, hrest]; rfl, ?_⟩
    rw [Address.toNat_add_of_toBytes, Program.toNat_of_lastOffset? hsize hk]
  · have hemit := Program.emit_drop himage j
    rwa [show Program.size (a.program.take j) = Program.size (p.take j) by
      rw [hprogram, Program.size_take_resolve]] at hemit

/-- A jump between two declarations of its label goes to the second one. -/
theorem jump_target_of_redeclared_label :
    let source := ":la NOPE\nJUMP la\n:la EXIT"
    let p := (compile source).program
    assemble source false = .ok [0x00, 0x10, 0x00, 0x04, 0x01] ∧
      p[2]? = some (.address .jump { label := "la" }) ∧
      ∃ j doc, p[j]? = some (.label "la" doc) ∧
        (∀ m doc', j < m → p[m]? ≠ some (.label "la" doc')) ∧ Program.size (p.take j) = 4 := by
  intro source p
  have h : assemble source false = .ok [0x00, 0x10, 0x00, 0x04, 0x01] := by decide +kernel
  have hi : p[2]? = some (.address .jump { label := "la" }) := by decide +kernel
  have hstart : Program.size (p.take 2) = 1 := by decide +kernel
  obtain ⟨-, j, doc, -, -, hj, hlast, -, -, -, ⟨high, low, hhigh, hlow, hsum⟩, -⟩ :=
    jump_target_in_image h hi
  rw [hstart] at hhigh hlow
  cases hhigh
  cases hlow
  exact ⟨h, hi, j, doc, hj, hlast, hsum.symm⟩

end TileAsm
