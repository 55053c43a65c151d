import TileAsm.Program
import TileAsm.Proofs.Basic

/-!
# Emission

An instruction is written all at once: what it writes is its encoding, and it writes nothing if it
has none (`write_eq`). So the image of a program is the encodings of its instructions one after the
other (`emit_eq`), and it is cut where the program is cut. Two facts carry everything that is said
about images elsewhere:

* an encoding has as many bytes as `size` promises, whatever the operands are bound to
  (`length_of_encode`), so the offsets that are computed from sizes are the offsets of the bytes
  (`drop_of_emit_append`);
* a program fails where its first instruction fails, and in the same way (`emit_eq_error_iff`).
-/

namespace TileAsm

/-! ### Operands -/

theorem RegisterRef.resolved_eq_ok_iff {r : RegisterRef} {b : UInt8} :
    r.resolved = .ok b ↔ r.value = some b := by
  rw [resolved]
  cases r.value <;> simp

theorem LabelRef.resolved_eq_ok_iff {t : LabelRef} {a : UInt16} :
    t.resolved = .ok a ↔ t.value = some a := by
  rw [resolved]
  cases t.value <;> simp

namespace Instruction

/-! ### One instruction -/

theorem eq_label_of_isLabel {i : Instruction} (h : i.isLabel = true) :
    ∃ name doc, i = label name doc := by
  cases i with
  | label name doc => exact ⟨name, doc, rfl⟩
  | _ => cases h

/-- An encoding is as long as its instruction says, whatever the operands are bound to. -/
theorem length_of_encode {i : Instruction} {bytes : List UInt8} (h : i.encode = .ok bytes) :
    bytes.length = i.size := by
  cases i with
  | label => cases h; rfl
  | bare => cases h; rfl
  | tile id rows =>
    cases h
    simp [size]
  | register op r =>
    obtain ⟨b, -, hb⟩ := bind_eq_ok_iff.1 h
    cases hb
    rfl
  | address op t =>
    obtain ⟨a, -, ha⟩ := bind_eq_ok_iff.1 h
    cases ha
    rfl
  | pair op source dest =>
    obtain ⟨b, -, hb⟩ := bind_eq_ok_iff.1 h
    obtain ⟨c, -, hc⟩ := bind_eq_ok_iff.1 hb
    cases hc
    rfl
  | text r chars =>
    obtain ⟨b, -, hb⟩ := bind_eq_ok_iff.1 h
    cases hb
    simp only [size, List.length_cons]
    omega
  | selector r options =>
    obtain ⟨b, -, hb⟩ := bind_eq_ok_iff.1 h
    cases hb
    simp only [size, List.length_cons, List.length_append, List.length_nil]
    omega

/-- Encoding looks at no more of a register operand than the byte it is bound to. -/
theorem encode_mapRegisters_congr {f g : RegisterRef → RegisterRef} {i : Instruction}
    (h : ∀ r ∈ i.registers, (f r).resolved = (g r).resolved) :
    (i.mapRegisters f).encode = (i.mapRegisters g).encode := by
  cases i with
  | register op r => simp only [mapRegisters, encode, h r (by simp [registers])]
  | pair op source dest =>
    have hdest := h dest (by simp [registers])
    cases source with
    | literal v => simp only [mapRegisters, Source.mapRegister, encode, Source.resolved, hdest]
    | register r =>
      have hr := h r (by simp [registers, Source.register?])
      simp only [mapRegisters, Source.mapRegister, encode, Source.resolved, hdest, hr]
  | text r bytes => simp only [mapRegisters, encode, h r (by simp [registers])]
  | selector r options => simp only [mapRegisters, encode, h r (by simp [registers])]
  | _ => rfl

end Instruction

/-! ### Writing -/

namespace ImageWriter

/-- Bytes that are written one after the other are written at once. -/
theorem append_append (first second : List UInt8) :
    (do append first; append second) = append (first ++ second) := by
  refine funext fun image ↦ ?_
  have hassoc : image ++ first ++ second = image ++ (first ++ second) :=
    Array.toList_inj.1 (by simp)
  show (Except.ok (), image ++ first ++ second) = (Except.ok (), image ++ (first ++ second))
  rw [hassoc]

theorem append_nil : append [] = pure () := by
  refine funext fun image ↦ ?_
  have hnil : image ++ ([] : List UInt8) = image := Array.toList_inj.1 (by simp)
  show (Except.ok (), image ++ ([] : List UInt8)) = (Except.ok (), image)
  rw [hnil]

theorem forM_append (parts : List (List UInt8)) : parts.forM append = append parts.flatten := by
  induction parts with
  | nil => exact append_nil.symm
  | cons part parts ih =>
    show (do append part; parts.forM append) = append (part ++ parts.flatten)
    rw [ih, append_append]

end ImageWriter

open ImageWriter in
/-- **An instruction is written all at once or not at all.** -/
theorem Instruction.write_eq (i : Instruction) : i.write = liftM i.encode >>= append := by
  match i with
  | label _ _ => exact append_nil.symm
  | bare _ => rfl
  | tile id rows => exact append_append _ _
  | register op r =>
    simp only [write, encode]
    rcases r.resolved with e | b <;> rfl
  | address op t =>
    simp only [write, encode]
    rcases t.resolved with e | a <;> rfl
  | pair op source dest =>
    simp only [write, encode]
    rcases source.resolved with e | b
    · rfl
    · rcases dest.resolved with e | c <;> rfl
  | text r bytes =>
    simp only [write, encode, append_append]
    rcases r.resolved with e | b <;> rfl
  | selector r options =>
    simp only [write, encode, forM_append, append_append]
    rcases r.resolved with e | b <;> rfl

namespace Program

/-! ### Programs -/

@[simp] theorem emit_nil : emit [] = .ok [] := rfl

/-- Whatever the image holds already, the encodings come behind it. -/
theorem result_write (p : Program) (image : Array UInt8) :
    p.write.result image =
      (fun encodings ↦ image.toList ++ encodings.flatten) <$> p.mapM Instruction.encode := by
  induction p generalizing image with
  | nil =>
    show Except.ok image.toList = Except.ok (image.toList ++ [])
    rw [List.append_nil]
  | cons i p ih =>
    show (do i.write; write p : ImageWriter Unit).result image = _
    rw [Instruction.write_eq, List.mapM_cons]
    rcases i.encode with e | bytes
    · rfl
    · show (write p).result (image ++ bytes) = _
      rw [ih]
      rcases p.mapM Instruction.encode with e | encodings
      · rfl
      · show Except.ok ((image ++ bytes).toList ++ _) = Except.ok (image.toList ++ (bytes ++ _))
        rw [Array.toList_appendList, List.append_assoc]

/-- **An image is the encodings of its instructions, one after the other.** -/
theorem emit_eq (p : Program) : p.emit = List.flatten <$> p.mapM Instruction.encode := by
  rw [emit, result_write]
  rfl

/-- Replacing instructions by others of their sizes. -/
theorem size_map_of_size_eq {f : Instruction → Instruction} (h : ∀ i, (f i).size = i.size)
    (p : Program) : size (p.map f) = size p := by
  induction p with
  | nil => rfl
  | cons i p ih => rw [List.map_cons, size_cons, size_cons, h, ih]

theorem emit_cons (i : Instruction) (p : Program) :
    emit (i :: p) = do return (← i.encode) ++ (← emit p) := by
  rw [emit_eq, emit_eq, List.mapM_cons]
  cases i.encode with
  | error e => rfl
  | ok bytes => cases p.mapM Instruction.encode <;> rfl

/-- An image looks at no more of an instruction than its bytes. -/
theorem emit_map_congr {f g : Instruction → Instruction} {p : Program}
    (h : ∀ i ∈ p, (f i).encode = (g i).encode) : emit (p.map f) = emit (p.map g) := by
  induction p with
  | nil => rfl
  | cons i p ih =>
    rw [List.map_cons, List.map_cons, emit_cons, emit_cons, h i (by simp),
      ih fun j hj ↦ h j (by simp [hj])]

/-- An image is the bytes of the first instruction and the image of the rest. -/
theorem emit_cons_eq_ok_iff {i : Instruction} {p : Program} {image : List UInt8} :
    emit (i :: p) = .ok image ↔
      ∃ bytes rest, i.encode = .ok bytes ∧ emit p = .ok rest ∧ image = bytes ++ rest := by
  rw [emit_cons, bind_eq_ok_iff]
  constructor
  · rintro ⟨bytes, hbytes, h⟩
    obtain ⟨rest, hrest, heq⟩ := bind_eq_ok_iff.1 h
    cases heq
    exact ⟨bytes, rest, hbytes, hrest, rfl⟩
  · rintro ⟨bytes, rest, hbytes, hrest, rfl⟩
    exact ⟨bytes, hbytes, by rw [hrest]; rfl⟩

/-- An image is as long as its program says. -/
theorem length_of_emit {p : Program} {image : List UInt8} (h : p.emit = .ok image) :
    image.length = p.size := by
  induction p generalizing image with
  | nil => cases h; rfl
  | cons i p ih =>
    obtain ⟨bytes, rest, hbytes, hrest, rfl⟩ := emit_cons_eq_ok_iff.1 h
    rw [List.length_append, Instruction.length_of_encode hbytes, ih hrest, size_cons]

/-- A program is emitted part by part. -/
theorem emit_append_eq_ok_iff {p q : Program} {image : List UInt8} :
    emit (p ++ q) = .ok image ↔
      ∃ front back, emit p = .ok front ∧ emit q = .ok back ∧ image = front ++ back := by
  induction p generalizing image with
  | nil => simp
  | cons i p ih =>
    -- the bytes of `i` move from the front of the whole to the front of the first part
    rw [List.cons_append, emit_cons_eq_ok_iff]
    constructor
    · rintro ⟨bytes, rest, hbytes, hrest, rfl⟩
      obtain ⟨front, back, hfront, hback, rfl⟩ := ih.1 hrest
      exact ⟨bytes ++ front, back, emit_cons_eq_ok_iff.2 ⟨bytes, front, hbytes, hfront, rfl⟩, hback,
        (List.append_assoc ..).symm⟩
    · rintro ⟨_, back, hpfront, hback, rfl⟩
      obtain ⟨bytes, front, hbytes, hfront, rfl⟩ := emit_cons_eq_ok_iff.1 hpfront
      exact ⟨bytes, front ++ back, hbytes, ih.2 ⟨front, back, hfront, hback, rfl⟩,
        List.append_assoc ..⟩

/-- The bytes of a part of a program stand at the offset that the sizes before it add up to. -/
theorem drop_of_emit_append {p q : Program} {image : List UInt8}
    (h : emit (p ++ q) = .ok image) : emit q = .ok (image.drop p.size) := by
  obtain ⟨front, back, hfront, hback, rfl⟩ := emit_append_eq_ok_iff.1 h
  rw [← length_of_emit hfront, List.drop_left, hback]

/-- What comes behind some instructions is the image of the rest. -/
theorem emit_drop {p : Program} {image : List UInt8} (h : p.emit = .ok image) (k : Nat) :
    emit (p.drop k) = .ok (image.drop (size (p.take k))) := by
  apply drop_of_emit_append
  rwa [List.take_append_drop]

theorem exists_encode_of_mem {p : Program} {image : List UInt8} (h : p.emit = .ok image)
    {i : Instruction} (hi : i ∈ p) : ∃ bytes, i.encode = .ok bytes := by
  obtain ⟨before, after, rfl⟩ := List.append_of_mem hi
  obtain ⟨-, back, -, hback, -⟩ := emit_append_eq_ok_iff.1 h
  obtain ⟨bytes, -, hbytes, -⟩ := emit_cons_eq_ok_iff.1 hback
  exact ⟨bytes, hbytes⟩

/-- A program fails as its first failing instruction does. -/
theorem emit_eq_error_iff {p : Program} {e : AsmError} :
    p.emit = .error e ↔
      ∃ before i after, p = before ++ i :: after ∧ (∀ j ∈ before, ∃ b, j.encode = .ok b) ∧
        i.encode = .error e := by
  rw [emit_eq, map_eq_error_iff, mapM_eq_error_iff]

end Program

end TileAsm
